import Platypus.Parser.Logs
import Platypus.Parser.Tagged

namespace Platypus.Parser

-- The functions and the libraries of a list of uses.
def functionsOf (uses : Uses) : List Name := (uses.takeWhile Option.isSome).reduceOption

def libsOf : Uses → List Path
  | none :: some lib :: uses => lib :: libsOf uses
  | _ :: uses => libsOf uses
  | [] => []

-- A list of uses as the log parsers write it.
def usesOf (functions : List Name) (libs : List Path) : Uses :=
  functions.map some ++ libs.flatMap fun lib => [none, some lib]

section Uses

variable (functions : List Name) (libs : List Path)

@[simp] theorem libsOf_usesOf : libsOf (usesOf functions libs) = libs := by
  unfold usesOf
  induction functions with
  | nil =>
    induction libs with
    | nil => rfl
    | cons lib libs ih => simpa [libsOf] using ih
  | cons f fs ih => simpa [libsOf] using ih

-- The library that `check` reads off a list: the one that was written last.
theorem getLast_usesOf (h : libs ≠ []) :
    (usesOf functions libs).getLast?.join = libs.getLast? := by
  obtain ⟨init, lib, rfl⟩ := List.eq_nil_or_concat libs |>.resolve_left h
  simp [usesOf]

theorem usesOf_append (function : Name) :
    usesOf functions [] ++ [some function] = usesOf (functions ++ [function]) [] := by
  simp [usesOf]

theorem usesOf_append_library (lib : Path) :
    usesOf functions libs ++ [none, some lib] = usesOf functions (libs ++ [lib]) := by
  simp [usesOf]

end Uses

-- Every list of the dictionary has a shape.
def EachUses (shape : Uses → Prop) (d : Dict Name Uses) : Prop := ∀ e ∈ d.entries, shape e.2

section Shape

variable {shape : Uses → Prop} {d : Dict Name Uses}

theorem EachUses.set (h : EachUses shape d) {struct : Name} {uses : Uses} (huses : shape uses) :
    EachUses shape (d.set struct uses) := by
  intro e he
  rcases d.mem_set he with rfl | he
  · exact huses
  · exact h e he

theorem addUse_functions (h : EachUses (fun u => ∃ fs, u = usesOf fs []) d) (struct function : Name) :
    EachUses (fun u => ∃ fs, u = usesOf fs []) (addUse d struct function) := by
  unfold addUse
  split
  · exact h.set ⟨[function], rfl⟩
  · rename_i uses huses
    split
    · exact h
    · obtain ⟨fs, rfl⟩ : ∃ fs, uses = usesOf fs [] := h _ (d.mem_of_get? huses)
      exact h.set ⟨fs ++ [function], usesOf_append fs function⟩

theorem parseSym_functions (lib_dict : Dict Path (Dict Name Address)) (lines : List Name) (x : SymLog)
    (h : EachUses (fun u => ∃ fs, u = usesOf fs []) x.STRUCTS_USED_BY_CBGs) :
    EachUses (fun u => ∃ fs, u = usesOf fs [])
      (lines.foldl (parseSymLine lib_dict) x).STRUCTS_USED_BY_CBGs := by
  induction lines generalizing x with
  | nil => exact h
  | cons line lines ih =>
    refine ih _ ?_
    unfold parseSymLine
    dsimp only
    split
    · split <;> exact h
    · split
      · exact addUse_functions h _ _
      · exact h

theorem addLibrary_uses (h : EachUses (fun u => ∃ fs libs, u = usesOf fs libs) d) (struct : Name)
    (lib : Path) : EachUses (fun u => ∃ fs libs, u = usesOf fs libs) (addLibrary d struct lib) := by
  unfold addLibrary
  split
  · exact h
  · rename_i uses huses
    obtain ⟨fs, libs, rfl⟩ : ∃ fs libs, uses = usesOf fs libs := h _ (d.mem_of_get? huses)
    exact h.set ⟨fs, libs ++ [lib], usesOf_append_library fs libs lib⟩

theorem argumentLine_uses {lib_dict : Dict Path (Dict Name Address)} {d' : Dict Name Uses}
    {line : Name} (h : EachUses (fun u => ∃ fs libs, u = usesOf fs libs) d)
    (hline : argumentLine lib_dict d line = some d') :
    EachUses (fun u => ∃ fs libs, u = usesOf fs libs) d' := by
  unfold argumentLine at hline
  dsimp only at hline
  split at hline
  · split at hline
    · exact Option.some_inj.mp hline ▸ h
    · obtain ⟨callee, -, hline⟩ := Option.bind_eq_some_iff.mp hline
      split at hline
      · exact Option.some_inj.mp hline ▸ h
      · exact Option.some_inj.mp hline ▸ addLibrary_uses h _ _
  · exact Option.some_inj.mp hline ▸ h

theorem trace_argumentLine_uses {lib_dict : Dict Path (Dict Name Address)} {d' : Dict Name Uses}
    {lines : List Name} (h : EachUses (fun u => ∃ fs libs, u = usesOf fs libs) d)
    (hlines : State.trace (argumentLine lib_dict) d lines = some d') :
    EachUses (fun u => ∃ fs libs, u = usesOf fs libs) d' := by
  induction lines generalizing d with
  | nil =>
    rw [State.trace, Option.some_inj] at hlines
    exact hlines ▸ h
  | cons line lines ih =>
    obtain ⟨d₁, hline, hlines⟩ := Option.bind_eq_some_iff.mp hlines
    exact ih (argumentLine_uses h hline) hlines

-- The lists that reach `check`: functions, then at least one library.
theorem Logs.inputs_uses {l : Logs} {inp : Inputs} (h : l.inputs = some inp) :
    EachUses (fun u => ∃ fs libs, libs ≠ [] ∧ u = usesOf fs libs) inp.STRUCTS_USED_BY_CBGs := by
  obtain ⟨structs, hstructs, h⟩ := Option.bind_eq_some_iff.mp h
  obtain ⟨x, -, h⟩ := Option.bind_eq_some_iff.mp h
  obtain rfl := Option.some_inj.mp h
  obtain ⟨d, htrace, rfl⟩ := Option.map_eq_some_iff.mp hstructs
  have hsym : EachUses (fun u => ∃ fs libs, u = usesOf fs libs) l.symLog.STRUCTS_USED_BY_CBGs := by
    intro e he
    obtain ⟨fs, hfs⟩ := parseSym_functions l.lib_dict l.sym ⟨[], .empty⟩
      (fun e he => absurd he List.not_mem_nil) e he
    exact ⟨fs, [], hfs⟩
  intro e he
  obtain ⟨he, hmark⟩ := List.mem_filter.mp he
  obtain ⟨fs, libs, hfs⟩ := trace_argumentLine_uses hsym htrace e he
  refine ⟨fs, libs, ?_, hfs⟩
  rintro rfl
  rw [hfs] at hmark
  simp [usesOf] at hmark

end Shape

namespace Inputs

variable (inp : Inputs)

-- The getter is recorded to forward its callback to the library, or to store it in a struct that
-- is recorded to reach the library.
def Forwards (item : Name) (lib : Path) : Prop :=
  (item, lib) ∈ inp.CPTR_REDIRECTION_TO_EXTERNAL ∨
    ∃ e ∈ inp.STRUCTS_USED_BY_CBGs.entries, item ∈ functionsOf e.2 ∧ lib ∈ libsOf e.2

-- Every library that a getter forwards to has its callees that the binary defines.
def Delivered (t : Tables) : Prop :=
  ∀ item info lib func a, (item, info) ∈ inp.call_dict.entries → inp.Forwards item lib →
    func ∈ info.callees → inp.bin.symbols.get? func = some a → inp.Has lib t a

-- A step of the run writes the entry to the table, and no later one makes the table anew.
def Lasting (tag : Tag) (x : Entry) : Prop :=
  ∃ pre e post s s', inp.events = pre ++ e :: post ∧ State.trace inp.step .empty pre = some s ∧
    inp.step s e = some s' ∧ (inp.target s e = some tag ∧ x ∈ inp.written s e) ∧
    State.Meets inp.step (fun t e => ¬inp.Replaces t e tag) s' post

variable {inp} {t : Tables}

theorem inTable_iff_lasting (hcheck : inp.check = some t) (tag : Tag) (x : Entry) :
    InTable t tag x ↔ inp.Lasting tag x := by
  have heffect := State.trace_effect (fun _ e _ hstep => step_effect e hstep tag x) hcheck
  rw [heffect]
  refine or_iff_right ?_
  rintro ⟨hempty, -⟩
  exact not_inTable_empty tag x hempty

-- The libraries that the loops of `check` take for a getter: the one of the first pair with its
-- name, and the last one of the first struct.
def picks (inp : Inputs) (item : Name) : List Path :=
  ((inp.CPTR_REDIRECTION_TO_EXTERNAL.find? fun tup => item = tup.1 ∨ item = tup.2).map
      Prod.snd).toList ++
    ((inp.STRUCTS_USED_BY_CBGs.entries.find? fun e => some item ∈ e.2).bind fun e =>
      (libsOf e.2).getLast?).toList

-- One of these libraries has the tag, and no step after those of the getter makes the table anew.
def Chosen (inp : Inputs) (item : Name) (info : CallInfo) (tag : Tag) : Prop :=
  (∃ lib ∈ inp.picks item, inp.tag lib = some tag) ∧
    ∃ pre post s, inp.events = pre ++ inp.itemEvents item info ++ post ∧
      State.trace inp.step .empty (pre ++ inp.itemEvents item info) = some s ∧
      State.Meets inp.step (fun t e => ¬inp.Replaces t e tag) s post

theorem redirect_mem_of_picks {item func : Name} {info : CallInfo} {lib : Path}
    (hshape : EachUses (fun u => ∃ fs libs, libs ≠ [] ∧ u = usesOf fs libs)
      inp.STRUCTS_USED_BY_CBGs)
    (hlib : lib ∈ inp.picks item) (hfunc : func ∈ info.callees) :
    .redirect (some lib) func ∈ inp.redirectEvents item info ++ inp.structEvents item info := by
  rcases List.mem_append.mp hlib with hlib | hlib
  · obtain ⟨tup, htup, rfl⟩ := Option.map_eq_some_iff.mp (Option.mem_toList.mp hlib)
    refine List.mem_append_left _ ?_
    simp only [redirectEvents, htup]
    exact List.mem_map_of_mem hfunc
  · obtain ⟨e, he, hlast⟩ := Option.bind_eq_some_iff.mp (Option.mem_toList.mp hlib)
    obtain ⟨fs, libs, hlibs, huses⟩ := hshape e (List.mem_of_find?_eq_some he)
    rw [huses, libsOf_usesOf] at hlast
    refine List.mem_append_right _ ?_
    simp only [structEvents, he]
    rw [huses, getLast_usesOf fs libs hlibs, hlast]
    exact List.mem_map_of_mem hfunc

-- Only the steps that add callees make tables anew.
theorem not_replaces_of_mem {item : Name} {info : CallInfo} {e : Event} {s : Tables} {tag : Tag}
    (he : e ∈ inp.redirectEvents item info ++ inp.structEvents item info) :
    ¬inp.Replaces s e tag := by
  have hredirect : ∃ lib func, e = .redirect lib func := by
    rcases List.mem_append.mp he with he | he
    · unfold redirectEvents at he
      split at he
      · obtain ⟨func, -, rfl⟩ := List.mem_map.mp he
        exact ⟨_, func, rfl⟩
      · exact absurd he List.not_mem_nil
    · unfold structEvents at he
      split at he
      · obtain ⟨func, -, rfl⟩ := List.mem_map.mp he
        exact ⟨_, func, rfl⟩
      · exact absurd he List.not_mem_nil
  obtain ⟨lib, func, rfl⟩ := hredirect
  exact not_false

theorem lasting_of_chosen {item func : Name} {info : CallInfo} {tag : Tag} {a : Address}
    (hshape : EachUses (fun u => ∃ fs libs, libs ≠ [] ∧ u = usesOf fs libs)
      inp.STRUCTS_USED_BY_CBGs)
    (hchosen : inp.Chosen item info tag) (hfunc : func ∈ info.callees)
    (ha : inp.bin.symbols.get? func = some a) : inp.Lasting tag (entry inp.name a) := by
  obtain ⟨⟨lib, hlib, htag⟩, pre, post, s, hevents, htrace, hkeep⟩ := hchosen
  obtain ⟨mid, mid', hmid⟩ := List.append_of_mem (redirect_mem_of_picks hshape hlib hfunc)
  have hitem : inp.itemEvents item info =
      inp.calleeEvents item info ++ mid ++ .redirect (some lib) func :: mid' := by
    rw [itemEvents, List.append_assoc, hmid, List.append_assoc]
  rw [hitem, ← List.append_assoc, State.trace_append] at htrace
  obtain ⟨s₁, hpre, htrace⟩ := Option.bind_eq_some_iff.mp htrace
  obtain ⟨s₂, hstep, hmid'⟩ := Option.bind_eq_some_iff.mp htrace
  refine ⟨pre ++ (inp.calleeEvents item info ++ mid), .redirect (some lib) func, mid' ++ post, s₁, s₂,
    ?_, hpre, hstep, ⟨htag, ?_⟩, ?_⟩
  · rw [hevents, hitem]
    simp only [List.append_assoc, List.cons_append]
  · simp [written, ha]
  · refine .append (fun pre' e post' s' hsplit _ => ?_) fun s' hs' => ?_
    · have he : e ∈ inp.redirectEvents item info ++ inp.structEvents item info := by
        simp [hmid, hsplit]
      exact not_replaces_of_mem he
    · rw [hmid', Option.some_inj] at hs'
      exact hs' ▸ hkeep

-- A library that a getter forwards to has the getter's callees exactly if a step writes the address
-- to its table, and the table is not made anew after that.
theorem delivered_iff (inp : Inputs) (t : Tables) (hcheck : inp.check = some t) :
    inp.Delivered t ↔ ∀ item info lib func a, (item, info) ∈ inp.call_dict.entries →
      inp.Forwards item lib → func ∈ info.callees → inp.bin.symbols.get? func = some a →
      ∃ tag, inp.tag lib = some tag ∧ inp.Lasting tag (entry inp.name a) := by
  simp only [Delivered, Has, inTable_iff_lasting hcheck]

end Inputs

-- It has them if the loops choose it.
theorem Logs.delivered_of_chosen {l : Logs} {inp : Inputs} {t : Tables}
    (hinputs : l.inputs = some inp) (hcheck : inp.check = some t)
    (h : ∀ item info lib, (item, info) ∈ inp.call_dict.entries → inp.Forwards item lib →
      ∃ tag, inp.tag lib = some tag ∧ inp.Chosen item info tag) : inp.Delivered t := by
  intro item info lib func a hitem hforwards hfunc ha
  obtain ⟨tag, htag, hchosen⟩ := h item info lib hitem hforwards
  exact ⟨tag, htag, (Inputs.inTable_iff_lasting hcheck tag _).mpr
    (Inputs.lasting_of_chosen (Logs.inputs_uses hinputs) hchosen hfunc ha)⟩

-- The getter `reg` of the binary hands its callback on to the functions `callees`.
def forwardLogs (callees : List Name) : Logs where
  name := "BIN".toList
  lib_json := ⟨[("liba.so".toList, "LIBA".toList), ("libb.so".toList, "LIBB".toList)], by decide⟩
  exported := fun path =>
    if path = "liba.so".toList then [⟨0x3000, "sort_a".toList⟩] else [⟨0x4000, "sort_b".toList⟩]
  defined := [⟨0x1100, "cmp".toList⟩, ⟨0x1200, "reg".toList⟩]
  plt_addrs := .empty
  structMap := []
  dynsym := ["reg: cmp at arg index 0".toList]
  sym := callees.map fun callee => "Function : reg : ".toList ++ callee

theorem forwardSort_nodup : ([("sort_a".toList, hex 0x3000)].map Prod.fst).Nodup := by
  simp

def forwardInputs (pairs : List (Name × Path)) : Inputs where
  name := "BIN".toList
  lib_json := ⟨[("liba.so".toList, "LIBA".toList), ("libb.so".toList, "LIBB".toList)], by decide⟩
  lib_dict := ⟨[("liba.so".toList, ⟨[("sort_a".toList, hex 0x3000)], forwardSort_nodup⟩),
    ("libb.so".toList, ⟨[("sort_b".toList, hex 0x4000)], by simp⟩)], by decide⟩
  call_dict := ⟨[("reg".toList, ⟨["cmp".toList], ["0".toList]⟩)], by simp⟩
  bin := binParse [⟨0x1100, "cmp".toList⟩, ⟨0x1200, "reg".toList⟩]
  plt_addrs := .empty
  CPTR_REDIRECTION_TO_EXTERNAL := pairs
  STRUCTS_USED_BY_CBGs := .empty
  struct_callbacks := .empty
  global_syms := .empty
  struct_metadata := .empty
  locals_from_structs := .empty

def forwardTables : Tables := ⟨[("LIBA".toList, [entry "BIN".toList (hex 0x1100)])], by simp⟩

theorem forwardLogs_inputs_one :
    (forwardLogs ["sort_a".toList]).inputs =
      some (forwardInputs [("reg".toList, "liba.so".toList)]) := rfl

theorem forwardLogs_inputs_two :
    (forwardLogs ["sort_a".toList, "sort_b".toList]).inputs =
      some (forwardInputs [("reg".toList, "liba.so".toList), ("reg".toList, "libb.so".toList)]) := rfl

theorem forwardInputs_check :
    (forwardInputs [("reg".toList, "liba.so".toList)]).check = some forwardTables := rfl

theorem forwardInputs_chosen {info : CallInfo}
    (hitem : ("reg".toList, info) ∈ (forwardInputs [("reg".toList, "liba.so".toList)]).call_dict.entries) :
    (forwardInputs [("reg".toList, "liba.so".toList)]).Chosen "reg".toList info "LIBA".toList := by
  obtain ⟨-, rfl⟩ := Prod.mk.inj (List.mem_singleton.mp hitem)
  exact ⟨⟨"liba.so".toList, by decide, rfl⟩, [], [], forwardTables, rfl, forwardInputs_check, .nil _⟩

theorem delivered_oneLibrary :
    (forwardInputs [("reg".toList, "liba.so".toList)]).Delivered forwardTables := by
  refine (Inputs.delivered_iff _ forwardTables forwardInputs_check).mpr ?_
  intro item info lib func a hitem hforwards hfunc ha
  obtain ⟨rfl, -⟩ := Prod.mk.inj (List.mem_singleton.mp hitem)
  refine ⟨"LIBA".toList, ?_, Inputs.lasting_of_chosen (Logs.inputs_uses forwardLogs_inputs_one)
    (forwardInputs_chosen hitem) hfunc ha⟩
  rcases hforwards with hpair | ⟨e, he, -⟩
  · obtain ⟨-, rfl⟩ := Prod.mk.inj (List.mem_singleton.mp hpair)
    rfl
  · exact absurd he List.not_mem_nil

-- The second library that `reg` forwards to gets no table.
theorem twoLibraries_not_delivered :
    ∃ inp t, (forwardLogs ["sort_a".toList, "sort_b".toList]).inputs = some inp ∧
      inp.check = some t ∧ inp.Forwards "reg".toList "libb.so".toList ∧
      inp.tag "libb.so".toList = some "LIBB".toList ∧ t.get? "LIBB".toList = none ∧
      ¬inp.Delivered t := by
  refine ⟨forwardInputs [("reg".toList, "liba.so".toList), ("reg".toList, "libb.so".toList)],
    forwardTables, forwardLogs_inputs_two, rfl, .inl (by decide), rfl, rfl, fun h => ?_⟩
  obtain ⟨tag, htag, es, hes, -⟩ := h "reg".toList ⟨["cmp".toList], ["0".toList]⟩ "libb.so".toList
    "cmp".toList (hex 0x1100) List.mem_cons_self (.inl (by decide)) List.mem_cons_self rfl
  obtain rfl : "LIBB".toList = tag := Option.some_inj.mp htag
  cases hes

end Platypus.Parser
