import Platypus.Parser.Effect

namespace Platypus.Parser

-- The last underscore of an entry separates the owner from the address.
theorem entry_inj {owner owner' : Name} {a a' : Address} (h : entry owner a = entry owner' a') :
    owner = owner' ∧ a = a' := by
  obtain ⟨howner, htext⟩ := Text.append_cons_inj_of_last a.plain a'.plain (congrArg Entry.text h)
  refine ⟨howner, ?_⟩
  cases a
  cases a'
  cases htext
  rfl

namespace Inputs

variable (inp : Inputs)

-- An address of a symbol or of a PLT stub of the analysed module.
def OwnAddress (a : Address) : Prop :=
  ∃ n, inp.bin.symbols.get? n = some a ∨ a ∈ (inp.bin.duplicate_locals.get? n).getD [] ∨
    inp.plt_addrs.get? n = some a

def Recorded (function : Name) : Prop :=
  ∃ e ∈ inp.struct_callbacks.entries, function ∈ e.2

-- A library with the tag exports a recorded callback at the offset.
def LibraryOffset (owner : Tag) (a : Address) : Prop :=
  ∃ e ∈ inp.lib_dict.entries, inp.tag e.1 = some owner ∧
    ∃ function, e.2.get? function = some a ∧ inp.Recorded function

def WellTagged (x : Entry) : Prop :=
  ∃ owner a, x = entry owner a ∧
    (owner = inp.name ∧ inp.OwnAddress a ∨ inp.LibraryOffset owner a)

variable {inp} {t t' : Tables}

theorem wellTagged_entry {owner : Tag} {a : Address} :
    inp.WellTagged (entry owner a) ↔
      owner = inp.name ∧ inp.OwnAddress a ∨ inp.LibraryOffset owner a := by
  refine ⟨?_, fun h => ⟨owner, a, rfl, h⟩⟩
  rintro ⟨owner', a', hentry, h⟩
  obtain ⟨rfl, rfl⟩ := entry_inj hentry
  exact h

theorem wellTagged_own {a : Address} (h : inp.OwnAddress a) : inp.WellTagged (entry inp.name a) :=
  wellTagged_entry.mpr (.inl ⟨rfl, h⟩)

theorem wellTagged_own_of_mem {x : Entry} {as : List Address} (has : ∀ a ∈ as, inp.OwnAddress a)
    (hx : x ∈ as.map (entry inp.name)) : inp.WellTagged x := by
  obtain ⟨a, ha, rfl⟩ := List.mem_map.mp hx
  exact wellTagged_own (has a ha)

theorem ownAddress_bin {n : Name} {a : Address} (h : a ∈ (inp.bin.symbols.get? n).toList) :
    inp.OwnAddress a := ⟨n, .inl (Option.mem_toList.mp h)⟩

theorem ownAddress_plt {n : Name} {a : Address} (h : a ∈ (inp.plt_addrs.get? n).toList) :
    inp.OwnAddress a := ⟨n, .inr (.inr (Option.mem_toList.mp h))⟩

theorem ownAddress_addressesOf {callee : Name} {a : Address} (h : a ∈ inp.addressesOf callee) :
    inp.OwnAddress a := by
  unfold addressesOf at h
  split at h
  · exact ownAddress_plt h
  · rcases List.mem_append.mp h with h | h
    · rcases List.mem_append.mp h with h | h
      · exact ownAddress_bin h
      · exact ⟨callee, .inr (.inl h)⟩
    · obtain ⟨e, he, rfl⟩ := List.mem_map.mp h
      exact ⟨e.1, .inl (Dict.get?_of_mem _ (List.mem_of_mem_filter he))⟩

theorem wellTagged_bothPlts {function : Name} {x : Entry} (h : x ∈ inp.bothPlts function) :
    inp.WellTagged x := by
  unfold bothPlts at h
  split at h
  · rename_i a ha
    rw [List.mem_singleton.mp h]
    exact wellTagged_own ⟨_, .inr (.inr ha)⟩
  · exact absurd h List.not_mem_nil

theorem wellTagged_pltEntries {dso : Tag} {function : Name} {a : Address} {x : Entry}
    (ha : inp.plt_addrs.get? function = some a) (h : x ∈ inp.pltEntries t dso function a) :
    inp.WellTagged x := by
  unfold pltEntries at h
  split at h
  · exact absurd h List.not_mem_nil
  · rcases List.mem_cons.mp h with rfl | h
    · exact wellTagged_own ⟨function, .inr (.inr ha)⟩
    · exact wellTagged_bothPlts h

theorem wellTagged_binEntries {dso : Tag} {function : Name} {x : Entry}
    (h : x ∈ inp.binEntries t dso function) : inp.WellTagged x := by
  unfold binEntries at h
  split at h
  · rename_i a ha
    split at h
    · exact absurd h List.not_mem_nil
    · rw [List.mem_singleton.mp h]
      exact wellTagged_own ⟨function, .inl ha⟩
  · exact absurd h List.not_mem_nil

-- The only entries that may be tagged wrongly: those of a callback for which the module has no
-- PLT stub, made of the table's own tag and of the offset in the first library that exports it.
def foreign (inp : Inputs) : Event → List Entry
  | .structCallback dso function =>
    if inp.plt_addrs.get? function = none then inp.libEntries dso function else []
  | _ => []

theorem wellTagged_written {e : Event} {x : Entry} (hforeign : ∀ x ∈ inp.foreign e, inp.WellTagged x)
    (h : x ∈ inp.written t e) : inp.WellTagged x := by
  cases e with
  | callee library callee =>
    simp only [written] at h
    split at h
    · exact absurd h List.not_mem_nil
    · exact wellTagged_own_of_mem (fun _ => ownAddress_addressesOf) h
  | redirect lib func => exact wellTagged_own_of_mem (fun _ => ownAddress_bin) h
  | structCallback dso function =>
    simp only [written] at h
    split at h
    · exact wellTagged_pltEntries ‹_› h
    · rename_i hplt
      rcases List.mem_append.mp h with h | h
      · exact hforeign x (by rwa [foreign, if_pos hplt])
      · exact wellTagged_binEntries h
  | globalTable dso => exact absurd h List.not_mem_nil
  | globalSym dso function => exact wellTagged_own_of_mem (fun _ => ownAddress_plt) h
  | mayStruct lib function => exact wellTagged_own_of_mem (fun _ => ownAddress_bin) h

-- The events after the loop over the getters.
def lateEvents (inp : Inputs) : List Event :=
  inp.structCallbackEvents ++ inp.globalEvents ++ inp.mayStructEvents

theorem events_eq : inp.events =
    (inp.call_dict.entries.flatMap fun e => inp.itemEvents e.1 e.2) ++ inp.lateEvents := by
  simp only [events, lateEvents, List.append_assoc]

theorem item_cases {item : Name} {info : CallInfo} {e : Event} (h : e ∈ inp.itemEvents item info) :
    (∃ library callee, e = .callee library callee) ∨ ∃ lib func, e = .redirect lib func := by
  unfold itemEvents calleeEvents redirectEvents structEvents at h
  rcases List.mem_append.mp h with h | h
  · rcases List.mem_append.mp h with h | h
    · split at h
      · obtain ⟨callee, -, rfl⟩ := List.mem_map.mp h
        exact .inl ⟨_, callee, rfl⟩
      · exact absurd h List.not_mem_nil
    · split at h
      · obtain ⟨func, -, rfl⟩ := List.mem_map.mp h
        exact .inr ⟨_, func, rfl⟩
      · exact absurd h List.not_mem_nil
  · split at h
    · obtain ⟨func, -, rfl⟩ := List.mem_map.mp h
      exact .inr ⟨_, func, rfl⟩
    · exact absurd h List.not_mem_nil

theorem mayStruct_of_mem {e : Event} (h : e ∈ inp.mayStructEvents) :
    ∃ lib function, e = .mayStruct lib function := by
  obtain ⟨p, -, h⟩ := List.mem_flatMap.mp h
  dsimp only at h
  split at h
  · exact absurd h List.not_mem_nil
  · obtain ⟨q, -, h⟩ := List.mem_flatMap.mp h
    unfold mayStructEventsOf at h
    split at h
    · exact absurd h List.not_mem_nil
    · split at h
      · obtain ⟨lib, -, h⟩ := List.mem_flatMap.mp h
        obtain ⟨function, -, rfl⟩ := List.mem_map.mp h
        exact ⟨_, function, rfl⟩
      · exact absurd h List.not_mem_nil

theorem late_cases {e : Event} (h : e ∈ inp.lateEvents) :
    (∃ dso fs function, (dso, fs) ∈ inp.struct_callbacks.entries ∧ function ∈ fs ∧
      e = .structCallback dso function) ∨ (∃ dso, e = .globalTable dso) ∨
    (∃ dso function, e = .globalSym dso function) ∨ ∃ lib function, e = .mayStruct lib function := by
  rcases List.mem_append.mp h with h | h
  · rcases List.mem_append.mp h with h | h
    · obtain ⟨p, hp, h⟩ := List.mem_flatMap.mp h
      obtain ⟨function, hf, rfl⟩ := List.mem_map.mp h
      exact .inl ⟨p.1, p.2, function, hp, hf, rfl⟩
    · obtain ⟨p, -, h⟩ := List.mem_flatMap.mp h
      rcases List.mem_cons.mp h with rfl | h
      · exact .inr (.inl ⟨_, rfl⟩)
      · obtain ⟨function, -, rfl⟩ := List.mem_map.mp h
        exact .inr (.inr (.inl ⟨_, function, rfl⟩))
  · exact .inr (.inr (.inr (mayStruct_of_mem h)))

theorem late_ready {e : Event} (h : e ∈ inp.lateEvents) (t : Tables) : inp.Ready t e := by
  rcases late_cases h with ⟨_, _, _, -, -, rfl⟩ | ⟨_, rfl⟩ | ⟨_, _, rfl⟩ | ⟨_, _, rfl⟩ <;> trivial

-- No late event makes a table anew, so that what one of them writes is there at the end.
theorem late_written {e : Event} {tag : Tag} {x : Entry} (hcheck : inp.check = some t)
    (he : e ∈ inp.lateEvents) (htarget : ∀ t, inp.target t e = some tag)
    (hx : ∀ t, x ∈ inp.written t e) : InTable t tag x := by
  rw [check, events_eq, State.trace_append] at hcheck
  obtain ⟨t₁, -, hlate⟩ := Option.bind_eq_some_iff.mp hcheck
  have hmeets : State.Meets inp.step inp.Ready t₁ inp.lateEvents := by
    intro pre e post s hsplit _
    exact late_ready (by rw [hsplit]; simp) s
  exact State.trace_achieves Tables.Le.refl (fun _ _ _ => Tables.Le.trans)
    (fun _ e _ => step_le e)
    (fun e' t => e' = e → InTable t tag x)
    (fun s e' s' _ hstep heq => by
      subst heq
      exact (step_effect e' hstep tag x).mpr (.inl ⟨htarget s, hx s⟩))
    (fun _ _ _ hle h heq => hle.inTable (h heq)) hmeets hlate he rfl

theorem mem_libEntries {dso : Tag} {function : Name} {x : Entry} :
    x ∈ inp.libEntries dso function ↔ ∃ p a, inp.firstLib function = some p ∧
      p.2.get? function = some a ∧ x = entry dso a := by
  unfold libEntries
  cases inp.firstLib function with
  | none => simp
  | some p => simp [eq_comm]

-- Every event of a run writes well-tagged entries if those of the struct callbacks are.
theorem inTable_wellTagged {tag : Tag} {x : Entry} (hcheck : inp.check = some t)
    (hforeign : ∀ e ∈ inp.events, ∀ x ∈ inp.foreign e, inp.WellTagged x)
    (h : InTable t tag x) : inp.WellTagged x := by
  have heffect := State.trace_effect (fun _ e _ hstep => step_effect e hstep tag x) hcheck
  rcases heffect.mp h with ⟨hempty, -⟩ | ⟨pre, e, post, s₁, s₂, hsplit, -, -, ⟨-, hx⟩, -⟩
  · exact absurd hempty (not_inTable_empty tag x)
  · exact wellTagged_written (hforeign e (by rw [hsplit]; simp)) hx

theorem structCallback_mem_late {dso : Tag} {fs : List Name} {function : Name}
    (hdso : (dso, fs) ∈ inp.struct_callbacks.entries) (hf : function ∈ fs) :
    .structCallback dso function ∈ inp.lateEvents := by
  refine List.mem_append_left _ (List.mem_append_left _ ?_)
  exact List.mem_flatMap.mpr ⟨(dso, fs), hdso, List.mem_map_of_mem hf⟩

theorem structCallback_of_mem {dso : Tag} {function : Name}
    (h : .structCallback dso function ∈ inp.events) :
    ∃ fs, (dso, fs) ∈ inp.struct_callbacks.entries ∧ function ∈ fs := by
  rw [events_eq] at h
  rcases List.mem_append.mp h with h | h
  · obtain ⟨p, -, h⟩ := List.mem_flatMap.mp h
    rcases item_cases h with ⟨_, _, h⟩ | ⟨_, _, h⟩ <;> cases h
  · rcases late_cases h with ⟨_, fs, _, hdso, hf, h⟩ | ⟨_, h⟩ | ⟨_, _, h⟩ | ⟨_, _, h⟩
    · cases h
      exact ⟨fs, hdso, hf⟩
    · cases h
    · cases h
    · cases h

-- The tables are well tagged exactly if every callback that a table takes from a library is
-- at an offset that belongs to the tag of the table.
theorem check_wellTagged_iff (inp : Inputs) (t : Tables) (hcheck : inp.check = some t) :
    (∀ tag x, InTable t tag x → inp.WellTagged x) ↔
    ∀ dso fs function lib symbols a, (dso, fs) ∈ inp.struct_callbacks.entries → function ∈ fs →
      inp.plt_addrs.get? function = none → inp.firstLib function = some (lib, symbols) →
      symbols.get? function = some a →
      dso = inp.name ∧ inp.OwnAddress a ∨ inp.LibraryOffset dso a := by
  constructor
  · intro htagged dso fs function lib symbols a hdso hf hplt hlib ha
    have hx : entry dso a ∈ inp.libEntries dso function :=
      mem_libEntries.mpr ⟨_, a, hlib, ha, rfl⟩
    have hwritten : ∀ t, entry dso a ∈ inp.written t (.structCallback dso function) := by
      intro t
      simp only [written, hplt]
      exact List.mem_append_left _ hx
    have hin := late_written hcheck (structCallback_mem_late hdso hf) (fun _ => rfl) hwritten
    exact wellTagged_entry.mp (htagged dso _ hin)
  · intro hoffsets tag x
    refine inTable_wellTagged hcheck fun e he x hx => ?_
    cases e with
    | structCallback dso function =>
      simp only [foreign] at hx
      split at hx
      · obtain ⟨fs, hdso, hf⟩ := structCallback_of_mem he
        obtain ⟨p, a, hlib, ha, rfl⟩ := mem_libEntries.mp hx
        exact wellTagged_entry.mpr (hoffsets dso fs function p.1 p.2 a hdso hf ‹_› hlib ha)
      · exact absurd hx List.not_mem_nil
    | _ => exact absurd hx List.not_mem_nil

end Inputs

-- The module libb stores a function of its own in a struct that `dso` can reach.
theorem callbackLibs_nodup :
    ([("libb.so".toList, "LIBB".toList), ("liba.so".toList, "LIBA".toList)].map Prod.fst).Nodup := by
  decide

theorem callbackSort_nodup : ([("sort_a".toList, hex 0x3000)].map Prod.fst).Nodup := by
  decide

def callbackInputs (dso : Tag) : Inputs where
  name := "LIBB".toList
  lib_json := ⟨[("libb.so".toList, "LIBB".toList), ("liba.so".toList, "LIBA".toList)],
    callbackLibs_nodup⟩
  lib_dict := ⟨[
    ("libb.so".toList, ⟨[("cmp_b".toList, hex 0x2100)], by decide⟩),
    ("liba.so".toList, ⟨[("sort_a".toList, hex 0x3000)], callbackSort_nodup⟩)], by decide⟩
  call_dict := .empty
  bin := binParse [⟨0x2100, "cmp_b".toList⟩]
  plt_addrs := .empty
  CPTR_REDIRECTION_TO_EXTERNAL := []
  STRUCTS_USED_BY_CBGs := .empty
  struct_callbacks := ⟨[(dso, ["cmp_b".toList])], by simp⟩
  global_syms := .empty
  struct_metadata := .empty
  locals_from_structs := .empty

def ownTables : Tables :=
  ⟨[("LIBB".toList, [entry "LIBB".toList (hex 0x2100), entry "LIBB".toList (hex 0x2100)])], by decide⟩

theorem mem_callbackInputs {dso dso' : Tag} {fs : List Name} {function : Name}
    (hdso : (dso', fs) ∈ (callbackInputs dso).struct_callbacks.entries) (hf : function ∈ fs) :
    dso' = dso ∧ function = "cmp_b".toList := by
  obtain ⟨rfl, rfl⟩ := Prod.mk.inj (List.mem_singleton.mp hdso)
  exact ⟨rfl, List.mem_singleton.mp hf⟩

theorem check_wellTagged_ownCallback :
    (callbackInputs "LIBB".toList).check = some ownTables ∧
      (callbackInputs "LIBB".toList).WellTagged (entry "LIBB".toList (hex 0x2100)) := by
  refine ⟨rfl, (Inputs.check_wellTagged_iff _ ownTables rfl).mpr ?_ "LIBB".toList _
    ⟨_, rfl, List.mem_cons_self⟩⟩
  intro dso fs function lib symbols a hdso hf _ hlib ha
  obtain ⟨rfl, rfl⟩ := mem_callbackInputs hdso hf
  cases hlib
  cases ha
  exact .inl ⟨rfl, "cmp_b".toList, .inl rfl⟩

-- The table of LIBA takes the offset in libb for one in liba.
theorem foreignCallback_not_wellTagged :
    ∃ t, (callbackInputs "LIBA".toList).check = some t ∧
      InTable t "LIBA".toList (entry "LIBA".toList (hex 0x2100)) ∧
      ¬(callbackInputs "LIBA".toList).WellTagged (entry "LIBA".toList (hex 0x2100)) := by
  refine ⟨_, rfl, ⟨_, rfl, List.mem_cons_self⟩, ?_⟩
  rw [Inputs.wellTagged_entry]
  rintro (⟨hname, -⟩ | ⟨e, he, htag, function, hget, -⟩)
  · exact absurd hname (by decide)
  · have hcases : e = ("libb.so".toList, ⟨[("cmp_b".toList, hex 0x2100)], by decide⟩) ∨
        e = ("liba.so".toList, ⟨[("sort_a".toList, hex 0x3000)], by decide⟩) := by
      simpa [callbackInputs] using he
    rcases hcases with rfl | rfl
    · exact absurd htag (by decide)
    · simp only [Dict.get?, Dict.find] at hget
      split at hget
      · exact absurd hget (by decide)
      · cases hget

end Platypus.Parser
