import Platypus.Parser.Grow

namespace Platypus.Parser

namespace Inputs

variable (inp : Inputs)

-- The addresses under which a callee may be called back: its PLT stub if a library exports it,
-- and all its addresses in the binary if not.
def addressesOf (callee : Name) : List Address :=
  match inp.firstLib callee with
  | some _ => (inp.plt_addrs.get? callee).toList
  | none => (inp.bin.symbols.get? callee).toList ++
      (inp.bin.duplicate_locals.get? callee).getD [] ++ (inp.suffixed callee).map Prod.snd

-- The table of a library has an address of the analysed module.
def Has (library : Path) (t : Tables) (a : Address) : Prop :=
  ∃ tag, inp.tag library = some tag ∧ InTable t tag (entry inp.name a)

-- The callee's addresses are in the table of the getter's library.
def Covers (library : Path) (callee : Name) (t : Tables) : Prop :=
  ∀ a ∈ inp.addressesOf callee, inp.Has library t a

-- The state in which the table of a getter's library takes its callee. For an exported callee:
-- the table exists already, or has the tag of the callee's own library. For a local one: the
-- binary has it under its own name, or all that it has is in the table.
def Ready (t : Tables) : Event → Prop
  | .callee library callee =>
    match inp.firstLib callee with
    | some (lib, _) =>
      (∃ tag ∈ t.keys, inp.tag library = some tag) ∨ inp.tag lib = inp.tag library
    | none => callee ∈ inp.bin.symbols.keys ∨ ∀ e ∈ inp.suffixed callee, inp.Has library t e.2
  | _ => True

variable {inp} {t t' : Tables}

theorem addExported_adds {library lib : Path} {callee : Name}
    (hready : (∃ tag ∈ t.keys, inp.tag library = some tag) ∨ inp.tag lib = inp.tag library)
    (h : inp.addExported t library lib callee = some t') :
    ∃ a tag, inp.plt_addrs.get? callee = some a ∧ inp.tag library = some tag ∧
      Adds t t' tag (entry inp.name a) := by
  obtain ⟨a, ha, h⟩ := Option.bind_eq_some_iff.mp h
  obtain ⟨tag, htag, h⟩ := Option.bind_eq_some_iff.mp h
  refine ⟨a, tag, ha, htag, ?_⟩
  split at h
  · exact appendNew_adds h
  · rename_i hmem
    obtain ⟨tagLib, htagLib, h⟩ := Option.bind_eq_some_iff.mp h
    have hlib : inp.tag lib = inp.tag library := by
      refine hready.resolve_left ?_
      rintro ⟨tag', hkeys, htag'⟩
      rw [htag, Option.some_inj] at htag'
      exact hmem (htag' ▸ hkeys)
    obtain rfl : tagLib = tag := by
      rw [hlib, htag, Option.some_inj] at htagLib
      exact htagLib.symm
    obtain rfl := Option.some_inj.mp h
    have hnone : t.get? tagLib = none := t.get?_eq_none_iff.mpr hmem
    exact ⟨.set_new hnone, inTable_set (by simp)⟩

theorem addLocal_adds {library : Path} {callee : Name} {a : Address}
    (h : inp.addLocal t library callee a = some t') :
    ∃ tag, inp.tag library = some tag ∧ t.Le t' ∧ InTable t' tag (entry inp.name a) ∧
      (∀ a ∈ (inp.bin.duplicate_locals.get? callee).getD [], InTable t' tag (entry inp.name a)) ∧
      ∀ e ∈ inp.suffixed callee, InTable t' tag (entry inp.name e.2) := by
  obtain ⟨tag, htag, h⟩ := Option.bind_eq_some_iff.mp h
  have hown := addUnlessText_adds t tag a.text (entry inp.name a) a.plain
  obtain ⟨t₂, hdup, hsuf⟩ := Option.bind_eq_some_iff.mp h
  unfold addDuplicates at hdup
  unfold addSuffixed at hsuf
  obtain ⟨hle₂, hdups⟩ := trace_adds (fun a => entry inp.name a) (fun _ _ _ => append_adds) hdup
  obtain ⟨hle₃, hsufs⟩ := trace_adds (fun e : Name × Address => entry inp.name e.2)
    (fun _ _ _ => appendNew_adds) hsuf
  exact ⟨tag, htag, hown.le.trans (hle₂.trans hle₃), (hle₂.trans hle₃).inTable hown.mem,
    fun a ha => hle₃.inTable (hdups a ha), hsufs⟩

theorem addCallee_covers {library : Path} {callee : Name}
    (hready : inp.Ready t (.callee library callee))
    (h : inp.addCallee t library callee = some t') :
    t.Le t' ∧ inp.Covers library callee t' ∧
      (inp.firstLib callee ≠ none → inp.addressesOf callee ≠ []) := by
  unfold addCallee at h
  unfold Ready at hready
  unfold Covers addressesOf
  cases hlib : inp.firstLib callee with
  | some p =>
    simp only [hlib] at h hready ⊢
    obtain ⟨a, tag, ha, htag, hadds⟩ := addExported_adds hready h
    refine ⟨hadds.le, fun a' ha' => ⟨tag, htag, ?_⟩, fun _ => by simp [ha]⟩
    obtain rfl : a' = a := by simpa [ha] using ha'
    exact hadds.mem
  | none =>
    simp only [hlib] at h hready ⊢
    cases hbin : inp.bin.symbols.get? callee with
    | some a =>
      simp only [hbin] at h ⊢
      obtain ⟨tag, htag, hle, hown, hdups, hsufs⟩ := addLocal_adds h
      refine ⟨hle, fun a' ha' => ⟨tag, htag, ?_⟩, fun hne => absurd rfl hne⟩
      simp only [Option.toList_some, List.mem_append, List.mem_singleton, List.mem_map] at ha'
      rcases ha' with (rfl | ha') | ⟨e, he, rfl⟩
      · exact hown
      · exact hdups a' ha'
      · exact hsufs e he
    | none =>
      simp only [hbin, Option.some_inj] at h ⊢
      subst h
      -- A name that the binary does not have has no duplicates either.
      have hkeys := inp.bin.symbols.get?_eq_none_iff.mp hbin
      have hdups : inp.bin.duplicate_locals.get? callee = none :=
        (Dict.get?_eq_none_iff _).mpr fun hmem => hkeys (inp.bin.first callee hmem)
      refine ⟨.refl _, fun a ha => ?_, fun hne => absurd rfl hne⟩
      obtain ⟨e, he, rfl⟩ : ∃ e ∈ inp.suffixed callee, e.2 = a := by simpa [hdups] using ha
      exact hready.resolve_left hkeys e he

theorem ready_of_addExported {library lib : Path} {callee : Name} {a : Address}
    (ha : inp.plt_addrs.get? callee = some a)
    (h : inp.addExported t library lib callee = some t') (hhas : inp.Has library t' a) :
    (∃ tag ∈ t.keys, inp.tag library = some tag) ∨ inp.tag lib = inp.tag library := by
  obtain ⟨tag, htag, es, hes, -⟩ := hhas
  by_cases hmem : tag ∈ t.keys
  · exact .inl ⟨tag, hmem, htag⟩
  · right
    simp only [addExported, ha, htag, Option.bind_eq_bind, Option.bind_some, if_neg hmem] at h
    obtain ⟨tagLib, htagLib, h⟩ := Option.bind_eq_some_iff.mp h
    obtain rfl := Option.some_inj.mp h
    by_contra hne
    have htags : tag ≠ tagLib := by
      rintro rfl
      exact hne (htagLib.trans htag.symm)
    rw [t.get?_set_of_ne _ htags, t.get?_eq_none_iff.mpr hmem] at hes
    cases hes

-- Ready is what it takes: in any other state the event leaves an address out.
theorem ready_iff_covers {library : Path} {callee : Name}
    (h : inp.addCallee t library callee = some t') :
    inp.Ready t (.callee library callee) ↔ inp.Covers library callee t' := by
  refine ⟨fun hready => (addCallee_covers hready h).2.1, fun hcovers => ?_⟩
  unfold addCallee at h
  unfold Ready
  unfold Covers addressesOf at hcovers
  cases hlib : inp.firstLib callee with
  | some p =>
    simp only [hlib] at h hcovers ⊢
    obtain ⟨a, ha, -⟩ := Option.bind_eq_some_iff.mp h
    exact ready_of_addExported ha h (hcovers a (by simp [ha]))
  | none =>
    simp only [hlib] at h hcovers ⊢
    by_cases hmem : callee ∈ inp.bin.symbols.keys
    · exact .inl hmem
    · rw [(Dict.get?_eq_none_iff _).mpr hmem, Option.some_inj] at h
      subst h
      exact .inr fun e he =>
        hcovers e.2 (List.mem_append_right _ (List.mem_map_of_mem he))

theorem addStructCallback_le (t : Tables) (dso : Tag) (function : Name) :
    t.Le (inp.addStructCallback t dso function) := by
  have hlib : ∀ t : Tables, t.Le (inp.addLibCallback t dso function) := by
    intro t
    unfold addLibCallback
    split
    · split
      · exact (addOrCreate_adds _ _ _).le
      · exact .refl _
    · exact .refl _
  have hbin : ∀ t : Tables, t.Le (inp.addBinCallback t dso function) := by
    intro t
    unfold addBinCallback
    split
    · exact addUnlessText_le _ _ _ _
    · exact .refl _
  unfold addStructCallback
  split
  · unfold addPltCallback
    dsimp only
    split
    · split
      · exact .refl _
      · exact .set_append ‹_›
    · exact .set_new ‹_›
  · exact (hlib t).trans (hbin _)

theorem addMayStruct_le {lib : Path} {function : Name} (h : inp.addMayStruct t lib function = some t') :
    t.Le t' := by
  have hunsupported : ∀ t'' : Tables,
      (if function ∈ inp.call_dict.keys then none else some t) = some t'' → t.Le t'' := by
    intro t'' h
    split at h
    · cases h
    · exact Option.some_inj.mp h ▸ .refl _
  unfold addMayStruct at h
  dsimp only at h
  split at h
  · exact hunsupported t' h
  · obtain ⟨tag, htag, h⟩ := Option.bind_eq_some_iff.mp h
    obtain ⟨es, hes, h⟩ := Option.bind_eq_some_iff.mp h
    split at h
    · exact hunsupported t' h
    · exact (append_adds h).le

theorem step_le (e : Event) (hready : inp.Ready t e) (h : inp.step t e = some t') : t.Le t' := by
  cases e with
  | callee library callee => exact (addCallee_covers hready h).1
  | redirect lib func =>
    simp only [step, addRedirected] at h
    split at h
    · exact Option.some_inj.mp h ▸ .refl _
    · obtain ⟨l, hl, h⟩ := Option.bind_eq_some_iff.mp h
      obtain ⟨tag, htag, h⟩ := Option.bind_eq_some_iff.mp h
      exact Option.some_inj.mp h ▸ (addOrCreate_adds _ _ _).le
  | structCallback dso function => exact Option.some_inj.mp h ▸ addStructCallback_le t dso function
  | globalTable dso =>
    refine Option.some_inj.mp h ▸ ?_
    unfold addGlobalTable
    split
    · exact .refl _
    · exact .set_new (t.get?_eq_none_iff.mpr ‹_›)
  | globalSym dso function =>
    simp only [step, addGlobalSym] at h
    split at h
    · exact Option.some_inj.mp h ▸ .refl _
    · exact (appendNew_adds h).le
  | mayStruct lib function => exact addMayStruct_le h

-- What a callee's event leaves behind.
def Done (inp : Inputs) : Event → Tables → Prop
  | .callee library callee, t =>
    inp.Covers library callee t ∧ (inp.firstLib callee ≠ none → inp.addressesOf callee ≠ [])
  | _, _ => True

theorem step_done (e : Event) (hready : inp.Ready t e) (h : inp.step t e = some t') :
    inp.Done e t' := by
  cases e with
  | callee library callee => exact (addCallee_covers hready h).2
  | _ => trivial

theorem Done.mono (e : Event) (hle : t.Le t') (h : inp.Done e t) : inp.Done e t' := by
  cases e with
  | callee library callee =>
    refine ⟨fun a ha => ?_, h.2⟩
    obtain ⟨tag, htag, hmem⟩ := h.1 a ha
    exact ⟨tag, htag, hle.inTable hmem⟩
  | _ => trivial

theorem callee_mem_events {item callee : Name} {info : CallInfo} {library : Path}
    {symbols : Dict Name Address} (hitem : (item, info) ∈ inp.call_dict.entries)
    (hlib : inp.firstLib item = some (library, symbols)) (hcallee : callee ∈ info.callees) :
    .callee library callee ∈ inp.events := by
  have hevent : Event.callee library callee ∈ inp.calleeEvents item info := by
    rw [calleeEvents, hlib]
    exact List.mem_map_of_mem hcallee
  have hitems : Event.callee library callee ∈
      inp.call_dict.entries.flatMap fun e => inp.itemEvents e.1 e.2 :=
    List.mem_flatMap.mpr ⟨_, hitem, List.mem_append_left _ (List.mem_append_left _ hevent)⟩
  exact List.mem_append_left _ (List.mem_append_left _ (List.mem_append_left _ hitems))

-- A run of `check` in which every callee finds the state ready puts each callee of a getter into
-- the table of the getter's library, and no table loses an entry on the way.
theorem check_covers_callees (inp : Inputs) (t : Tables) (hcheck : inp.check = some t)
    (hready : State.Meets inp.step inp.Ready .empty inp.events) :
    (∀ item info library symbols callee, (item, info) ∈ inp.call_dict.entries →
      inp.firstLib item = some (library, symbols) → callee ∈ info.callees →
      inp.Covers library callee t ∧
        (inp.firstLib callee ≠ none → inp.addressesOf callee ≠ [])) ∧
    ∀ pre post t', inp.events = pre ++ post → State.trace inp.step .empty pre = some t' →
      t'.Le t := by
  have htrans : ∀ t₁ t₂ t₃ : Tables, t₁.Le t₂ → t₂.Le t₃ → t₁.Le t₃ := fun _ _ _ => .trans
  have hle : ∀ t e t', inp.Ready t e → inp.step t e = some t' → t.Le t' :=
    fun _ e _ => step_le e
  constructor
  · intro item info library symbols callee hitem hlib hcallee
    exact State.trace_achieves Tables.Le.refl htrans hle inp.Done (fun _ e _ => step_done e)
      (fun e _ _ => Done.mono e) hready hcheck (callee_mem_events hitem hlib hcallee)
  · intro pre post t' hevents hpre
    rw [check, hevents] at hcheck
    rw [hevents] at hready
    exact State.trace_prefix_le Tables.Le.refl htrans hle hready hpre hcheck

end Inputs

-- A getter of libb with a callee of the binary, and a getter of liba with a callee of libb.
def demoInputs (call_dict : Dict Name CallInfo) : Inputs where
  name := "BIN".toList
  lib_json := ⟨[("libb.so".toList, "LIBB".toList), ("liba.so".toList, "LIBA".toList)], by decide⟩
  lib_dict := ⟨[
    ("libb.so".toList, ⟨[("sort_b".toList, hex 0x2000), ("cmp_b".toList, hex 0x2100)], by decide⟩),
    ("liba.so".toList, ⟨[("sort_a".toList, hex 0x3000)], by decide⟩)], by decide⟩
  call_dict := call_dict
  bin := binParse [⟨0x1139, "cmp_bin".toList⟩]
  plt_addrs := ⟨[("cmp_b".toList, hex 0x1020)], by decide⟩
  CPTR_REDIRECTION_TO_EXTERNAL := []
  STRUCTS_USED_BY_CBGs := .empty
  struct_callbacks := .empty
  global_syms := .empty
  struct_metadata := .empty
  locals_from_structs := .empty

def demoCalls : Inputs :=
  demoInputs ⟨[("sort_b".toList, ⟨["cmp_bin".toList, "cmp_b".toList], []⟩)], by decide⟩

def demoTables : Tables :=
  ⟨[("LIBB".toList, [entry "BIN".toList (hex 0x1139), entry "BIN".toList (hex 0x1020)])], by decide⟩

theorem check_covers_demoCalls : demoCalls.Covers "libb.so".toList "cmp_b".toList demoTables :=
  ((Inputs.check_covers_callees demoCalls demoTables rfl
    (.cons (.inl (by decide)) fun t h => .cons
      (.inl ⟨"LIBB".toList, by cases h; decide, rfl⟩) fun _ _ => .nil _)).1
    "sort_b".toList _ "libb.so".toList _ "cmp_b".toList List.mem_cons_self rfl (by decide)).1

def strayCalls : Inputs :=
  demoInputs ⟨[("sort_b".toList, ⟨["cmp_bin".toList], []⟩),
    ("sort_a".toList, ⟨["cmp_b".toList], []⟩)], by decide⟩

-- The table of LIBA does not exist yet, so that its callee overwrites the table of LIBB.
theorem strayCalls_loses_entry :
    ∃ t₁ t, State.trace strayCalls.step .empty [.callee "libb.so".toList "cmp_bin".toList] = some t₁ ∧
      strayCalls.check = some t ∧ strayCalls.firstLib "sort_a".toList ≠ none ∧
      InTable t₁ "LIBB".toList (entry "BIN".toList (hex 0x1139)) ∧
      ¬InTable t "LIBB".toList (entry "BIN".toList (hex 0x1139)) ∧
      ¬strayCalls.Covers "liba.so".toList "cmp_b".toList t := by
  refine ⟨_, _, rfl, rfl, by decide, ⟨_, rfl, by decide⟩, ?_, ?_⟩
  · rintro ⟨es, hes, hmem⟩
    cases hes
    exact absurd hmem (by decide)
  · intro hcovers
    obtain ⟨tag, htag, es, hes, -⟩ := hcovers (hex 0x1020) (by decide)
    cases htag
    cases hes

end Platypus.Parser
