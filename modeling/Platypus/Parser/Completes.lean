import Platypus.Parser.Tagged

namespace Platypus.Parser

namespace Tables

variable {t : Tables} {tag : Tag}

theorem get?_of_mem_keys (h : tag ∈ t.keys) : ∃ es, t.get? tag = some es := by
  by_contra hnone
  refine absurd h (t.get?_eq_none_iff.mp ?_)
  exact Option.eq_none_iff_forall_ne_some.mpr fun es hes => hnone ⟨es, hes⟩

theorem append_of_mem (h : tag ∈ t.keys) (e : Entry) :
    ∃ t', t.append tag e = some t' ∧ tag ∈ t'.keys := by
  obtain ⟨es, hes⟩ := get?_of_mem_keys h
  refine ⟨t.set tag (es ++ [e]), ?_, (t.mem_keys_set _ _ _).mpr (.inl rfl)⟩
  rw [append, hes]
  rfl

theorem appendNew_of_mem (h : tag ∈ t.keys) (e : Entry) :
    ∃ t', t.appendNew tag e = some t' ∧ tag ∈ t'.keys := by
  obtain ⟨es, hes⟩ := get?_of_mem_keys h
  rw [appendNew, hes, Option.map_some]
  by_cases he : e ∈ es
  · exact ⟨t, by rw [if_pos he], h⟩
  · exact ⟨_, by rw [if_neg he], (t.mem_keys_set _ _ _).mpr (.inl rfl)⟩

theorem mem_keys_addUnlessText (t : Tables) (tag : Tag) (guard : Name) (e : Entry) :
    tag ∈ (t.addUnlessText tag guard e).keys := by
  unfold addUnlessText
  split
  · exact (t.mem_keys_set _ _ _).mpr (.inl rfl)
  · split
    · exact Dict.mem_keys_of_get? _ ‹_›
    · exact (t.mem_keys_set _ _ _).mpr (.inl rfl)

end Tables

namespace Inputs

variable {inp : Inputs} {t : Tables}

-- The tags come from the same file as the list of the libraries.
def LibsTagged (inp : Inputs) : Prop := ∀ e ∈ inp.lib_dict.entries, (inp.tag e.1).isSome

instance decidableLibsTagged (inp : Inputs) : Decidable inp.LibsTagged :=
  inferInstanceAs (Decidable (∀ e ∈ inp.lib_dict.entries, (inp.tag e.1).isSome))

theorem firstLib_mem {sym : Name} {p : Path × Dict Name Address} (h : inp.firstLib sym = some p) :
    p ∈ inp.lib_dict.entries := List.mem_of_find?_eq_some h

theorem addDuplicates_of_mem (inp : Inputs) {tag : Tag} (h : tag ∈ t.keys) (callee : Name) :
    ∃ t', inp.addDuplicates t tag callee = some t' ∧ tag ∈ t'.keys :=
  State.trace_total (fun a _ _ ht => Tables.append_of_mem ht (entry inp.name a)) h

theorem addSuffixed_of_mem (inp : Inputs) {tag : Tag} (h : tag ∈ t.keys) (callee : Name) :
    ∃ t', inp.addSuffixed t tag callee = some t' ∧ tag ∈ t'.keys :=
  State.trace_total (fun e _ _ ht => Tables.appendNew_of_mem ht (entry inp.name e.2)) h

theorem addLocal_isSome {library : Path} {tag : Tag} (htag : inp.tag library = some tag)
    (callee : Name) (a : Address) : (inp.addLocal t library callee a).isSome := by
  have hkey := Tables.mem_keys_addUnlessText t tag a.text (entry inp.name a)
  obtain ⟨t₁, h₁, hkey₁⟩ := inp.addDuplicates_of_mem hkey callee
  obtain ⟨t₂, h₂, -⟩ := inp.addSuffixed_of_mem hkey₁ callee
  simp [addLocal, htag, h₁, h₂]

theorem addExported_isSome {library lib : Path} {tag tagLib : Tag}
    (htag : inp.tag library = some tag) (htagLib : inp.tag lib = some tagLib) (callee : Name) :
    (inp.addExported t library lib callee).isSome ↔ callee ∈ inp.plt_addrs.keys := by
  by_cases hplt : callee ∈ inp.plt_addrs.keys
  · refine iff_of_true ?_ hplt
    cases ha : inp.plt_addrs.get? callee with
    | none => exact absurd hplt (inp.plt_addrs.get?_eq_none_iff.mp ha)
    | some a =>
      by_cases hkey : tag ∈ t.keys
      · obtain ⟨t', ht', -⟩ := Tables.appendNew_of_mem hkey (entry inp.name a)
        simp [addExported, ha, htag, hkey, ht']
      · simp [addExported, ha, htag, htagLib, hkey]
  · refine iff_of_false ?_ hplt
    simp [addExported, inp.plt_addrs.get?_eq_none_iff.mpr hplt]

-- The keys that an event of the first loop reads without looking.
def KeysKnown (inp : Inputs) : Event → Prop
  | .callee _ callee => (inp.firstLib callee).isSome → callee ∈ inp.plt_addrs.keys
  | .redirect lib func => func ∈ inp.bin.symbols.keys → (lib.bind inp.tag).isSome
  | _ => True

instance decidableKeysKnown (inp : Inputs) : ∀ e, Decidable (inp.KeysKnown e)
  | .callee _ callee => inferInstanceAs
      (Decidable ((inp.firstLib callee).isSome → callee ∈ inp.plt_addrs.keys))
  | .redirect lib func => inferInstanceAs
      (Decidable (func ∈ inp.bin.symbols.keys → (lib.bind inp.tag).isSome))
  | .structCallback _ _ => inferInstanceAs (Decidable True)
  | .globalTable _ => inferInstanceAs (Decidable True)
  | .globalSym _ _ => inferInstanceAs (Decidable True)
  | .mayStruct _ _ => inferInstanceAs (Decidable True)

theorem callee_isSome (hlibs : inp.LibsTagged) {library : Path} {tag : Tag}
    (htag : inp.tag library = some tag) (callee : Name) :
    (inp.step t (.callee library callee)).isSome ↔ inp.KeysKnown (.callee library callee) := by
  simp only [step, addCallee, KeysKnown]
  cases hlib : inp.firstLib callee with
  | some p =>
    obtain ⟨tagLib, htagLib⟩ := Option.isSome_iff_exists.mp (hlibs p (firstLib_mem hlib))
    exact (addExported_isSome htag htagLib callee).trans (by simp)
  | none =>
    refine iff_of_true ?_ (by simp)
    dsimp only
    split
    · exact addLocal_isSome htag callee _
    · rfl

theorem redirect_isSome (lib : Option Path) (func : Name) :
    (inp.step t (.redirect lib func)).isSome ↔ inp.KeysKnown (.redirect lib func) := by
  simp only [step, addRedirected, KeysKnown]
  cases ha : inp.bin.symbols.get? func with
  | none =>
    have hnot := inp.bin.symbols.get?_eq_none_iff.mp ha
    simp [hnot]
  | some a =>
    have hmem := inp.bin.symbols.mem_keys_of_get? ha
    cases lib with
    | none => simp [hmem]
    | some l => cases htag : inp.tag l <;> simp [hmem, htag]

-- A function that may be stored in a struct: its table must exist, and it must not be a getter
-- unless it is new in its table.
structure Supported (inp : Inputs) (t : Tables) (lib : Path) (function : Name) : Prop where
  table : function ∈ inp.bin.symbols.keys → ∃ tag ∈ t.keys, inp.tag lib = some tag
  fresh : function ∈ inp.call_dict.keys → ∃ a, inp.bin.symbols.get? function = some a ∧
    ∀ tag, inp.tag lib = some tag → ¬InTable t tag (entry inp.name a)

theorem mayStruct_isSome (lib : Path) (function : Name) :
    (inp.step t (.mayStruct lib function)).isSome ↔ inp.Supported t lib function := by
  simp only [step, addMayStruct]
  cases ha : inp.bin.symbols.get? function with
  | none =>
    have hnot := inp.bin.symbols.get?_eq_none_iff.mp ha
    by_cases hgetter : function ∈ inp.call_dict.keys
    · refine iff_of_false (by simp [hgetter]) fun h => ?_
      obtain ⟨a, ha', -⟩ := h.fresh hgetter
      rw [ha] at ha'
      cases ha'
    · refine iff_of_true (by simp [hgetter]) ⟨fun h => absurd h hnot, fun h => absurd h hgetter⟩
  | some a =>
    have hmem := inp.bin.symbols.mem_keys_of_get? ha
    cases htag : inp.tag lib with
    | none =>
      refine iff_of_false (by simp) fun h => ?_
      obtain ⟨tag, -, htag'⟩ := h.table hmem
      rw [htag] at htag'
      cases htag'
    | some tag =>
      cases hes : t.get? tag with
      | none =>
        refine iff_of_false (by simp [hes]) fun h => ?_
        obtain ⟨tag', hkey, htag'⟩ := h.table hmem
        rw [htag, Option.some_inj] at htag'
        exact t.get?_eq_none_iff.mp hes (htag' ▸ hkey)
      | some es =>
        have hkey := t.mem_keys_of_get? hes
        have hin : InTable t tag (entry inp.name a) ↔ entry inp.name a ∈ es := by
          simp [InTable, hes]
        obtain ⟨t', ht', -⟩ := Tables.append_of_mem hkey (entry inp.name a)
        by_cases hnew : entry inp.name a ∈ es
        · simp only [hes, Option.bind_eq_bind, Option.bind_some, if_pos hnew]
          by_cases hgetter : function ∈ inp.call_dict.keys
          · refine iff_of_false (by simp [hgetter]) fun h => ?_
            obtain ⟨a', ha', hfresh⟩ := h.fresh hgetter
            rw [ha, Option.some_inj] at ha'
            exact hfresh tag htag (ha' ▸ hin.mpr hnew)
          · refine iff_of_true (by simp [hgetter]) ⟨fun _ => ⟨tag, hkey, htag⟩, ?_⟩
            exact fun h => absurd h hgetter
        · refine iff_of_true (by simp [hes, hnew, ht']) ⟨fun _ => ⟨tag, hkey, htag⟩, ?_⟩
          intro _
          refine ⟨a, ha, fun tag' htag' => ?_⟩
          rw [htag, Option.some_inj] at htag'
          exact fun h => hnew (hin.mp (htag' ▸ h))

theorem addGlobalTable_mem (t : Tables) (dso : Tag) : dso ∈ (addGlobalTable t dso).keys := by
  unfold addGlobalTable
  split
  · exact ‹_›
  · exact (t.mem_keys_set _ _ _).mpr (.inl rfl)

theorem globalSym_of_mem {dso : Tag} (h : dso ∈ t.keys) (function : Name) :
    ∃ t', inp.step t (.globalSym dso function) = some t' ∧ dso ∈ t'.keys := by
  simp only [step, addGlobalSym]
  split
  · exact ⟨t, rfl, h⟩
  · exact Tables.appendNew_of_mem h _

theorem globalSyms_of_mem (inp : Inputs) {dso : Tag} (h : dso ∈ t.keys) (fs : List Name) :
    ∃ t', State.trace inp.step t (fs.map (.globalSym dso)) = some t' ∧ dso ∈ t'.keys := by
  refine State.trace_total (fun e he t ht => ?_) h
  obtain ⟨function, -, rfl⟩ := List.mem_map.mp he
  exact globalSym_of_mem ht function

-- The loops over the structs and the globals always succeed.
theorem structCallbacks_total (inp : Inputs) (t : Tables) :
    (State.trace inp.step t inp.structCallbackEvents).isSome := by
  have hready : ∀ e ∈ inp.structCallbackEvents, ∀ t, (inp.step t e).isSome ↔ True := by
    intro e he t
    obtain ⟨p, -, he⟩ := List.mem_flatMap.mp he
    obtain ⟨function, -, rfl⟩ := List.mem_map.mp he
    exact iff_of_true rfl trivial
  exact (State.trace_isSome_iff_forall hready t).mpr fun _ _ => trivial

theorem globals_total (inp : Inputs) (t : Tables) :
    (State.trace inp.step t inp.globalEvents).isSome := by
  unfold globalEvents
  induction inp.global_syms.entries generalizing t with
  | nil => rfl
  | cons p ps ih =>
    obtain ⟨t', ht', -⟩ := inp.globalSyms_of_mem (addGlobalTable_mem t p.1) p.2
    rw [List.flatMap_cons, List.cons_append, State.trace]
    simp only [step, Option.bind_some]
    rw [State.trace_append, ht', Option.bind_some]
    exact ih t'

-- What the tables have been through before the functions that may be stored in structs.
def earlyEvents (inp : Inputs) : List Event :=
  (inp.call_dict.entries.flatMap fun e => inp.itemEvents e.1 e.2) ++
    inp.structCallbackEvents ++ inp.globalEvents

def ItemsKnown (inp : Inputs) : Prop :=
  ∀ p ∈ inp.call_dict.entries, ∀ e ∈ inp.itemEvents p.1 p.2, inp.KeysKnown e

instance decidableItemsKnown (inp : Inputs) : Decidable inp.ItemsKnown :=
  inferInstanceAs (Decidable (∀ p ∈ inp.call_dict.entries, ∀ e ∈ inp.itemEvents p.1 p.2,
    inp.KeysKnown e))

theorem itemEvent_isSome (hlibs : inp.LibsTagged) {item : Name} {info : CallInfo} {e : Event}
    (he : e ∈ inp.itemEvents item info) (t : Tables) :
    (inp.step t e).isSome ↔ inp.KeysKnown e := by
  rcases item_cases he with ⟨library, callee, rfl⟩ | ⟨lib, func, rfl⟩
  · -- the library is the one in which the getter was found
    have hlibrary : ∃ symbols, inp.firstLib item = some (library, symbols) := by
      unfold itemEvents calleeEvents redirectEvents structEvents at he
      rw [List.mem_append, List.mem_append] at he
      rcases he with (he | he) | he
      · split at he
        · obtain ⟨_, -, heq⟩ := List.mem_map.mp he
          obtain ⟨rfl, -⟩ := Event.callee.inj heq
          exact ⟨_, ‹_›⟩
        · exact absurd he List.not_mem_nil
      · split at he
        · obtain ⟨_, -, heq⟩ := List.mem_map.mp he
          cases heq
        · exact absurd he List.not_mem_nil
      · split at he
        · obtain ⟨_, -, heq⟩ := List.mem_map.mp he
          cases heq
        · exact absurd he List.not_mem_nil
    obtain ⟨symbols, hlibrary⟩ := hlibrary
    obtain ⟨tag, htag⟩ := Option.isSome_iff_exists.mp (hlibs _ (firstLib_mem hlibrary))
    exact callee_isSome hlibs htag callee
  · exact redirect_isSome lib func

theorem early_isSome (hlibs : inp.LibsTagged) :
    (State.trace inp.step .empty inp.earlyEvents).isSome ↔ inp.ItemsKnown := by
  have hready : ∀ e ∈ inp.call_dict.entries.flatMap (fun p => inp.itemEvents p.1 p.2), ∀ t,
      (inp.step t e).isSome ↔ inp.KeysKnown e := by
    intro e he t
    obtain ⟨p, -, he⟩ := List.mem_flatMap.mp he
    exact itemEvent_isSome hlibs he t
  have hitems := State.trace_isSome_iff_forall hready (.empty : Tables)
  rw [List.forall_mem_flatMap] at hitems
  rw [earlyEvents, List.append_assoc, State.trace_append, ItemsKnown, ← hitems]
  constructor
  · intro h
    obtain ⟨t, ht⟩ := Option.isSome_iff_exists.mp h
    obtain ⟨t₁, ht₁, -⟩ := Option.bind_eq_some_iff.mp ht
    rw [ht₁]
    rfl
  · intro h
    obtain ⟨t₁, ht₁⟩ := Option.isSome_iff_exists.mp h
    obtain ⟨t₂, ht₂⟩ := Option.isSome_iff_exists.mp (inp.structCallbacks_total t₁)
    rw [ht₁, Option.bind_some, State.trace_append, ht₂]
    exact inp.globals_total t₂

theorem check_isSome_iff (inp : Inputs) (hlibs : inp.LibsTagged) :
    inp.check.isSome ↔ inp.ItemsKnown ∧
      ∀ pre lib function post t, inp.mayStructEvents = pre ++ .mayStruct lib function :: post →
        State.trace inp.step .empty (inp.earlyEvents ++ pre) = some t →
        inp.Supported t lib function := by
  have hevents : inp.events = inp.earlyEvents ++ inp.mayStructEvents := rfl
  rw [check, hevents, State.trace_append, ← early_isSome hlibs]
  cases hearly : State.trace inp.step .empty inp.earlyEvents with
  | none => simp
  | some t₀ =>
    have hpre : ∀ pre t, State.trace inp.step .empty (inp.earlyEvents ++ pre) = some t ↔
        State.trace inp.step t₀ pre = some t := by
      intro pre t
      rw [State.trace_append, hearly, Option.bind_some]
    simp only [Option.bind_some, Option.isSome_some, true_and, hpre]
    rw [State.trace_isSome_iff]
    constructor
    · intro hmeets pre lib function post t hsplit ht
      exact (mayStruct_isSome lib function).mp (hmeets pre _ post t hsplit ht)
    · intro h pre e post t hsplit ht
      obtain ⟨lib, function, rfl⟩ := mayStruct_of_mem (show e ∈ inp.mayStructEvents by
        rw [hsplit]
        exact List.mem_append_right _ List.mem_cons_self)
      exact (mayStruct_isSome lib function).mpr (h pre lib function post t hsplit ht)

end Inputs

theorem check_isSome_demoCalls : demoCalls.check.isSome := by
  refine (demoCalls.check_isSome_iff (by decide)).mpr ⟨by decide, ?_⟩
  intro pre lib function post t hsplit
  cases pre <;> cases hsplit

-- The binary defines `cmp_b` itself, so that it has no stub for the symbol of the library.
def shadowingCalls : Inputs :=
  { demoCalls with
    bin := binParse [⟨0x1139, "cmp_bin".toList⟩, ⟨0x1150, "cmp_b".toList⟩]
    plt_addrs := .empty }

-- None of the callees of `sort_a` is found, and a function may be stored in a struct for it.
def unfoundCalls : Inputs :=
  { demoInputs ⟨[("sort_a".toList, ⟨["unknown".toList], ["0".toList]⟩)], by decide⟩ with
    struct_metadata := ⟨[("ops".toList, ["cmp_bin".toList])], by decide⟩
    locals_from_structs := ⟨[("ops".toList, [("sort_a".toList, ["0".toList])])], by decide⟩ }

theorem check_not_completes :
    (shadowingCalls.LibsTagged ∧ "cmp_b".toList ∈ shadowingCalls.bin.symbols.keys ∧
      ¬shadowingCalls.check.isSome) ∧
    (unfoundCalls.LibsTagged ∧ (unfoundCalls.firstLib "sort_a".toList).isSome ∧
      ¬unfoundCalls.check.isSome) := by
  decide

end Platypus.Parser
