import Platypus.Parser.Completes

namespace Platypus.Parser

-- The same tables with the same entries, in any order and number.
structure Same (t t' : Tables) : Prop where
  keys : ∀ tag, tag ∈ t.keys ↔ tag ∈ t'.keys
  entries : ∀ tag x, InTable t tag x ↔ InTable t' tag x

theorem Same.symm {t t' : Tables} (h : Same t t') : Same t' t :=
  ⟨fun tag => (h.keys tag).symm, fun tag x => (h.entries tag x).symm⟩

section Keys

variable {t t' : Tables} {tag tag' : Tag} {e : Entry}

theorem eq_or_mem_keys (h : tag ∈ t.keys) : tag' = tag ∨ tag' ∈ t.keys ↔ tag' ∈ t.keys := by
  refine or_iff_right_of_imp ?_
  rintro rfl
  exact h

theorem mem_keys_set_of_mem {es : List Entry} (h : tag ∈ t.keys) :
    tag' ∈ (t.set tag es).keys ↔ tag' ∈ t.keys :=
  (t.mem_keys_set _ _ _).trans (eq_or_mem_keys h)

theorem append_keys (h : t.append tag e = some t') : tag' ∈ t'.keys ↔ tag' ∈ t.keys := by
  obtain ⟨es, hes, rfl⟩ := Option.map_eq_some_iff.mp h
  exact mem_keys_set_of_mem (Dict.mem_keys_of_get? _ hes)

theorem appendNew_keys (h : t.appendNew tag e = some t') : tag' ∈ t'.keys ↔ tag' ∈ t.keys := by
  obtain ⟨es, hes, hset⟩ := Option.map_eq_some_iff.mp h
  split at hset
  · rw [hset]
  · subst hset
    exact mem_keys_set_of_mem (Dict.mem_keys_of_get? _ hes)

theorem trace_keys {ε : Type} {add : Tables → ε → Option Tables}
    (hadd : ∀ t x t', add t x = some t' → (tag' ∈ t'.keys ↔ tag' ∈ t.keys)) {xs : List ε}
    (h : State.trace add t xs = some t') : tag' ∈ t'.keys ↔ tag' ∈ t.keys := by
  induction xs generalizing t with
  | nil =>
    rw [State.trace, Option.some_inj] at h
    rw [h]
  | cons x xs ih =>
    obtain ⟨t₁, hx, hxs⟩ := Option.bind_eq_some_iff.mp h
    exact (ih hxs).trans (hadd t x t₁ hx)

theorem addOrCreate_keys (t : Tables) (tag : Tag) (e : Entry) :
    tag' ∈ (t.addOrCreate tag e).keys ↔ tag' = tag ∨ tag' ∈ t.keys := by
  unfold Tables.addOrCreate
  split
  · exact t.mem_keys_set _ _ _
  · rename_i hes
    split
    · exact (eq_or_mem_keys (Dict.mem_keys_of_get? _ hes)).symm
    · exact t.mem_keys_set _ _ _

theorem addUnlessText_keys (t : Tables) (tag : Tag) (guard : Name) (e : Entry) :
    tag' ∈ (t.addUnlessText tag guard e).keys ↔ tag' = tag ∨ tag' ∈ t.keys := by
  unfold Tables.addUnlessText
  split
  · exact t.mem_keys_set _ _ _
  · rename_i hes
    split
    · exact (eq_or_mem_keys (Dict.mem_keys_of_get? _ hes)).symm
    · exact t.mem_keys_set _ _ _

end Keys

namespace Inputs

-- The table that an event writes to if each exported callee has the tag of the getter's library.
def goal (inp : Inputs) : Event → Option Tag
  | .callee library _ => inp.tag library
  | .redirect lib _ => lib.bind inp.tag
  | .structCallback dso _ => some dso
  | .globalTable dso => some dso
  | .globalSym dso _ => some dso
  | .mayStruct lib _ => inp.tag lib

-- An exported callee finds the table of the getter's library, or has its tag.
def Filed (inp : Inputs) (t : Tables) : Event → Prop
  | .callee library callee => ∀ p ∈ inp.firstLib callee,
      inp.tag p.1 = inp.tag library ∨ ∃ tag ∈ t.keys, inp.tag library = some tag
  | _ => True

instance decidableFiled (inp : Inputs) (t : Tables) : ∀ e, Decidable (inp.Filed t e)
  | .callee library callee => inferInstanceAs (Decidable (∀ p ∈ inp.firstLib callee,
      inp.tag p.1 = inp.tag library ∨ ∃ tag ∈ t.keys, inp.tag library = some tag))
  | .redirect _ _ => inferInstanceAs (Decidable True)
  | .structCallback _ _ => inferInstanceAs (Decidable True)
  | .globalTable _ => inferInstanceAs (Decidable True)
  | .globalSym _ _ => inferInstanceAs (Decidable True)
  | .mayStruct _ _ => inferInstanceAs (Decidable True)

-- The tables that an event makes sure of.
def Opens (inp : Inputs) (tag : Tag) : Event → Prop
  | .callee library callee =>
    ((inp.firstLib callee).isSome ∨ callee ∈ inp.bin.symbols.keys) ∧ inp.tag library = some tag
  | .redirect lib func => func ∈ inp.bin.symbols.keys ∧ lib.bind inp.tag = some tag
  | .structCallback dso function => tag = dso ∧ (function ∈ inp.plt_addrs.keys ∨
      inp.libEntries dso function ≠ [] ∨ function ∈ inp.bin.symbols.keys)
  | .globalTable dso => tag = dso
  | .globalSym _ _ => False
  | .mayStruct _ _ => False

variable {inp : Inputs} {t t' t₁ t₂ : Tables} {tag : Tag} {x : Entry}

theorem target_eq_goal {e : Event} (h : inp.Filed t e) : inp.target t e = inp.goal e := by
  cases e with
  | callee library callee =>
    cases hlib : inp.firstLib callee with
    | none => simp [target, goal, hlib]
    | some p =>
      rcases h p hlib with hown | hthere
      · simp [target, goal, hlib, hown]
      · simp only [target, goal, hlib, if_pos hthere]
  | _ => rfl

-- Under the same condition nothing that a step finds is lost.
theorem step_entries {e : Event} (hfiled : inp.Filed t e) (h : inp.step t e = some t') :
    InTable t' tag x ↔ inp.goal e = some tag ∧ x ∈ inp.written t e ∨ InTable t tag x := by
  rw [step_effect e h tag x, target_eq_goal hfiled]
  refine or_congr_right (and_iff_left_of_imp ?_)
  rintro ⟨es, hes, -⟩ hrep
  cases e with
  | callee library callee =>
    obtain ⟨p, hp, hmissing, htag⟩ := hrep
    rcases hfiled p hp with hown | hthere
    · exact hmissing ⟨tag, t.mem_keys_of_get? hes, hown.symm.trans htag⟩
    · exact hmissing hthere
  | _ => exact hrep

theorem addExported_keys {library : Path} {callee : Name} {p : Path × Dict Name Address}
    (hfiled : inp.tag p.1 = inp.tag library ∨ ∃ tag ∈ t.keys, inp.tag library = some tag)
    (h : inp.addExported t library p.1 callee = some t') :
    tag ∈ t'.keys ↔ inp.tag library = some tag ∨ tag ∈ t.keys := by
  obtain ⟨a, ha, h⟩ := Option.bind_eq_some_iff.mp h
  obtain ⟨tagLibrary, htag, h⟩ := Option.bind_eq_some_iff.mp h
  rw [htag, Option.some_inj]
  split at h
  · rw [appendNew_keys h]
    refine ⟨.inr, ?_⟩
    rintro (rfl | hkey)
    · assumption
    · exact hkey
  · rename_i hmissing
    obtain ⟨tagLib, htagLib, h⟩ := Option.bind_eq_some_iff.mp h
    have hown : inp.tag p.1 = inp.tag library := by
      refine hfiled.resolve_right ?_
      rintro ⟨tag, hkey, htag'⟩
      rw [htag, Option.some_inj] at htag'
      exact hmissing (htag' ▸ hkey)
    rw [hown, htag, Option.some_inj] at htagLib
    rw [← Option.some_inj.mp h, t.mem_keys_set, ← htagLib, eq_comm]

theorem addLocal_keys {library : Path} {callee : Name} {a : Address}
    (h : inp.addLocal t library callee a = some t') :
    tag ∈ t'.keys ↔ inp.tag library = some tag ∨ tag ∈ t.keys := by
  obtain ⟨tagLibrary, htag, h⟩ := Option.bind_eq_some_iff.mp h
  obtain ⟨t₁, hdup, hsuf⟩ := Option.bind_eq_some_iff.mp h
  unfold addDuplicates at hdup
  unfold addSuffixed at hsuf
  rw [trace_keys (fun _ _ _ => appendNew_keys) hsuf, trace_keys (fun _ _ _ => append_keys) hdup,
    addUnlessText_keys, htag, Option.some_inj, eq_comm]

theorem isSome_get?_iff {κ ν : Type} [DecidableEq κ] (d : Dict κ ν) (k : κ) :
    (d.get? k).isSome ↔ k ∈ d.keys := Dict.find_isSome _ _

theorem addLibCallback_keys (dso : Tag) (function : Name) :
    tag ∈ (inp.addLibCallback t dso function).keys ↔
      tag = dso ∧ inp.libEntries dso function ≠ [] ∨ tag ∈ t.keys := by
  unfold addLibCallback libEntries
  cases inp.firstLib function with
  | none => simp
  | some p =>
    dsimp only
    cases p.2.get? function with
    | none => simp
    | some a => simp [addOrCreate_keys]

theorem addBinCallback_keys (dso : Tag) (function : Name) :
    tag ∈ (inp.addBinCallback t dso function).keys ↔
      tag = dso ∧ function ∈ inp.bin.symbols.keys ∨ tag ∈ t.keys := by
  unfold addBinCallback
  rw [← isSome_get?_iff inp.bin.symbols]
  cases inp.bin.symbols.get? function with
  | none => simp
  | some a => simp [addUnlessText_keys]

theorem addPltCallback_keys (dso : Tag) (function : Name) (a : Address) :
    tag ∈ (inp.addPltCallback t dso function a).keys ↔ tag = dso ∨ tag ∈ t.keys := by
  unfold addPltCallback
  dsimp only
  split
  · rename_i hes
    split
    · exact (eq_or_mem_keys (Dict.mem_keys_of_get? _ hes)).symm
    · exact t.mem_keys_set _ _ _
  · exact t.mem_keys_set _ _ _

theorem addMayStruct_keys {lib : Path} {function : Name}
    (h : inp.addMayStruct t lib function = some t') : tag ∈ t'.keys ↔ tag ∈ t.keys := by
  have hunsupported : ∀ t'' : Tables,
      (if function ∈ inp.call_dict.keys then none else some t) = some t'' → t = t'' := by
    intro t'' h
    split at h
    · cases h
    · exact Option.some_inj.mp h
  unfold addMayStruct at h
  cases hbin : inp.bin.symbols.get? function with
  | none =>
    simp only [hbin] at h
    rw [hunsupported t' h]
  | some a =>
    simp only [hbin] at h
    obtain ⟨tagLib, -, h⟩ := Option.bind_eq_some_iff.mp h
    obtain ⟨es, -, h⟩ := Option.bind_eq_some_iff.mp h
    split at h
    · rw [hunsupported t' h]
    · exact append_keys h

theorem addCallee_keys {library : Path} {callee : Name} (hfiled : inp.Filed t (.callee library callee))
    (h : inp.addCallee t library callee = some t') :
    tag ∈ t'.keys ↔ inp.Opens tag (.callee library callee) ∨ tag ∈ t.keys := by
  rw [addCallee] at h
  simp only [Opens]
  cases hlib : inp.firstLib callee with
  | some p =>
    simp only [hlib] at h
    simpa using addExported_keys (hfiled p hlib) h
  | none =>
    simp only [hlib] at h
    rw [← isSome_get?_iff inp.bin.symbols]
    cases hbin : inp.bin.symbols.get? callee with
    | some a =>
      simp only [hbin] at h
      simpa using addLocal_keys h
    | none =>
      simp only [hbin, Option.some_inj] at h
      simp [h]

theorem addRedirected_keys {lib : Option Path} {func : Name}
    (h : inp.addRedirected t lib func = some t') :
    tag ∈ t'.keys ↔ inp.Opens tag (.redirect lib func) ∨ tag ∈ t.keys := by
  rw [addRedirected] at h
  simp only [Opens, ← isSome_get?_iff inp.bin.symbols]
  cases hbin : inp.bin.symbols.get? func with
  | none =>
    simp only [hbin, Option.some_inj] at h
    simp [h]
  | some a =>
    simp only [hbin] at h
    obtain ⟨l, hl, hbind⟩ := Option.bind_eq_some_iff.mp h
    obtain ⟨tagLib, htag, hset⟩ := Option.bind_eq_some_iff.mp hbind
    rw [← Option.some_inj.mp hset, addOrCreate_keys, hl, Option.bind_some, htag,
      Option.some_inj, eq_comm]
    simp

theorem step_keys {e : Event} (hfiled : inp.Filed t e) (h : inp.step t e = some t') :
    tag ∈ t'.keys ↔ inp.Opens tag e ∨ tag ∈ t.keys := by
  cases e with
  | callee library callee => exact addCallee_keys hfiled h
  | redirect lib func => exact addRedirected_keys h
  | structCallback dso function =>
    obtain rfl := Option.some_inj.mp h
    simp only [addStructCallback, Opens, ← isSome_get?_iff inp.plt_addrs]
    cases inp.plt_addrs.get? function with
    | some a => simp [addPltCallback_keys]
    | none =>
      simp only [addBinCallback_keys, addLibCallback_keys]
      simp
      tauto
  | globalTable dso =>
    obtain rfl := Option.some_inj.mp h
    simp only [addGlobalTable, Opens]
    split
    · rename_i hdso
      exact (eq_or_mem_keys hdso).symm
    · exact t.mem_keys_set _ _ _
  | globalSym dso function =>
    simp only [step, addGlobalSym] at h
    simp only [Opens, false_or]
    split at h
    · rw [Option.some_inj] at h
      rw [h]
    · exact appendNew_keys h
  | mayStruct lib function =>
    simp only [Opens, false_or]
    exact addMayStruct_keys h

-- What the later loops do depends on the tables as sets only.

theorem mem_getD_iff : x ∈ (t.get? tag).getD [] ↔ InTable t tag x := by
  unfold InTable
  cases t.get? tag <;> simp

theorem text_mem_iff (text : Name) :
    text ∈ ((t.get? tag).getD []).map Entry.text ↔ ∃ x, InTable t tag x ∧ x.text = text := by
  simp only [List.mem_map, mem_getD_iff]

theorem pltEntries_same (h : Same t₁ t₂) (dso : Tag) (function : Name) (a : Address) :
    inp.pltEntries t₁ dso function a = inp.pltEntries t₂ dso function a := by
  unfold pltEntries
  refine if_congr ?_ rfl rfl
  rw [mem_getD_iff, mem_getD_iff, h.entries]

theorem binEntries_same (h : Same t₁ t₂) (dso : Tag) (function : Name) :
    inp.binEntries t₁ dso function = inp.binEntries t₂ dso function := by
  unfold binEntries
  split
  · refine if_congr ?_ rfl rfl
    rw [text_mem_iff, text_mem_iff]
    simp only [h.entries]
  · rfl

theorem addLibCallback_same (h : Same t₁ t₂) (dso : Tag) (function : Name) :
    Same (inp.addLibCallback t₁ dso function) (inp.addLibCallback t₂ dso function) where
  keys tag := by rw [addLibCallback_keys, addLibCallback_keys, h.keys]
  entries tag x := by
    rw [addLibCallback_extends t₁ dso function tag x, addLibCallback_extends t₂ dso function tag x,
      h.entries]

theorem written_same (h : Same t₁ t₂) (e : Event) : inp.written t₁ e = inp.written t₂ e := by
  cases e with
  | structCallback dso function =>
    simp only [written]
    split
    · exact pltEntries_same h dso function _
    · rw [binEntries_same (addLibCallback_same h dso function)]
  | _ => rfl

theorem supported_of_same {lib : Path} {function : Name} (h : Same t₁ t₂)
    (hs : inp.Supported t₁ lib function) : inp.Supported t₂ lib function := by
  refine ⟨fun hbin => ?_, fun hgetter => ?_⟩
  · obtain ⟨tag, hkey, htag⟩ := hs.table hbin
    exact ⟨tag, (h.keys tag).mp hkey, htag⟩
  · obtain ⟨a, ha, hfresh⟩ := hs.fresh hgetter
    exact ⟨a, ha, fun tag htag hin => hfresh tag htag ((h.entries tag _).mpr hin)⟩

theorem supported_same (h : Same t₁ t₂) (lib : Path) (function : Name) :
    inp.Supported t₁ lib function ↔ inp.Supported t₂ lib function :=
  ⟨supported_of_same h, supported_of_same h.symm⟩

theorem globalSym_isSome (dso : Tag) (function : Name) :
    (inp.step t (.globalSym dso function)).isSome ↔
      (function ∈ inp.plt_addrs.keys → dso ∈ t.keys) := by
  rw [← isSome_get?_iff inp.plt_addrs, ← isSome_get?_iff t]
  simp only [step, addGlobalSym]
  cases inp.plt_addrs.get? function with
  | none => simp
  | some a => simp [Tables.appendNew]

theorem rel_of_isSome {α : Type} {R : α → α → Prop} {a b : Option α}
    (hsome : a.isSome ↔ b.isSome) (h : ∀ x y, a = some x → b = some y → R x y) :
    Option.Rel R a b := by
  cases a with
  | none =>
    cases b with
    | none => exact .none
    | some y => exact absurd (hsome.mpr rfl) (by simp)
  | some x =>
    cases b with
    | none => exact absurd (hsome.mp rfl) (by simp)
    | some y => exact .some (h x y rfl rfl)

theorem late_same {e : Event} (he : e ∈ inp.lateEvents) (h : Same t₁ t₂) :
    Option.Rel Same (inp.step t₁ e) (inp.step t₂ e) := by
  have hfiled (t : Tables) : inp.Filed t e := by
    rcases late_cases he with ⟨_, _, _, -, -, rfl⟩ | ⟨_, rfl⟩ | ⟨_, _, rfl⟩ | ⟨_, _, rfl⟩ <;> trivial
  refine rel_of_isSome ?_ fun t₁' t₂' h₁ h₂ => ⟨fun tag => ?_, fun tag x => ?_⟩
  · rcases late_cases he with ⟨_, _, _, -, -, rfl⟩ | ⟨_, rfl⟩ | ⟨_, _, rfl⟩ | ⟨_, _, rfl⟩
    · exact iff_of_true rfl rfl
    · exact iff_of_true rfl rfl
    · rw [globalSym_isSome, globalSym_isSome, h.keys]
    · rw [mayStruct_isSome, mayStruct_isSome, supported_same h]
  · rw [step_keys (hfiled t₁) h₁, step_keys (hfiled t₂) h₂, h.keys]
  · rw [step_entries (hfiled t₁) h₁, step_entries (hfiled t₂) h₂, written_same h, h.entries]

-- The loop over the getters, as a set of events.

def ItemReady (inp : Inputs) : Event → Prop
  | .callee library callee => inp.KeysKnown (.callee library callee) ∧
      ((inp.firstLib callee).isSome ∨ callee ∈ inp.bin.symbols.keys → (inp.tag library).isSome)
  | e => inp.KeysKnown e

theorem addExported_isSome_of_filed {library lib : Path} {callee : Name} {tag : Tag}
    (htag : inp.tag library = some tag)
    (hfiled : inp.tag lib = inp.tag library ∨ ∃ tag ∈ t.keys, inp.tag library = some tag) :
    (inp.addExported t library lib callee).isSome ↔ callee ∈ inp.plt_addrs.keys := by
  rcases hfiled with hown | ⟨tag', hkey, htag'⟩
  · exact addExported_isSome htag (hown.trans htag) callee
  · rw [← isSome_get?_iff inp.plt_addrs]
    obtain rfl := Option.some_inj.mp (htag.symm.trans htag')
    cases ha : inp.plt_addrs.get? callee with
    | none => simp [addExported, ha]
    | some a =>
      obtain ⟨t', ht', -⟩ := Tables.appendNew_of_mem hkey (entry inp.name a)
      simp [addExported, ha, htag, hkey, ht']

theorem callee_isSome_of_filed {library : Path} {callee : Name}
    (hfiled : inp.Filed t (.callee library callee)) :
    (inp.step t (.callee library callee)).isSome ↔ inp.ItemReady (.callee library callee) := by
  simp only [step, addCallee, ItemReady, KeysKnown]
  cases hlib : inp.firstLib callee with
  | some p =>
    cases htag : inp.tag library with
    | none =>
      refine iff_of_false ?_ (by simp)
      cases hplt : inp.plt_addrs.get? callee <;> simp [addExported, htag, hplt]
    | some tag =>
      rw [addExported_isSome_of_filed htag (hfiled p hlib)]
      simp
  | none =>
    rw [← isSome_get?_iff inp.bin.symbols]
    cases hbin : inp.bin.symbols.get? callee with
    | none => simp
    | some a =>
      cases htag : inp.tag library with
      | none => simp [addLocal, htag]
      | some tag => simp [addLocal_isSome htag]

variable {es : List Event}

-- The events of that loop.
def IsItem (e : Event) : Prop :=
  (∃ library callee, e = .callee library callee) ∨ ∃ lib func, e = .redirect lib func

theorem items_isSome (hitem : ∀ e ∈ es, IsItem e) (hfiled : State.Meets inp.step inp.Filed t es) :
    (State.trace inp.step t es).isSome ↔ ∀ e ∈ es, inp.ItemReady e := by
  refine hfiled.trace_isSome_iff fun e he t hfiled => ?_
  rcases hitem e he with ⟨library, callee, rfl⟩ | ⟨lib, func, rfl⟩
  · exact callee_isSome_of_filed hfiled
  · exact redirect_isSome lib func

theorem items_keys (hfiled : State.Meets inp.step inp.Filed t es)
    (h : State.trace inp.step t es = some t') :
    tag ∈ t'.keys ↔ (∃ e ∈ es, inp.Opens tag e) ∨ tag ∈ t.keys := by
  induction es generalizing t with
  | nil =>
    rw [State.trace, Option.some_inj] at h
    simp [h]
  | cons e es ih =>
    obtain ⟨t₁, he, hes⟩ := Option.bind_eq_some_iff.mp h
    rw [ih (hfiled.tail he) hes, step_keys hfiled.head he, List.exists_mem_cons_iff, or_left_comm,
      or_assoc]

theorem items_entries (hitem : ∀ e ∈ es, IsItem e) (hfiled : State.Meets inp.step inp.Filed t es)
    (h : State.trace inp.step t es = some t') :
    InTable t' tag x ↔ (∃ e ∈ es, inp.goal e = some tag ∧ x ∈ inp.written .empty e) ∨
      InTable t tag x := by
  induction es generalizing t with
  | nil =>
    rw [State.trace, Option.some_inj] at h
    simp [h]
  | cons e es ih =>
    obtain ⟨t₁, he, hes⟩ := Option.bind_eq_some_iff.mp h
    have hwritten : inp.written t e = inp.written .empty e := by
      rcases hitem e List.mem_cons_self with ⟨library, callee, rfl⟩ | ⟨lib, func, rfl⟩ <;> rfl
    rw [ih (fun e' he' => hitem e' (List.mem_cons_of_mem e he')) (hfiled.tail he) hes,
      step_entries hfiled.head he, List.exists_mem_cons_iff, hwritten, or_left_comm, or_assoc]

-- Runs over the same set of such events agree.
theorem items_same {es' : List Event} (hitem : ∀ e ∈ es, IsItem e)
    (hfiled : State.Meets inp.step inp.Filed t es) (hfiled' : State.Meets inp.step inp.Filed t es')
    (hmem : ∀ e, e ∈ es ↔ e ∈ es') :
    Option.Rel Same (State.trace inp.step t es) (State.trace inp.step t es') := by
  have hitem' := fun e he' => hitem e ((hmem e).mpr he')
  refine rel_of_isSome ?_ fun t₁ t₂ h₁ h₂ => ⟨fun tag => ?_, fun tag x => ?_⟩
  · rw [items_isSome hitem hfiled, items_isSome hitem' hfiled']
    simp only [hmem]
  · rw [items_keys hfiled h₁, items_keys hfiled' h₂]
    simp only [hmem]
  · rw [items_entries hitem hfiled h₁, items_entries hitem' hfiled' h₂]
    simp only [hmem]

end Inputs

-- The same getters with the same callees and positions, in another order.
structure Reordered (d d' : Dict Name CallInfo) : Prop where
  keys : d.keys.Perm d'.keys
  callees : ∀ item info info', d.get? item = some info → d'.get? item = some info' →
    info.callees.Perm info'.callees
  indices : ∀ item info info', d.get? item = some info → d'.get? item = some info' →
    info.indices.Perm info'.indices

theorem Reordered.of_entries {d d' : Dict Name CallInfo} (hkeys : d.keys.Perm d'.keys)
    (h : ∀ p ∈ d.entries, ∀ p' ∈ d'.entries, p.1 = p'.1 →
      p.2.callees.Perm p'.2.callees ∧ p.2.indices.Perm p'.2.indices) : Reordered d d' where
  keys := hkeys
  callees _ _ _ hget hget' := (h _ (d.mem_of_get? hget) _ (d'.mem_of_get? hget') rfl).1
  indices _ _ _ hget hget' := (h _ (d.mem_of_get? hget) _ (d'.mem_of_get? hget') rfl).2

namespace Inputs

def withCalls (inp : Inputs) (calls : Dict Name CallInfo) : Inputs := { inp with call_dict := calls }

variable {inp : Inputs} {calls : Dict Name CallInfo}

theorem itemEvents_perm (item : Name) {info info' : CallInfo}
    (h : info.callees.Perm info'.callees) :
    (inp.itemEvents item info).Perm (inp.itemEvents item info') := by
  unfold itemEvents calleeEvents redirectEvents structEvents
  refine (List.Perm.append ?_ ?_).append ?_
  · cases inp.firstLib item with
    | none => exact .refl _
    | some p => exact h.map _
  · cases inp.CPTR_REDIRECTION_TO_EXTERNAL.find? fun tup => item = tup.1 ∨ item = tup.2 with
    | none => exact .refl _
    | some p => exact h.map _
  · cases inp.STRUCTS_USED_BY_CBGs.entries.find? fun e => some item ∈ e.2 with
    | none => exact .refl _
    | some p => exact h.map _

def items (inp : Inputs) (calls : Dict Name CallInfo) : List Event :=
  calls.entries.flatMap fun p => inp.itemEvents p.1 p.2

theorem items_eq_keys (d : Dict Name CallInfo) :
    inp.items d = d.keys.flatMap fun item => ((d.get? item).map (inp.itemEvents item)).getD [] := by
  rw [items, Dict.keys, List.flatMap_map]
  refine List.flatMap_congr fun p hp => ?_
  rw [d.get?_of_mem hp]
  rfl

theorem items_perm {d d' : Dict Name CallInfo} (h : Reordered d d') :
    (inp.items d).Perm (inp.items d') := by
  rw [items_eq_keys, items_eq_keys]
  refine (List.Perm.flatMap_left _ fun item hitem => ?_).trans (h.keys.flatMap_right _)
  obtain ⟨info, hget⟩ := Option.isSome_iff_exists.mp ((isSome_get?_iff d item).mpr hitem)
  obtain ⟨info', hget'⟩ := Option.isSome_iff_exists.mp
    ((isSome_get?_iff d' item).mpr (h.keys.mem_iff.mp hitem))
  rw [hget, hget']
  exact itemEvents_perm item (h.callees item info info' hget hget')

theorem mayStructEventsOf_reordered (h : Reordered inp.call_dict calls) (fn_name : Name)
    (indices functions : List Name) :
    (inp.withCalls calls).mayStructEventsOf fn_name indices functions =
      inp.mayStructEventsOf fn_name indices functions := by
  have hkeys := h.keys.mem_iff (a := fn_name)
  rw [← isSome_get?_iff, ← isSome_get?_iff] at hkeys
  have hcalls : (inp.withCalls calls).call_dict = calls := rfl
  unfold mayStructEventsOf
  rw [hcalls]
  cases hget : inp.call_dict.get? fn_name with
  | none =>
    rw [hget] at hkeys
    rw [Option.not_isSome_iff_eq_none.mp (mt hkeys.mpr (by simp))]
  | some info =>
    rw [hget] at hkeys
    obtain ⟨info', hget'⟩ := Option.isSome_iff_exists.mp (hkeys.mp rfl)
    rw [hget']
    refine if_congr ?_ rfl rfl
    simp only [(h.indices fn_name info info' hget hget').mem_iff]

theorem lateEvents_reordered (h : Reordered inp.call_dict calls) :
    (inp.withCalls calls).lateEvents = inp.lateEvents := by
  have hmay : (inp.withCalls calls).mayStructEvents = inp.mayStructEvents := by
    unfold mayStructEvents
    simp only [mayStructEventsOf_reordered h]
    rfl
  unfold lateEvents
  rw [hmay]
  rfl

theorem step_withCalls (h : Reordered inp.call_dict calls) (t : Tables) (e : Event) :
    (inp.withCalls calls).step t e = inp.step t e := by
  cases e with
  | mayStruct lib function =>
    simp only [step, addMayStruct, withCalls, tag, ← h.keys.mem_iff]
  | _ => rfl

-- If, from where two orders of the getters and their callees part, every step of both runs finds
-- the table of its getter, the tables are the same as sets, or both runs fail.
theorem check_reordered (inp : Inputs) (calls : Dict Name CallInfo)
    (hcalls : Reordered inp.call_dict calls) (pre es es' : List Event)
    (hes : inp.items inp.call_dict = pre ++ es) (hes' : inp.items calls = pre ++ es')
    (hfiled : ∀ t, State.trace inp.step .empty pre = some t →
      State.Meets inp.step inp.Filed t es ∧ State.Meets inp.step inp.Filed t es') :
    Option.Rel Same inp.check (inp.withCalls calls).check := by
  have hstep : (inp.withCalls calls).step = inp.step := by
    funext t e
    exact step_withCalls hcalls t e
  have hevents : inp.events = pre ++ es ++ inp.lateEvents := by
    rw [events_eq, ← hes]
    rfl
  have hevents' : (inp.withCalls calls).events = pre ++ es' ++ inp.lateEvents := by
    rw [events_eq, lateEvents_reordered hcalls, ← hes']
    rfl
  have hitem : ∀ e ∈ es, IsItem e := by
    intro e he
    have hmem : e ∈ inp.items inp.call_dict := by
      rw [hes]
      exact List.mem_append_right pre he
    obtain ⟨p, -, he⟩ := List.mem_flatMap.mp hmem
    exact item_cases he
  have hperm : es.Perm es' := by
    have hitems : (inp.items _).Perm _ := items_perm hcalls
    rwa [hes, hes', List.perm_append_left_iff] at hitems
  rw [check, check, hstep, hevents, hevents', State.trace_append, State.trace_append,
    State.trace_append, State.trace_append]
  cases hpre : State.trace inp.step .empty pre with
  | none => exact .none
  | some t =>
    have hsame := items_same hitem (hfiled t hpre).1 (hfiled t hpre).2 fun e => hperm.mem_iff
    rw [Option.bind_some, Option.bind_some]
    generalize State.trace inp.step t es = a at hsame
    generalize State.trace inp.step t es' = b at hsame
    cases hsame with
    | none => exact .none
    | some h => exact State.trace_rel (fun e he t t' => late_same he) h

end Inputs

-- Two orders of the getters in which the table of LIBA is there when its callee of libb comes.

def bothCalls : Dict Name CallInfo :=
  ⟨[("sort_b".toList, ⟨["cmp_bin".toList, "cmp_b".toList], []⟩),
    ("sort_a".toList, ⟨["cmp_bin".toList, "cmp_b".toList], []⟩)], by decide⟩

def bothReversed : Dict Name CallInfo :=
  ⟨[("sort_a".toList, ⟨["cmp_bin".toList, "cmp_b".toList], []⟩),
    ("sort_b".toList, ⟨["cmp_b".toList, "cmp_bin".toList], []⟩)], by decide⟩

def strayReversed : Dict Name CallInfo :=
  ⟨[("sort_a".toList, ⟨["cmp_b".toList], []⟩), ("sort_b".toList, ⟨["cmp_bin".toList], []⟩)],
    by decide⟩

theorem check_reordered_bothCalls :
    Option.Rel Same (demoInputs bothCalls).check
      ((demoInputs bothCalls).withCalls bothReversed).check := by
  refine (demoInputs bothCalls).check_reordered bothReversed (.of_entries (by decide) (by decide)) []
    _ _ (List.nil_append _).symm (List.nil_append _).symm fun t ht => ?_
  cases ht
  exact ⟨by decide, by decide⟩

-- The callee of `sort_a` makes the table of LIBB anew, and what that table had depends on whether
-- `sort_b` came first.
theorem strayCalls_order :
    Reordered strayCalls.call_dict strayReversed ∧
      ¬Option.Rel Same strayCalls.check (strayCalls.withCalls strayReversed).check := by
  refine ⟨.of_entries (by decide) (by decide), fun hrel => ?_⟩
  have hcheck : strayCalls.check =
      some ⟨[("LIBB".toList, [entry "BIN".toList (hex 0x1020)])], by decide⟩ := rfl
  have hreversed : (strayCalls.withCalls strayReversed).check =
      some ⟨[("LIBB".toList, [entry "BIN".toList (hex 0x1020), entry "BIN".toList (hex 0x1139)])],
        by decide⟩ := rfl
  rw [hcheck, hreversed] at hrel
  cases hrel with
  | some hsame =>
    obtain ⟨es, hes, hmem⟩ := (hsame.entries "LIBB".toList (entry "BIN".toList (hex 0x1139))).mpr
      ⟨_, rfl, by decide⟩
    cases hes
    exact absurd hmem (by decide)

end Platypus.Parser
