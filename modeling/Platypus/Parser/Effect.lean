import Platypus.Parser.Callees

namespace Platypus.Parser

theorem inTable_set_iff {t : Tables} {tag tag' : Tag} {es : List Entry} {x : Entry} :
    InTable (t.set tag es) tag' x ↔ tag' = tag ∧ x ∈ es ∨ tag' ≠ tag ∧ InTable t tag' x := by
  by_cases h : tag' = tag
  · subst h
    simp [InTable]
  · simp [InTable, t.get?_set_of_ne es h, h]

theorem not_inTable_empty (tag : Tag) (x : Entry) : ¬InTable .empty tag x := by
  rintro ⟨es, hes, -⟩
  cases hes

-- The tables have gained the entries of a list under one tag, and nothing else has changed.
def Extends (t t' : Tables) (tag : Tag) (xs : List Entry) : Prop :=
  ∀ tag' x, InTable t' tag' x ↔ tag' = tag ∧ x ∈ xs ∨ InTable t tag' x

namespace Extends

variable {t t' t'' : Tables} {tag : Tag} {es xs ys : List Entry} {e : Entry}

theorem refl (t : Tables) (tag : Tag) : Extends t t tag [] := by simp [Extends]

theorem of_inTable (h : InTable t tag e) : Extends t t tag [e] := by
  intro tag' x
  refine ⟨.inr, ?_⟩
  rintro (⟨rfl, hx⟩ | hx)
  · rwa [List.mem_singleton.mp hx]
  · exact hx

theorem trans (h : Extends t t' tag xs) (h' : Extends t' t'' tag ys) :
    Extends t t'' tag (xs ++ ys) := by
  intro tag' x
  rw [h' tag' x, h tag' x, List.mem_append]
  tauto

theorem set_append (h : t.get? tag = some es) : Extends t (t.set tag (es ++ xs)) tag xs := by
  intro tag' x
  rw [inTable_set_iff]
  by_cases htag : tag' = tag
  · subst htag
    simp [InTable, h, or_comm]
  · simp [htag]

theorem set_new (h : t.get? tag = none) : Extends t (t.set tag xs) tag xs := by
  intro tag' x
  rw [inTable_set_iff]
  by_cases htag : tag' = tag
  · subst htag
    simp [InTable, h]
  · simp [htag]

theorem append (h : t.append tag e = some t') : Extends t t' tag [e] := by
  obtain ⟨es, hes, rfl⟩ := Option.map_eq_some_iff.mp h
  exact set_append hes

theorem appendNew (h : t.appendNew tag e = some t') : Extends t t' tag [e] := by
  obtain ⟨es, hes, hset⟩ := Option.map_eq_some_iff.mp h
  split at hset
  · subst hset
    exact of_inTable ⟨es, hes, ‹_›⟩
  · subst hset
    exact set_append hes

theorem addOrCreate (t : Tables) (tag : Tag) (e : Entry) :
    Extends t (t.addOrCreate tag e) tag [e] := by
  unfold Tables.addOrCreate
  split
  · exact set_new ‹_›
  · split
    · exact of_inTable ⟨_, ‹_›, ‹_›⟩
    · exact set_append ‹_›

-- The guard finds its text among the entries, or the entry goes in.
theorem addUnlessText (t : Tables) (tag : Tag) (guard : Name) (e : Entry) :
    Extends t (t.addUnlessText tag guard e) tag
      (if guard ∈ ((t.get? tag).getD []).map Entry.text then [] else [e]) := by
  unfold Tables.addUnlessText
  cases h : t.get? tag with
  | none => exact set_new h
  | some es =>
    simp only [Option.getD_some]
    by_cases hguard : guard ∈ es.map Entry.text
    · rw [if_pos hguard, if_pos hguard]
      exact refl t tag
    · rw [if_neg hguard, if_neg hguard]
      exact set_append h

theorem trace {ε : Type} {add : Tables → ε → Option Tables} (f : ε → Entry)
    (hadd : ∀ t x t', add t x = some t' → Extends t t' tag [f x]) {zs : List ε}
    (h : State.trace add t zs = some t') : Extends t t' tag (zs.map f) := by
  induction zs generalizing t with
  | nil =>
    rw [State.trace, Option.some_inj] at h
    exact h ▸ refl t tag
  | cons z zs ih =>
    obtain ⟨t₁, hz, hzs⟩ := Option.bind_eq_some_iff.mp h
    exact (hadd t z t₁ hz).trans (ih hzs)

end Extends

namespace Inputs

variable (inp : Inputs)

-- The table that an event writes to.
def target (t : Tables) : Event → Option Tag
  | .callee library callee =>
    match inp.firstLib callee with
    | some (lib, _) =>
      if ∃ tag ∈ t.keys, inp.tag library = some tag then inp.tag library else inp.tag lib
    | none => inp.tag library
  | .redirect lib _ => lib.bind inp.tag
  | .structCallback dso _ => some dso
  | .globalTable dso => some dso
  | .globalSym dso _ => some dso
  | .mayStruct lib _ => inp.tag lib

def libEntries (dso : Tag) (function : Name) : List Entry :=
  match inp.firstLib function with
  | some (_, symbols) => (symbols.get? function).toList.map (entry dso)
  | none => []

def binEntries (t : Tables) (dso : Tag) (function : Name) : List Entry :=
  match inp.bin.symbols.get? function with
  | some a =>
    if inp.name ++ a.text ∈ ((t.get? dso).getD []).map Entry.text then []
    else [entry inp.name a]
  | none => []

def pltEntries (t : Tables) (dso : Tag) (function : Name) (a : Address) : List Entry :=
  if entry inp.name a ∈ (t.get? dso).getD [] then []
  else entry inp.name a :: inp.bothPlts function

-- The entries that an event writes.
def written (t : Tables) : Event → List Entry
  | .callee _ callee =>
    if inp.firstLib callee = none ∧ callee ∉ inp.bin.symbols.keys then []
    else (inp.addressesOf callee).map (entry inp.name)
  | .redirect _ func => (inp.bin.symbols.get? func).toList.map (entry inp.name)
  | .structCallback dso function =>
    match inp.plt_addrs.get? function with
    | some a => inp.pltEntries t dso function a
    | none => inp.libEntries dso function ++
        inp.binEntries (inp.addLibCallback t dso function) dso function
  | .globalTable _ => []
  | .globalSym _ function => (inp.plt_addrs.get? function).toList.map (entry inp.name)
  | .mayStruct _ function => (inp.bin.symbols.get? function).toList.map (entry inp.name)

-- The callee is exported and the library of its getter has no table: the table of the callee's
-- own library is made anew.
def Replaces (t : Tables) : Event → Tag → Prop
  | .callee library callee, tag =>
    ∃ p, inp.firstLib callee = some p ∧ (¬∃ tag ∈ t.keys, inp.tag library = some tag) ∧
      inp.tag p.1 = some tag
  | _, _ => False

variable {inp} {t t' : Tables}

theorem addExported_effect {library : Path} {callee : Name} {p : Path × Dict Name Address}
    (hlib : inp.firstLib callee = some p) (h : inp.addExported t library p.1 callee = some t')
    (tag : Tag) (x : Entry) :
    InTable t' tag x ↔ inp.target t (.callee library callee) = some tag ∧
        x ∈ inp.written t (.callee library callee) ∨
      InTable t tag x ∧ ¬inp.Replaces t (.callee library callee) tag := by
  obtain ⟨a, ha, h⟩ := Option.bind_eq_some_iff.mp h
  obtain ⟨tagLibrary, htag, h⟩ := Option.bind_eq_some_iff.mp h
  have hwritten : inp.written t (.callee library callee) = [entry inp.name a] := by
    simp [written, addressesOf, hlib, ha]
  have hkeys : (∃ tag ∈ t.keys, inp.tag library = some tag) ↔ tagLibrary ∈ t.keys := by
    simp [htag]
  simp only [hwritten, target, Replaces, hlib, hkeys, Option.some_inj, exists_eq_left']
  split at h
  · rename_i hmem
    rw [Extends.appendNew h tag x, if_pos hmem, htag, Option.some_inj, eq_comm (a := tag)]
    simp [hmem]
  · rename_i hmem
    obtain ⟨tagLib, htagLib, h⟩ := Option.bind_eq_some_iff.mp h
    obtain rfl := Option.some_inj.mp h
    rw [inTable_set_iff, if_neg hmem, htagLib, Option.some_inj, ne_eq, eq_comm (a := tag)]
    simp [hmem, and_comm]

theorem addLocal_extends {library : Path} {callee : Name} {a : Address}
    (hlib : inp.firstLib callee = none) (ha : inp.bin.symbols.get? callee = some a)
    (h : inp.addLocal t library callee a = some t') :
    ∃ tag, inp.tag library = some tag ∧
      Extends t t' tag ((inp.addressesOf callee).map (entry inp.name)) := by
  obtain ⟨tag, htag, h⟩ := Option.bind_eq_some_iff.mp h
  obtain ⟨t₂, hdup, hsuf⟩ := Option.bind_eq_some_iff.mp h
  have hown := Extends.addUnlessText t tag a.text (entry inp.name a)
  have hguard : a.text ∉ ((t.get? tag).getD []).map Entry.text := by
    intro hmem
    obtain ⟨e, -, he⟩ := List.mem_map.mp hmem
    exact a.plain (he ▸ e.marked)
  rw [if_neg hguard] at hown
  unfold addDuplicates at hdup
  unfold addSuffixed at hsuf
  have hdups := Extends.trace (entry inp.name) (fun _ _ _ => Extends.append) hdup
  have hsufs := Extends.trace (fun e : Name × Address => entry inp.name e.2)
    (fun _ _ _ => Extends.appendNew) hsuf
  refine ⟨tag, htag, ?_⟩
  have hall := (hown.trans hdups).trans hsufs
  simpa [addressesOf, hlib, ha, Function.comp_def] using hall

theorem addCallee_effect {library : Path} {callee : Name}
    (h : inp.addCallee t library callee = some t') (tag : Tag) (x : Entry) :
    InTable t' tag x ↔ inp.target t (.callee library callee) = some tag ∧
        x ∈ inp.written t (.callee library callee) ∨
      InTable t tag x ∧ ¬inp.Replaces t (.callee library callee) tag := by
  unfold addCallee at h
  cases hlib : inp.firstLib callee with
  | some p =>
    simp only [hlib] at h
    exact addExported_effect hlib h tag x
  | none =>
    simp only [hlib] at h
    have hkeep : ¬inp.Replaces t (.callee library callee) tag := by
      rintro ⟨p, hp, -⟩
      rw [hlib] at hp
      cases hp
    have htarget : inp.target t (.callee library callee) = inp.tag library := by
      simp [target, hlib]
    cases hbin : inp.bin.symbols.get? callee with
    | some a =>
      simp only [hbin] at h
      obtain ⟨tagLibrary, htag, hext⟩ := addLocal_extends hlib hbin h
      have hmem := inp.bin.symbols.mem_keys_of_get? hbin
      have hwritten : inp.written t (.callee library callee) =
          (inp.addressesOf callee).map (entry inp.name) := if_neg fun h => h.2 hmem
      rw [hext tag x, htarget, hwritten, htag, Option.some_inj, eq_comm (a := tag)]
      simp [hkeep]
    | none =>
      simp only [hbin, Option.some_inj] at h
      subst h
      have hwritten : inp.written t (.callee library callee) = [] :=
        if_pos ⟨hlib, inp.bin.symbols.get?_eq_none_iff.mp hbin⟩
      simp [hwritten, hkeep]

theorem addLibCallback_extends (t : Tables) (dso : Tag) (function : Name) :
    Extends t (inp.addLibCallback t dso function) dso (inp.libEntries dso function) := by
  unfold addLibCallback libEntries
  cases inp.firstLib function with
  | none => exact .refl t dso
  | some p =>
    dsimp only
    cases p.2.get? function with
    | none => exact .refl t dso
    | some a => exact .addOrCreate t dso _

theorem addBinCallback_extends (t : Tables) (dso : Tag) (function : Name) :
    Extends t (inp.addBinCallback t dso function) dso (inp.binEntries t dso function) := by
  unfold addBinCallback binEntries
  cases inp.bin.symbols.get? function with
  | none => exact .refl t dso
  | some a => exact .addUnlessText t dso _ _

theorem addPltCallback_extends (t : Tables) (dso : Tag) (function : Name) (a : Address) :
    Extends t (inp.addPltCallback t dso function a) dso (inp.pltEntries t dso function a) := by
  unfold addPltCallback pltEntries
  dsimp only
  cases h : t.get? dso with
  | none => exact .set_new h
  | some es =>
    dsimp only [Option.getD_some]
    split
    · exact .refl t dso
    · exact .set_append h

theorem addStructCallback_extends (t : Tables) (dso : Tag) (function : Name) :
    Extends t (inp.addStructCallback t dso function) dso
      (inp.written t (.structCallback dso function)) := by
  simp only [addStructCallback, written]
  cases inp.plt_addrs.get? function with
  | some a => exact addPltCallback_extends t dso function a
  | none => exact (addLibCallback_extends t dso function).trans (addBinCallback_extends _ _ _)

theorem addMayStruct_extends {lib : Path} {function : Name}
    (h : inp.addMayStruct t lib function = some t') :
    ∃ tag, Extends t t' tag (inp.written t (.mayStruct lib function)) ∧
      (inp.written t (.mayStruct lib function) ≠ [] → inp.tag lib = some tag) := by
  have hunsupported : ∀ t'' : Tables,
      (if function ∈ inp.call_dict.keys then none else some t) = some t'' → t = t'' := by
    intro t'' h
    split at h
    · cases h
    · exact Option.some_inj.mp h
  unfold addMayStruct at h
  simp only [written]
  cases hbin : inp.bin.symbols.get? function with
  | none =>
    simp only [hbin] at h
    exact ⟨[], hunsupported t' h ▸ .refl t [], fun hne => absurd rfl hne⟩
  | some a =>
    simp only [hbin] at h
    obtain ⟨tag, htag, h⟩ := Option.bind_eq_some_iff.mp h
    obtain ⟨es, hes, h⟩ := Option.bind_eq_some_iff.mp h
    refine ⟨tag, ?_, fun _ => htag⟩
    split at h
    · exact hunsupported t' h ▸ .of_inTable ⟨es, hes, ‹_›⟩
    · exact .append h

-- What a step does to the tables: it writes its entries, and keeps the others unless it makes
-- their table anew.
theorem step_effect (e : Event) (h : inp.step t e = some t') (tag : Tag) (x : Entry) :
    InTable t' tag x ↔ inp.target t e = some tag ∧ x ∈ inp.written t e ∨
      InTable t tag x ∧ ¬inp.Replaces t e tag := by
  cases e with
  | callee library callee => exact addCallee_effect h tag x
  | redirect lib func =>
    simp only [step, addRedirected] at h
    simp only [target, written, Replaces, not_false_eq_true, and_true]
    cases hbin : inp.bin.symbols.get? func with
    | none =>
      simp only [hbin, Option.some_inj] at h
      simp [h]
    | some a =>
      simp only [hbin] at h
      obtain ⟨l, hl, hbind⟩ := Option.bind_eq_some_iff.mp h
      obtain ⟨tagLib, htag, hset⟩ := Option.bind_eq_some_iff.mp hbind
      rw [← Option.some_inj.mp hset, Extends.addOrCreate t tagLib _ tag x, hl, Option.bind_some,
        htag, Option.some_inj, eq_comm (a := tag)]
      simp
  | structCallback dso function =>
    obtain rfl := Option.some_inj.mp h
    rw [addStructCallback_extends t dso function tag x, eq_comm (a := tag)]
    simp [target, Replaces]
  | globalTable dso =>
    obtain rfl := Option.some_inj.mp h
    unfold addGlobalTable
    split
    · simp [written, Replaces]
    · have hnew := t.get?_eq_none_iff.mpr ‹_›
      rw [Extends.set_new hnew tag x]
      simp [written, Replaces]
  | globalSym dso function =>
    simp only [step, addGlobalSym] at h
    simp only [target, written, Replaces, not_false_eq_true, and_true]
    cases hplt : inp.plt_addrs.get? function with
    | none =>
      simp only [hplt, Option.some_inj] at h
      simp [h]
    | some a =>
      simp only [hplt] at h
      rw [Extends.appendNew h tag x, Option.some_inj, eq_comm (a := tag)]
      simp
  | mayStruct lib function =>
    obtain ⟨tagLib, hext, htag⟩ := addMayStruct_extends h
    rw [hext tag x]
    have htarget : tag = tagLib ∧ x ∈ inp.written t (.mayStruct lib function) ↔
        inp.tag lib = some tag ∧ x ∈ inp.written t (.mayStruct lib function) := by
      refine and_congr_left fun hx => ?_
      rw [htag (List.ne_nil_of_mem hx), Option.some_inj, eq_comm]
    rw [htarget]
    simp [target, Replaces]

end Inputs

end Platypus.Parser
