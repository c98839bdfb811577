import Mathlib
import Platypus.Loader.Lookup

-- Which definition of a dispatcher the loader binds.

namespace Platypus.Loader

-- The function that `emit_callback_functions` writes for a key of the masks.
def dispatcherName (key : Name) : Name :=
  if key = "LIBC".toList then "callback_table".toList
  else key.map Char.toLower ++ "_callback_table".toList

-- The lookup gives the main program's definition.
def BindsMain (env : Env) (q : Query) (scopes : List (List Module)) : Prop :=
  ∃ sym, lookupSymbolX env q scopes = .found ⟨sym, env.main⟩

-- The main program's definition comes first: by its name, or by the order of the scopes.
def MainFirst (env : Env) (q : Query) (scopes : List (List Module)) : Prop :=
  (q.undef_name = "callback_table".toList ∧ scopes ≠ []) ∨
    (startAt q scopes).flatten.find? (fun m => (decides env q m).isSome) = some env.main

-- What is asked of the main program: it defines the name, and no unique symbol of another
-- module stands for it.
structure DefinesName (env : Env) (q : Query) (sym : Sym) : Prop where
  defined : decides env q env.main = some ⟨sym, env.main⟩
  not_unique : ∀ v, env.unique q.undef_name = some v → v.m ≠ env.main

section Main

variable {env : Env} {q : Query} {sym : Sym} {scopes : List (List Module)}

theorem startAt_ne_nil (h : scopes ≠ []) : startAt q scopes ≠ [] := by
  obtain ⟨scope, scopes, rfl⟩ := List.exists_cons_of_ne_nil h
  unfold startAt
  cases q.skip_map with
  | none => exact List.cons_ne_nil _ _
  | some skip => exact List.cons_ne_nil _ _

theorem findSome?_of_find? {ms : List Module} {m : Module}
    (h : ms.find? (fun m => (decides env q m).isSome) = some m) :
    ms.findSome? (decides env q) = decides env q m := by
  induction ms with
  | nil => cases h
  | cons head ms ih =>
    rw [List.find?_cons] at h
    rw [List.findSome?_cons]
    cases hhead : decides env q head with
    | none =>
      rw [hhead] at h
      exact ih h
    | some v =>
      rw [hhead] at h
      cases h
      exact hhead.symm

theorem lookupScopes_of_mainFirst (hdef : DefinesName env q sym) (hfirst : MainFirst env q scopes) :
    lookupScopes env q none (startAt q scopes) = some ⟨sym, env.main⟩ := by
  by_cases hname : q.undef_name = "callback_table".toList
  · have hscopes : startAt q scopes ≠ [] := by
      rcases hfirst with ⟨-, hscopes⟩ | hfind
      · exact startAt_ne_nil hscopes
      · intro hnil
        rw [hnil] at hfind
        cases hfind
    exact lookupScopes_main hname hdef.defined hscopes
  · rcases hfirst with ⟨hname', -⟩ | hfind
    · exact absurd hname' hname
    · refine lookupScopes_of_decides hname _ ?_ none
      rw [findSome?_of_find? hfind, hdef.defined]

-- Otherwise another module's definition is found, or none.
theorem lookupScopes_of_not_mainFirst (hdef : DefinesName env q sym)
    (hfirst : ¬ MainFirst env q scopes) :
    ∀ v ∈ lookupScopes env q none (startAt q scopes), v.m ≠ env.main := by
  intro v hv
  have hfind : (startAt q scopes).flatten.find? (fun m => (decides env q m).isSome) ≠ some env.main :=
    fun h => hfirst (.inr h)
  by_cases hname : q.undef_name = "callback_table".toList
  · have hscopes : scopes = [] := by
      by_contra h
      exact hfirst (.inl ⟨hname, h⟩)
    rw [hscopes, startAt, lookupScopes] at hv
    cases hv
  cases hm : (startAt q scopes).flatten.find? (fun m => (decides env q m).isSome) with
  | some m =>
    have hsome := List.find?_some hm
    obtain ⟨w, hw⟩ := Option.isSome_iff_exists.mp hsome
    rw [lookupScopes_of_decides hname _ ((findSome?_of_find? hm).trans hw)] at hv
    cases hv
    rcases decides_module hw with hmod | hunique
    · intro hmain
      rw [hm] at hfind
      exact hfind (congrArg some (hmod.symm.trans hmain))
    · exact hdef.not_unique _ hunique
  | none =>
    rw [List.find?_eq_none] at hm
    have hnone : (startAt q scopes).flatten.findSome? (decides env q) = none := by
      rw [List.findSome?_eq_none_iff]
      intro m hmem
      exact Option.not_isSome_iff_eq_none.mp (hm m hmem)
    obtain ⟨weak, hlookup, hweak⟩ := lookupScopes_of_not_decides hname _ hnone none
    rw [hlookup, Option.none_or] at hv
    intro hmain
    have := hm _ (hmain ▸ hweak v hv)
    rw [hdef.defined] at this
    exact this rfl

-- A dispatcher that the main program defines is bound to that definition exactly if it is the
-- one of LIBC or the scopes lead to the main program first, and the reference is not to a
-- protected definition that the loader keeps in the referring module.
theorem lookupSymbolX_bindsMain_iff (env : Env) (key : Name) (q : Query)
    (scopes : List (List Module)) (sym : Sym) (hname : q.undef_name = dispatcherName key)
    (hdef : DefinesName env q sym) (hfree : env.placeholders.find (dispatcherName key) = none)
    (hown : isProtected q = true → q.undef_map ≠ env.main) :
    BindsMain env q scopes ↔
      MainFirst env q scopes ∧ bindsProtected env q scopes ⟨sym, env.main⟩ = false := by
  unfold BindsMain lookupSymbolX
  rw [hname, hfree]
  dsimp only
  by_cases hfirst : MainFirst env q scopes
  · rw [lookupScopes_of_mainFirst hdef hfirst]
    dsimp only
    cases hprot : bindsProtected env q scopes ⟨sym, env.main⟩ with
    | false => exact ⟨fun _ => ⟨hfirst, rfl⟩, fun _ => ⟨sym, rfl⟩⟩
    | true =>
      refine ⟨?_, fun h => absurd h.2.symm Bool.false_ne_true⟩
      rintro ⟨s, hs⟩
      rw [if_pos rfl, LookupResult.found.injEq, SymVal.mk.injEq] at hs
      exact absurd hs.2 (hown (Bool.and_eq_true_iff.mp hprot).1)
  · refine ⟨?_, fun h => absurd h.1 hfirst⟩
    rintro ⟨s, hs⟩
    have hother := lookupScopes_of_not_mainFirst hdef hfirst
    cases hlookup : lookupScopes env q none (startAt q scopes) with
    | none =>
      rw [hlookup] at hs
      dsimp only at hs
      split_ifs at hs
    | some v =>
      rw [hlookup] at hs
      dsimp only at hs
      by_cases hprot : bindsProtected env q scopes v = true
      · rw [if_pos hprot, LookupResult.found.injEq, SymVal.mk.injEq] at hs
        exact absurd hs.2 (hown (Bool.and_eq_true_iff.mp hprot).1)
      · rw [if_neg hprot, LookupResult.found.injEq] at hs
        exact absurd (congrArg SymVal.m hs) (hother v hlookup)

end Main

-- A module that exports one function.
def exporting (id : Nat) (name : Name) : Module :=
  { id := id, symtab := [{ st_name := name, st_value := 0x1040#64 }] }

-- A reference to the name from a library, through its PLT.
def pltQuery (name : Name) (lib : Module) : Query :=
  { undef_name := name, undef_map := lib, classPlt := true }

theorem exporting_definesName (id : Nat) (name : Name) (lib : Module) :
    DefinesName { main := exporting id name } (pltQuery name lib)
      { st_name := name, st_value := 0x1040#64 } where
  defined := by
    simp [decides, lookupIn, passesOver, findSym, checkMatch, bindsLocal, pltQuery, exporting]
  not_unique := by
    intro v hv
    cases hv

-- A library that comes before the main program in the scope gives its own table of CRYPTO.
theorem lookupSymbolX_not_bindsMain :
    ∃ (env : Env) (q : Query) (scopes : List (List Module)) (sym : Sym),
      q.undef_name = dispatcherName "CRYPTO".toList ∧ DefinesName env q sym ∧
        lookupSymbolX env q scopes = .found ⟨sym, exporting 1 (dispatcherName "CRYPTO".toList)⟩ ∧
        ¬ BindsMain env q scopes := by
  have hlookup : lookupSymbolX { main := exporting 0 (dispatcherName "CRYPTO".toList) }
      (pltQuery (dispatcherName "CRYPTO".toList) (exporting 1 (dispatcherName "CRYPTO".toList)))
      [[exporting 1 (dispatcherName "CRYPTO".toList), exporting 0 (dispatcherName "CRYPTO".toList)]] =
      .found ⟨{ st_name := dispatcherName "CRYPTO".toList, st_value := 0x1040#64 },
        exporting 1 (dispatcherName "CRYPTO".toList)⟩ := by
    decide
  refine ⟨_, _, _, _, rfl, exporting_definesName 0 _ _, hlookup, ?_⟩
  rintro ⟨s, hs⟩
  rw [hlookup, LookupResult.found.injEq, SymVal.mk.injEq] at hs
  exact absurd (congrArg Module.id hs.2) (by decide)

-- The dispatcher of LIBC is the main program's in the same scope.
theorem lookupSymbolX_bindsMain_libc :
    BindsMain { main := exporting 0 (dispatcherName "LIBC".toList) }
      (pltQuery (dispatcherName "LIBC".toList) (exporting 1 (dispatcherName "LIBC".toList)))
      [[exporting 1 (dispatcherName "LIBC".toList), exporting 0 (dispatcherName "LIBC".toList)]] :=
  (lookupSymbolX_bindsMain_iff _ "LIBC".toList _ _ _ rfl (exporting_definesName 0 _ _)
    (by decide) (fun h => absurd h Bool.false_ne_true)).mpr
      ⟨.inl ⟨by decide, List.cons_ne_nil _ _⟩, by decide⟩

end Platypus.Loader
