import Platypus.Search.Bounded

-- The pass `LogStructs`: whether a struct leads to a function pointer.

namespace Platypus.Pass.LogStructs

open Search

inductive DerivedTag
  | typedef
  | const
  | pointer
  -- `volatile`, `restrict`, `_Atomic`
  | qualifier
  -- a reference and so on
  | other
  deriving DecidableEq, Repr

-- A type in debug information. `void` is the null pointer of the source.
inductive DIType
  | void
  | basic
  | subroutine
  | derived (tag : DerivedTag) (base : DIType)
  | composite (id : Nat)
  deriving DecidableEq, Repr

-- A member with its type, or a subrange, an enumerator and so on.
inductive Element
  | derived (base : DIType)
  | other
  deriving DecidableEq, Repr

structure Composite where
  isArray : Bool
  -- the type of the elements of an array
  base : DIType
  elements : List Element
  deriving DecidableEq, Repr

-- The composite types of a module by number. An array has subranges only.
structure Types where
  composite : Nat → Composite
  arrays : ∀ a, (composite a).isArray = true → ∀ ty, .derived ty ∉ (composite a).elements

def stripTypedefs : DIType → DIType
  | .derived .typedef base => stripTypedefs base
  | ty => ty

-- The loop over `typedef` and `const`.
def stripQualified : DIType → DIType
  | .derived .typedef base => stripQualified base
  | .derived .const base => stripQualified base
  | ty => ty

def isFunctionPointerType (ty : DIType) : Bool :=
  match stripTypedefs ty with
  | .derived .pointer base => stripTypedefs base = .subroutine
  | _ => false

-- The struct that a field of the type contains or points to.
def subStruct : DIType → Option Nat
  | .derived .pointer pointee =>
    match stripQualified pointee with
    | .composite id => some id
    | _ => none
  | .composite id => some id
  | _ => none

-- What one turn of the loop over the elements does. C has no member of type `void`, for which the
-- source casts a null pointer.
def fieldSteps (fieldTy : DIType) : List (Option Nat) :=
  if isFunctionPointerType (stripQualified fieldTy) then [none]
  else (subStruct (stripQualified fieldTy)).toList.map some

def elementSteps : Element → List (Option Nat)
  | .derived base => fieldSteps base
  | .other => []

namespace Types

variable (T : Types)

def structSteps (ct : Nat) : List (Option Nat) := (T.composite ct).elements.flatMap elementSteps

-- The depths 0 to 8.
def structHasFunctionPointerField (ct : Nat) : Bool := (search T.structSteps 9 [] ct).1

end Types

-- What the function is for, in terms of the members of a struct.

def unqualified : DIType → DIType
  | .derived .typedef base => unqualified base
  | .derived .const base => unqualified base
  | .derived .qualifier base => unqualified base
  | ty => ty

def IsFunctionPointer (ty : DIType) : Prop :=
  ∃ base, unqualified ty = .derived .pointer base ∧ unqualified base = .subroutine

namespace Types

variable (T : Types)

-- A type that is a struct, points to one or is an array of them.
inductive LeadsTo (ty : DIType) (sub : Nat) : Prop
  | nested : unqualified ty = .composite sub → LeadsTo ty sub
  | pointed {base : DIType} : unqualified ty = .derived .pointer base →
      unqualified base = .composite sub → LeadsTo ty sub
  | element {a : Nat} : unqualified ty = .composite a → (T.composite a).isArray = true →
      unqualified (T.composite a).base = .composite sub → LeadsTo ty sub

def IsMember (ct : Nat) (ty : DIType) : Prop := .derived ty ∈ (T.composite ct).elements

def HasFunctionPointer (ct : Nat) : Prop := ∃ ty, T.IsMember ct ty ∧ IsFunctionPointer ty

def StructField (ct sub : Nat) : Prop :=
  (T.composite sub).isArray = false ∧ ∃ ty, T.IsMember ct ty ∧ T.LeadsTo ty sub

-- A function pointer behind at most `n` levels of fields.
def LeadsToPointer (n ct : Nat) : Prop :=
  ∃ k sub, k ≤ n ∧ Chain T.StructField k ct sub ∧ T.HasFunctionPointer sub

-- The same types with their fields in another order.
structure Reorders (T' T : Types) : Prop where
  isArray : ∀ c, (T'.composite c).isArray = (T.composite c).isArray
  base : ∀ c, (T'.composite c).base = (T.composite c).base
  elements : ∀ c, (T'.composite c).elements.Perm (T.composite c).elements

end Types

@[simp]
theorem unqualified_stripQualified (ty : DIType) :
    unqualified (stripQualified ty) = unqualified ty := by
  induction ty with
  | derived tag base ih => cases tag <;> simp [stripQualified, unqualified, ih]
  | _ => rfl

@[simp]
theorem unqualified_stripTypedefs (ty : DIType) :
    unqualified (stripTypedefs ty) = unqualified ty := by
  induction ty with
  | derived tag base ih => cases tag <;> simp [stripTypedefs, unqualified, ih]
  | _ => rfl

-- What the source takes for a function pointer or a struct is one.

theorem isFunctionPointer_of_isFunctionPointerType {ty : DIType}
    (h : isFunctionPointerType (stripQualified ty) = true) : IsFunctionPointer ty := by
  rw [isFunctionPointerType] at h
  split at h
  · rename_i base hty
    refine ⟨base, ?_, ?_⟩
    · rw [← unqualified_stripQualified, ← unqualified_stripTypedefs, hty]
      rfl
    · rw [← unqualified_stripTypedefs, of_decide_eq_true h]
      rfl
  · cases h

theorem Types.leadsTo_of_subStruct {T : Types} {ty : DIType} {sub : Nat}
    (h : subStruct (stripQualified ty) = some sub) : T.LeadsTo ty sub := by
  rw [subStruct.eq_def] at h
  split at h
  · rename_i pointee hty
    split at h
    · rename_i hpointee
      cases h
      refine .pointed (?_ : unqualified ty = .derived .pointer pointee) ?_
      · rw [← unqualified_stripQualified, hty]
        rfl
      · rw [← unqualified_stripQualified, hpointee]
        rfl
    · cases h
  · rename_i hty
    cases h
    refine .nested ?_
    rw [← unqualified_stripQualified, hty]
    rfl
  · cases h

namespace Types

variable {T T' : Types}

theorem exists_of_mem_structSteps {ct : Nat} {o : Option Nat} (h : o ∈ T.structSteps ct) :
    ∃ ty, T.IsMember ct ty ∧ o ∈ fieldSteps ty := by
  obtain ⟨e, he, ho⟩ := List.mem_flatMap.mp h
  cases e with
  | derived ty => exact ⟨ty, he, ho⟩
  | other => cases ho

theorem hasFunctionPointer_of_goal {ct : Nat} (h : Goal T.structSteps ct) :
    T.HasFunctionPointer ct := by
  obtain ⟨ty, hty, hmem⟩ := exists_of_mem_structSteps h
  refine ⟨ty, hty, isFunctionPointer_of_isFunctionPointerType ?_⟩
  by_contra hnot
  simp [fieldSteps, hnot] at hmem

theorem leadsTo_of_next {ct sub : Nat} (h : Next T.structSteps ct sub) :
    ∃ ty, T.IsMember ct ty ∧ T.LeadsTo ty sub := by
  obtain ⟨ty, hty, hmem⟩ := exists_of_mem_structSteps h
  refine ⟨ty, hty, leadsTo_of_subStruct ?_⟩
  by_cases hpointer : isFunctionPointerType (stripQualified ty) = true
  · simp [fieldSteps, hpointer] at hmem
  · simpa [fieldSteps, hpointer] using hmem

-- The search enters arrays, and finds nothing there.
theorem isArray_eq_false {ct : Nat} {o : Option Nat} (h : o ∈ T.structSteps ct) :
    (T.composite ct).isArray = false := by
  obtain ⟨ty, hty, -⟩ := exists_of_mem_structSteps h
  by_contra harray
  exact T.arrays ct (by simpa using harray) ty hty

theorem chain_structField {k x y : Nat} (h : Chain (Next T.structSteps) k x y)
    (hy : (T.composite y).isArray = false) : Chain T.StructField k x y := by
  induction h with
  | nil x => exact .nil x
  | cons hnext hrest ih =>
    refine .cons ⟨?_, leadsTo_of_next hnext⟩ (ih hy)
    cases hrest with
    | nil => exact hy
    | cons hnext' _ => exact isArray_eq_false hnext'

theorem leadsToPointer_of_goalWithin {n ct : Nat} (h : GoalWithin T.structSteps n ct) :
    T.LeadsToPointer n ct := by
  obtain ⟨k, sub, hk, hchain, hgoal⟩ := h
  exact ⟨k, sub, hk, chain_structField hchain (isArray_eq_false hgoal),
    hasFunctionPointer_of_goal hgoal⟩

theorem Reorders.refl (T : Types) : T.Reorders T := ⟨fun _ => rfl, fun _ => rfl, fun _ => .refl _⟩

theorem Reorders.isMember (h : T'.Reorders T) : T'.IsMember = T.IsMember := by
  funext ct ty
  exact propext (h.elements ct).mem_iff

theorem Reorders.leadsTo {ty : DIType} {sub : Nat} (h : T'.Reorders T) (hsub : T'.LeadsTo ty sub) :
    T.LeadsTo ty sub := by
  cases hsub with
  | nested hty => exact .nested hty
  | pointed hty hbase => exact .pointed hty hbase
  | @element a hty harray hbase => exact .element hty (h.isArray a ▸ harray) (h.base a ▸ hbase)

theorem Reorders.leadsToPointer {n ct : Nat} (h : T'.Reorders T) (hlead : T'.LeadsToPointer n ct) :
    T.LeadsToPointer n ct := by
  obtain ⟨k, sub, hk, hchain, hsub⟩ := hlead
  rw [HasFunctionPointer, h.isMember] at hsub
  refine ⟨k, sub, hk, ?_, hsub⟩
  clear hsub hk
  induction hchain with
  | nil x => exact .nil x
  | cons hfield _ ih =>
    obtain ⟨harray, ty, hty, hlead⟩ := hfield
    exact .cons ⟨h.isArray _ ▸ harray, ty, h.isMember ▸ hty, h.leadsTo hlead⟩ ih

-- The function is right and does not depend on the order of the fields exactly if, where a function
-- pointer is to be found, in every order of the fields an entered chain ends at a struct with one.
theorem structHasFunctionPointerField_iff (T : Types) (ct : Nat) :
    ((T.structHasFunctionPointerField ct = true ↔ T.LeadsToPointer 8 ct) ∧
        ∀ T' : Types, T'.Reorders T →
          T'.structHasFunctionPointerField ct = T.structHasFunctionPointerField ct) ↔
      (T.LeadsToPointer 8 ct → ∀ T' : Types, T'.Reorders T → EntersGoal T'.structSteps 8 ct) := by
  constructor
  · rintro ⟨hexact, horder⟩ hlead T' hT'
    exact search_iff.mp ((horder T' hT').trans (hexact.mpr hlead))
  · intro h
    have hexact : ∀ T' : Types, T'.Reorders T →
        (T'.structHasFunctionPointerField ct = true ↔ T.LeadsToPointer 8 ct) := by
      intro T' hT'
      refine ⟨fun hfound => ?_, fun hlead => search_iff.mpr (h hlead T' hT')⟩
      exact hT'.leadsToPointer (leadsToPointer_of_goalWithin (search_iff.mp hfound).goalWithin)
    have hself := hexact T (.refl T)
    exact ⟨hself, fun T' hT' => Bool.eq_iff_iff.mpr ((hexact T' hT').trans hself.symm)⟩

end Types

-- Structs with members only.
def structs (members : Nat → List DIType) : Types where
  composite c := ⟨false, .void, (members c).map .derived⟩
  arrays _ h := by cases h

def functionPointer : DIType := .derived .pointer .subroutine

def pointerTo (c : Nat) : DIType := .derived .pointer (.composite c)

-- Eight pointers in a row to a struct that leads to a callback, and one pointer to it.
def forkTypes (first second : Nat) : Types :=
  structs fun c =>
    if c = 0 then [pointerTo first, pointerTo second]
    else if c = 9 then [functionPointer]
    else [pointerTo (c + 1)]

-- A table of structs with a callback.
def tableTypes : Types where
  composite c :=
    if c = 0 then ⟨false, .void, [.derived (.composite 1)]⟩
    else if c = 1 then ⟨true, .composite 2, [.other]⟩
    else ⟨false, .void, [.derived functionPointer]⟩
  arrays a h := by
    by_cases h0 : a = 0
    · simp [h0] at h
    · by_cases h1 : a = 1
      · simp [h1]
      · simp [h0, h1] at h

-- `void (*volatile fp)(void)`
def volatileTypes : Types := structs fun _ => [.derived .qualifier functionPointer]

theorem structHasFunctionPointerField_misses :
    (forkTypes 1 8).structHasFunctionPointerField 0 = false ∧
      (forkTypes 8 1).structHasFunctionPointerField 0 = true ∧
      tableTypes.structHasFunctionPointerField 0 = false ∧ tableTypes.LeadsToPointer 1 0 ∧
      volatileTypes.structHasFunctionPointerField 0 = false ∧
      volatileTypes.LeadsToPointer 0 0 := by
  have hmember : tableTypes.IsMember 0 (.composite 1) := by simp [Types.IsMember, tableTypes]
  have hfield : tableTypes.StructField 0 2 :=
    ⟨rfl, .composite 1, hmember, .element (a := 1) rfl rfl rfl⟩
  refine ⟨by decide, by decide, by decide, ⟨1, 2, Nat.le_refl 1, .cons hfield (.nil 2),
    functionPointer, ?_, .subroutine, rfl, rfl⟩, by decide, 0, 0, Nat.le_refl 0, .nil 0,
    .derived .qualifier functionPointer, ?_, .subroutine, rfl, rfl⟩
  · simp [Types.IsMember, tableTypes]
  · simp [Types.IsMember, volatileTypes, structs]

end Platypus.Pass.LogStructs
