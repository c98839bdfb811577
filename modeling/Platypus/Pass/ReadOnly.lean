import Platypus.Pass.Masked

-- The calls that the pass leaves alone because their target is said to be read-only.

namespace Platypus.Pass.BitMasks

def readOnlyGlobal : Name := "_rtld_global_ro".toList

-- A named struct of the type of the loader's read-only data.
def IsReadOnlyStruct (ty : Ty) : Prop :=
  ∃ name, ty = .struct (some name) ∧ stripStructPrefix name = readOnlyStruct

namespace Analysis

variable (A : Analysis)

-- The target is loaded from a field of the object that `v` is the address of.
def LoadedFrom (F : Func) (callee v : Value) : Prop :=
  ∃ ptr, F.defOf (A.stripPointerCasts F callee) = some (.load ptr) ∧
    ((∃ ty base, F.defOf ptr = some (.gep ty base) ∧ A.stripPointerCasts F base = v) ∨
      ∃ base, ptr = .gepExpr base ∧ A.stripPointerCasts F base = v)

-- The debug type of the argument that a base comes from.
def argumentType (F : Func) (base : Value) : Option Name :=
  ((A.printStructArgTypes F).find? fun info =>
    A.getOriginArgument F (A.stripPointerCasts F base) = some info.1).map Prod.snd

-- A field of an object that is taken for the loader's data by its type or by a name.
inductive ByType (F : Func) (ty : Ty) (base : Value) : Prop
  | argument (name : Name) (harg : A.argumentType F base = some name)
      (hname : stripStructPrefix name = readOnlyStruct)
  | element (harg : A.argumentType F base = none) (hallowed : (A.allowed ty).isSome)
      (hty : IsReadOnlyStruct ty)
  | variable (allocated : Ty) (harg : A.argumentType F base = none) (hty : ty = .i8)
      (hdef : F.defOf (F.unwrapCasts base) = some (.alloca allocated))
      (hallowed : (A.allowed allocated).isSome) (hallocated : IsReadOnlyStruct allocated)
  | global (harg : A.argumentType F base = none) (hty : ty = .i8)
      (hbase : F.unwrapCasts base = .globalVariable readOnlyStruct)

variable {A}

theorem structOrigin_readOnly_iff {name : Name} :
    structOrigin name = .readOnly ↔ stripStructPrefix name = readOnlyStruct := by
  unfold structOrigin
  split <;> simp_all

theorem chainOrigin_ne_readOnly (F : Func) (called : Value) :
    A.chainOrigin F called ≠ .readOnly := by
  unfold chainOrigin
  split <;> simp

theorem allowed_eq_some_iff {ty : Ty} {name : Name} :
    A.allowed ty = some name ↔
      ty = .struct (some name) ∧ stripStructPrefix name ∈ A.struct_names := by
  cases ty with
  | struct tag =>
    cases tag with
    | none => simp [allowed]
    | some tag =>
      by_cases htag : stripStructPrefix tag ∈ A.struct_names
      · simp only [allowed, htag, if_true, Option.some_inj, Ty.struct.injEq]
        constructor
        · rintro rfl
          exact ⟨rfl, htag⟩
        · exact fun h => h.1
      · simp only [allowed, htag, if_false, reduceCtorEq, Ty.struct.injEq, Option.some_inj,
          false_iff, not_and]
        rintro rfl
        exact htag
  | i8 => simp [allowed]
  | other => simp [allowed]

-- An allowed struct decides by its name; nothing else is read-only.
theorem allowedOrigin_readOnly_iff (F : Func) (called : Value) (ty : Ty) :
    (match A.allowed ty with
      | some name => structOrigin name
      | none => A.chainOrigin F called) = .readOnly ↔
      (A.allowed ty).isSome ∧ IsReadOnlyStruct ty := by
  cases hty : A.allowed ty with
  | none => simp [chainOrigin_ne_readOnly]
  | some name =>
    have hname := (allowed_eq_some_iff.mp hty).1
    simp [structOrigin_readOnly_iff, IsReadOnlyStruct, hname]

theorem byteFieldOrigin_readOnly_iff (F : Func) (called base : Value) :
    A.byteFieldOrigin F called base = .readOnly ↔
      F.unwrapCasts base = .globalVariable readOnlyStruct ∨
      ∃ allocated, F.defOf (F.unwrapCasts base) = some (.alloca allocated) ∧
        (A.allowed allocated).isSome ∧ IsReadOnlyStruct allocated := by
  unfold byteFieldOrigin
  split
  · rename_i name hbase
    have hdef : F.defOf (.globalVariable name) = none := rfl
    rw [hbase, hdef]
    by_cases hname : name = readOnlyStruct
    · simp [hname]
    · by_cases hallowed : (A.allowed (A.valueType name)).isSome <;>
        simp [hname, hallowed, chainOrigin_ne_readOnly]
  · rename_i hglobal
    have hne : F.unwrapCasts base ≠ .globalVariable readOnlyStruct := hglobal _
    cases hdef : F.defOf (F.unwrapCasts base) with
    | none => simp [hne, chainOrigin_ne_readOnly]
    | some op =>
      cases op with
      | alloca allocated =>
        simp only [hne, false_or, Option.some_inj, Op.alloca.injEq, exists_eq_left']
        exact allowedOrigin_readOnly_iff F called allocated
      | _ => simp [hne, chainOrigin_ne_readOnly]

-- The debug type of an argument decides first, and then the type of the getelementptr.

theorem byType_argument_iff {F : Func} {ty : Ty} {base : Value} {name : Name}
    (h : A.argumentType F base = some name) :
    A.ByType F ty base ↔ stripStructPrefix name = readOnlyStruct := by
  constructor
  · rintro (⟨name', harg, hname⟩ | ⟨harg, -, -⟩ | ⟨_, harg, -, -, -, -⟩ | ⟨harg, -, -⟩)
    · rw [h] at harg
      cases harg
      exact hname
    all_goals simp [h] at harg
  · exact fun hname => .argument name h hname

section NoArgument

variable {F : Func} {base : Value} (h : A.argumentType F base = none)

include h

theorem byType_struct_iff (tag : Option Name) :
    A.ByType F (.struct tag) base ↔
      (A.allowed (.struct tag)).isSome ∧ IsReadOnlyStruct (.struct tag) := by
  constructor
  · rintro (⟨name, harg, -⟩ | ⟨-, hallowed, hty⟩ | ⟨_, -, hty, -, -, -⟩ | ⟨-, hty, -⟩)
    · simp [h] at harg
    · exact ⟨hallowed, hty⟩
    all_goals cases hty
  · exact fun hty => .element h hty.1 hty.2

theorem byType_i8_iff :
    A.ByType F .i8 base ↔ F.unwrapCasts base = .globalVariable readOnlyStruct ∨
      ∃ allocated, F.defOf (F.unwrapCasts base) = some (.alloca allocated) ∧
        (A.allowed allocated).isSome ∧ IsReadOnlyStruct allocated := by
  constructor
  · rintro (⟨name, harg, -⟩ | ⟨-, hallowed, -⟩ | ⟨ty, -, -, hdef, hallowed, hty⟩ | ⟨-, -, hbase⟩)
    · simp [h] at harg
    · simp [allowed] at hallowed
    · exact .inr ⟨ty, hdef, hallowed, hty⟩
    · exact .inl hbase
  · rintro (hbase | ⟨allocated, hdef, hallowed, hallocated⟩)
    · exact .global h rfl hbase
    · exact .variable allocated h rfl hdef hallowed hallocated

theorem not_byType_other : ¬A.ByType F .other base := by
  rintro (⟨name, harg, -⟩ | ⟨-, hallowed, -⟩ | ⟨_, -, hty, -, -, -⟩ | ⟨-, hty, -⟩)
  · simp [h] at harg
  · simp [allowed] at hallowed
  all_goals cases hty

end NoArgument

theorem fieldOrigin_readOnly_iff (F : Func) (called : Value) (ty : Ty) (base : Value) :
    A.fieldOrigin F called ty base = .readOnly ↔ A.ByType F ty base := by
  have hargument : A.argumentType F base = ((A.printStructArgTypes F).find? fun info =>
      A.getOriginArgument F (A.stripPointerCasts F base) = some info.1).map Prod.snd := rfl
  unfold fieldOrigin
  cases hfind : (A.printStructArgTypes F).find? fun info =>
      A.getOriginArgument F (A.stripPointerCasts F base) = some info.1 with
  | some info =>
    rw [hfind, Option.map_some] at hargument
    simp only [hfind]
    rw [structOrigin_readOnly_iff, byType_argument_iff hargument]
  | none =>
    rw [hfind, Option.map_none] at hargument
    simp only [hfind]
    cases ty with
    | struct tag =>
      refine (allowedOrigin_readOnly_iff F called (.struct tag)).trans ?_
      exact (byType_struct_iff hargument tag).symm
    | i8 =>
      refine (byteFieldOrigin_readOnly_iff F called base).trans ?_
      exact (byType_i8_iff hargument).symm
    | other =>
      exact iff_of_false (chainOrigin_ne_readOnly F called) (not_byType_other hargument)

-- What a load is said to come from.
def loadOrigin (A : Analysis) (F : Func) (called ptr1 : Value) : Option Origin :=
  match F.defOf ptr1 with
  | some (.gep ty base) => some (A.fieldOrigin F called ty base)
  | _ =>
    match ptr1 with
    | .gepExpr base =>
      match A.stripPointerCasts F base with
      | .globalVariable name =>
        if name = readOnlyGlobal then some .readOnly
        else some (A.chainOrigin F called)
      | _ => none
    | _ => some (A.chainOrigin F called)

theorem loadOrigin_readOnly_iff (F : Func) (called ptr : Value) :
    A.loadOrigin F called ptr = some .readOnly ↔
      (∃ ty base, F.defOf ptr = some (.gep ty base) ∧ A.ByType F ty base) ∨
        ∃ base, ptr = .gepExpr base ∧
          A.stripPointerCasts F base = .globalVariable readOnlyGlobal := by
  cases ptr with
  | reg id =>
    unfold loadOrigin
    cases hdef : F.defOf (.reg id) with
    | none => simp [chainOrigin_ne_readOnly]
    | some op =>
      cases op with
      | gep ty base => simp [fieldOrigin_readOnly_iff]
      | _ => simp [chainOrigin_ne_readOnly]
  | gepExpr base =>
    have hdef : F.defOf (.gepExpr base) = none := rfl
    unfold loadOrigin
    cases hbase : A.stripPointerCasts F base with
    | globalVariable name =>
      by_cases hname : name = readOnlyGlobal
      · simp [hdef, hbase, hname]
      · simp [hdef, hbase, hname, chainOrigin_ne_readOnly]
    | _ => simp [hdef, hbase]
  | _ => simp [loadOrigin, Func.defOf, chainOrigin_ne_readOnly]

def calledOrigin (A : Analysis) (F : Func) (called : Value) : Option Origin :=
  match F.defOf called with
  | some (.load ptr) => if A.debugMatch F ptr then some .struct else A.loadOrigin F called ptr
  | _ => some (A.chainOrigin F called)

theorem report_eq (F : Func) (callee : Value) :
    A.reportStructOriginOfIndirCalls F callee =
      match A.stripPointerCasts F callee with
      | .function _ => some .unknown
      | called => A.calledOrigin F called := by
  unfold reportStructOriginOfIndirCalls
  generalize A.stripPointerCasts F callee = called
  cases called with
  | reg id =>
    unfold calledOrigin
    cases F.defOf (.reg id) with
    | none => rfl
    | some op => cases op <;> rfl
  | _ => rfl

-- The five branches that return 2.
theorem report_readOnly_iff (F : Func) (callee : Value) :
    A.reportStructOriginOfIndirCalls F callee = some .readOnly ↔
      ∃ ptr, F.defOf (A.stripPointerCasts F callee) = some (.load ptr) ∧
        A.debugMatch F ptr = false ∧
        ((∃ ty base, F.defOf ptr = some (.gep ty base) ∧ A.ByType F ty base) ∨
          ∃ base, ptr = .gepExpr base ∧
            A.stripPointerCasts F base = .globalVariable readOnlyGlobal) := by
  rw [report_eq]
  generalize A.stripPointerCasts F callee = called
  cases called with
  | reg id =>
    simp only [calledOrigin]
    cases hdef : F.defOf (.reg id) with
    | none => simp [chainOrigin_ne_readOnly]
    | some op =>
      cases op with
      | load ptr =>
        by_cases hmatch : A.debugMatch F ptr
        · simp [hmatch]
        · simp [hmatch, loadOrigin_readOnly_iff]
      | _ => simp [chainOrigin_ne_readOnly]
  | _ => simp [calledOrigin, Func.defOf, chainOrigin_ne_readOnly]

-- The exemption is right exactly when nothing but the loader's object matches by its type.
theorem report_readOnly_sound_iff (A : Analysis) (F : Func) (callee : Value) :
    (A.reportStructOriginOfIndirCalls F callee = some .readOnly →
        A.LoadedFrom F callee (.globalVariable readOnlyGlobal)) ↔
      ∀ ptr ty base, F.defOf (A.stripPointerCasts F callee) = some (.load ptr) →
        A.debugMatch F ptr = false → F.defOf ptr = some (.gep ty base) → A.ByType F ty base →
        A.stripPointerCasts F base = .globalVariable readOnlyGlobal := by
  rw [report_readOnly_iff]
  constructor
  · intro h ptr ty base hload hmatch hgep hby
    obtain ⟨ptr', hload', hfield⟩ := h ⟨ptr, hload, hmatch, .inl ⟨ty, base, hgep, hby⟩⟩
    rw [hload] at hload'
    cases hload'
    rcases hfield with ⟨ty', base', hgep', hbase⟩ | ⟨base', rfl, -⟩
    · rw [hgep] at hgep'
      cases hgep'
      exact hbase
    · cases hgep
  · rintro h ⟨ptr, hload, hmatch, ⟨ty, base, hgep, hby⟩ | ⟨base, hptr, hbase⟩⟩
    · exact ⟨ptr, hload, .inl ⟨ty, base, hgep, h ptr ty base hload hmatch hgep hby⟩⟩
    · exact ⟨ptr, hload, .inr ⟨base, hptr, hbase⟩⟩

end Analysis

-- A function that calls through a field of a copy of the struct on its stack.

def readOnlyAnalysis : Analysis := { plainAnalysis with struct_names := [readOnlyStruct] }

def readOnlyTy : Ty := .struct (some "struct.rtld_global_ro".toList)

def throughCopy : CallBase := { throughArgument with callee := .reg 3 }

def stackCopy : Func where
  name := "copy".toList
  blocks := [⟨0, [⟨1, .alloca readOnlyTy⟩, ⟨2, .gep readOnlyTy (.reg 1)⟩, ⟨3, .load (.reg 2)⟩,
    ⟨4, .call throughCopy⟩]⟩]
  next := 5

theorem stackCopy_readOnly :
    readOnlyAnalysis.reportStructOriginOfIndirCalls stackCopy (.reg 3) = some .readOnly ∧
      readOnlyAnalysis.runFunction stackCopy = some ⟨stackCopy, [4]⟩ ∧
      ¬ readOnlyAnalysis.LoadedFrom stackCopy (.reg 3) (.globalVariable readOnlyGlobal) := by
  refine ⟨by decide, by decide, ?_⟩
  rintro ⟨ptr, hload, hfield⟩
  have hload₃ : stackCopy.defOf (.reg 3) = some (.load (.reg 2)) := by decide
  have hgep₂ : stackCopy.defOf (.reg 2) = some (.gep readOnlyTy (.reg 1)) := by decide
  cases hload₃.symm.trans hload
  rcases hfield with ⟨ty, base, hgep, hbase⟩ | ⟨base, hptr, -⟩
  · cases hgep₂.symm.trans hgep
    cases hbase
  · cases hptr

end Platypus.Pass.BitMasks
