import Platypus.Pass.Function
import Platypus.Search.Visited

-- The argument that a value comes from.

namespace Platypus.Pass.BitMasks

-- The users of a value, in the order of its use list: the stores among them are the stores of the
-- function that have it as an operand.
structure UseLists (F : Func) where
  users : Value → List Op
  store_mem : ∀ a value ptr, .store value ptr ∈ users a ↔
    (∃ I ∈ F.ops, I.op = .store value ptr) ∧ (value = a ∨ ptr = a)

def asArgument : Value → Option Nat
  | .argument Arg => some Arg
  | _ => none

-- The operand that an instruction may hand on.
def Op.origin : Op → Option Value
  | .bitCast operand => some operand
  | .gep _ pointerOperand => some pointerOperand
  | .store storedVal _ => some storedVal
  | _ => none

namespace Func

variable (F : Func) (U : UseLists F)

-- The loop over the users of a stack slot.
def storedValues (impl : List Value → Value → Option (Option Nat × List Value)) (A : Value) :
    List Op → List Value → Option (Option Nat × List Value)
  | [], Visited => some (none, Visited)
  | .store storedVal ptr :: users, Visited =>
    if ptr = A then
      (impl Visited storedVal).bind fun r =>
        match r.1 with
        | some Arg => some (some Arg, r.2)
        | none => storedValues impl A users r.2
    else storedValues impl A users Visited
  | _ :: users, Visited => storedValues impl A users Visited

-- The argument that is found, and the values that were visited; `none` if the recursion is deeper
-- than `fuel`.
def getOriginArgumentImpl : Nat → List Value → Value → Option (Option Nat × List Value)
  | 0, _, _ => none
  | fuel + 1, Visited, V =>
    if V ∈ Visited then some (none, Visited)
    else
      match asArgument V with
      | some Arg => some (some Arg, V :: Visited)
      | none =>
        match F.defOf V with
        | some (.bitCast operand) => getOriginArgumentImpl fuel (V :: Visited) operand
        | some (.gep _ pointerOperand) =>
          getOriginArgumentImpl fuel (V :: Visited) pointerOperand
        | some (.load ptr) =>
          match F.defOf ptr with
          | some (.alloca _) =>
            storedValues (getOriginArgumentImpl fuel) ptr (U.users ptr) (V :: Visited)
          | _ => some (none, V :: Visited)
        | _ => some (none, V :: Visited)

-- The values stored to a stack slot.
def storesTo (A : Value) (users : List Op) : List Value :=
  users.filterMap fun op =>
    match op with
    | .store storedVal ptr => if ptr = A then some storedVal else none
    | _ => none

-- The values that the search goes on with.
def originSteps (V : Value) : List Value :=
  match F.defOf V with
  | some (.bitCast operand) => [operand]
  | some (.gep _ pointerOperand) => [pointerOperand]
  | some (.load ptr) =>
    match F.defOf ptr with
    | some (.alloca _) => storesTo ptr (U.users ptr)
    | _ => []
  | _ => []

-- A value is another one behind a cast or the start of what it points into, or is loaded from a
-- stack slot that the other one is stored to.
inductive ComesFrom : Value → Value → Prop
  | bitCast {V w : Value} : F.defOf V = some (.bitCast w) → ComesFrom V w
  | gep {V w : Value} {ty : Ty} : F.defOf V = some (.gep ty w) → ComesFrom V w
  | slot {V w ptr : Value} {ty : Ty} {I : Instr} : F.defOf V = some (.load ptr) →
      F.defOf ptr = some (.alloca ty) → I ∈ F.ops → I.op = .store w ptr → ComesFrom V w

-- The values that a step can lead to.
def originValues : List Value := F.ops.filterMap fun I => I.op.origin

variable {F U}

theorem storedValues_eq (impl : List Value → Value → Option (Option Nat × List Value)) (A : Value)
    (users : List Op) (Visited : List Value) :
    storedValues impl A users Visited = Search.findIn impl (storesTo A users) Visited := by
  induction users generalizing Visited with
  | nil => rfl
  | cons op users ih =>
    cases op with
    | store storedVal ptr =>
      by_cases hptr : ptr = A
      · have hcons : storesTo A (.store storedVal ptr :: users) =
            storedVal :: storesTo A users := by
          simp [storesTo, hptr]
        rw [storedValues, if_pos hptr, hcons, Search.findIn]
        congr 1
        funext r
        cases r.1 with
        | some Arg => rfl
        | none => exact ih r.2
      · have hcons : storesTo A (.store storedVal ptr :: users) = storesTo A users := by
          simp [storesTo, hptr]
        rw [storedValues, if_neg hptr, hcons]
        exact ih Visited
    | _ => exact ih Visited

theorem getOriginArgumentImpl_eq (fuel : Nat) :
    F.getOriginArgumentImpl U fuel = Search.find (F.originSteps U) asArgument fuel := by
  induction fuel with
  | zero => rfl
  | succ fuel ih =>
    funext Visited V
    rw [getOriginArgumentImpl, Search.find]
    by_cases hmem : V ∈ Visited
    · rw [if_pos hmem, if_pos hmem]
    · rw [if_neg hmem, if_neg hmem, ih]
      cases asArgument V with
      | some Arg => rfl
      | none =>
        dsimp only
        rw [originSteps]
        split
        · exact (Search.findIn_singleton _ _ _).symm
        · exact (Search.findIn_singleton _ _ _).symm
        · split
          · exact storedValues_eq _ _ _ _
          · rfl
        · rfl

theorem mem_storesTo {A w : Value} {users : List Op} :
    w ∈ storesTo A users ↔ .store w A ∈ users := by
  unfold storesTo
  rw [List.mem_filterMap]
  constructor
  · rintro ⟨op, hop, hw⟩
    split at hw
    · obtain ⟨hptr, hw⟩ := Option.ite_none_right_eq_some.mp hw
      cases hw
      exact hptr ▸ hop
    · cases hw
  · exact fun hmem => ⟨_, hmem, if_pos rfl⟩

theorem mem_ops_of_defOf {V : Value} {op : Op} (h : F.defOf V = some op) :
    ∃ I ∈ F.ops, I.op = op := by
  cases V with
  | reg id =>
    obtain ⟨I, hI, hop⟩ := Option.map_eq_some_iff.mp h
    exact ⟨I, List.mem_of_find?_eq_some hI, hop⟩
  | _ => cases h

theorem mem_originSteps {V w : Value} : w ∈ F.originSteps U V ↔ F.ComesFrom V w := by
  constructor
  · intro h
    unfold originSteps at h
    split at h
    · rename_i hdef
      cases List.mem_singleton.mp h
      exact .bitCast hdef
    · rename_i hdef
      cases List.mem_singleton.mp h
      exact .gep hdef
    · rename_i ptr hdef
      split at h
      · rename_i hptr
        obtain ⟨⟨I, hI, hop⟩, -⟩ := (U.store_mem ptr w ptr).mp (mem_storesTo.mp h)
        exact .slot hdef hptr hI hop
      · cases h
    · cases h
  · intro h
    cases h with
    | bitCast hdef => simp [originSteps, hdef]
    | gep hdef => simp [originSteps, hdef]
    | @slot ptr _ I hdef hptr hI hop =>
      simp only [originSteps, hdef, hptr]
      exact mem_storesTo.mpr ((U.store_mem ptr w ptr).mpr ⟨⟨I, hI, hop⟩, .inr rfl⟩)

theorem reach_originSteps :
    Search.Reach (F.originSteps U) = Relation.ReflTransGen F.ComesFrom := by
  have hstep : (fun V w => w ∈ F.originSteps U V) = F.ComesFrom := by
    funext V w
    exact propext mem_originSteps
  rw [Search.Reach, hstep]

-- Steps stay among the operands of the function.
theorem originSteps_subset {V w : Value} (h : w ∈ F.originSteps U V) : w ∈ F.originValues := by
  have hvalue {op : Op} (hop : ∃ I ∈ F.ops, I.op = op) (hw : op.origin = some w) :
      w ∈ F.originValues := by
    obtain ⟨I, hI, rfl⟩ := hop
    exact List.mem_filterMap.mpr ⟨I, hI, hw⟩
  cases mem_originSteps.mp h with
  | bitCast hdef => exact hvalue (mem_ops_of_defOf hdef) rfl
  | gep hdef => exact hvalue (mem_ops_of_defOf hdef) rfl
  | slot _ _ hI hop => exact hvalue ⟨_, hI, hop⟩ rfl

-- Enough recursion for any value.
theorem getOriginArgumentImpl_searched (V : Value) {fuel : Nat} (hfuel : F.ops.length + 1 < fuel) :
    ∃ r Visited, F.getOriginArgumentImpl U fuel [] V = some (r, Visited) ∧
      Search.Searched (F.originSteps U) asArgument [V] [] r Visited := by
  rw [getOriginArgumentImpl_eq]
  refine Search.find_searched (V :: F.originValues).toFinset ?_ ?_ (by simp)
  · intro x _ w hw
    exact List.mem_toFinset.mpr (List.mem_cons_of_mem V (originSteps_subset hw))
  · have hcard : (V :: F.originValues).toFinset.card ≤ F.ops.length + 1 :=
      (List.toFinset_card_le _).trans (Nat.succ_le_succ (List.length_filterMap_le _ _))
    exact (Finset.card_le_card Finset.sdiff_subset).trans_lt (hcard.trans_lt hfuel)

def getOriginArgument (F : Func) (U : UseLists F) (V : Value) : Option (Option Nat) :=
  (F.getOriginArgumentImpl U (F.ops.length + 2) [] V).map Prod.fst

-- The search ends, and finds an argument exactly if there is one to be found.
theorem getOriginArgument_iff (F : Func) (U : UseLists F) (V : Value) :
    ∃ r, F.getOriginArgument U V = some r ∧
      (∀ Arg, r = some Arg → Relation.ReflTransGen F.ComesFrom V (.argument Arg)) ∧
      (r.isSome ↔ ∃ Arg, Relation.ReflTransGen F.ComesFrom V (.argument Arg)) := by
  rw [← reach_originSteps (U := U)]
  obtain ⟨r, Visited, himpl, hsearched⟩ :=
    getOriginArgumentImpl_searched (F := F) (U := U) V (Nat.lt_succ_self (F.ops.length + 1))
  have hargument {x : Value} {Arg : Nat} (hx : asArgument x = some Arg) : x = .argument Arg := by
    cases x with
    | argument argNo => cases hx; rfl
    | _ => cases hx
  refine ⟨r, by rw [getOriginArgument, himpl]; rfl, fun Arg hr => ?_, ?_⟩
  · obtain ⟨v, hv, x, hreach, hx⟩ := hsearched.found Arg hr
    rw [List.mem_singleton.mp hv, hargument hx] at hreach
    exact hreach
  · rw [hsearched.isSome_iff]
    constructor
    · rintro ⟨x, hreach, hx⟩
      obtain ⟨Arg, hArg⟩ := Option.isSome_iff_exists.mp hx
      exact ⟨Arg, hargument hArg ▸ hreach⟩
    · rintro ⟨Arg, hreach⟩
      exact ⟨.argument Arg, hreach, rfl⟩

end Func

-- The stores of a value in the order of the function.
def programOrder (F : Func) : UseLists F where
  users a := (F.ops.map Instr.op).filter fun op =>
    match op with
    | .store value ptr => value = a || ptr = a
    | _ => false
  store_mem a value ptr := by simp

-- Two slots whose values go round in a circle, one of which also gets the second argument.
def slotCycle : Func where
  name := "f".toList
  blocks := [⟨0, [⟨0, .alloca .i8⟩, ⟨1, .alloca .i8⟩, ⟨2, .load (.reg 0)⟩,
    ⟨3, .store (.reg 2) (.reg 1)⟩, ⟨4, .load (.reg 1)⟩, ⟨5, .store (.reg 4) (.reg 0)⟩,
    ⟨6, .store (.argument 1) (.reg 1)⟩]⟩]
  next := 7

example : slotCycle.getOriginArgument (programOrder slotCycle) (.reg 2) = some (some 1) := by decide

end Platypus.Pass.BitMasks
