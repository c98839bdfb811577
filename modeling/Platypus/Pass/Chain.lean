import Platypus.Pass.Masked

-- The search for an allowed struct along the chains of values behind a called pointer.

namespace Platypus.Pass.BitMasks

namespace Analysis

-- One step of a chain.
def ChainStep (F : Func) (v w : Value) : Prop := w ∈ F.chainOperands v

-- A chain of at most `n` steps reaches a value that the tests recognise.
def ReachesAllowed (A : Analysis) (F : Func) (n : Nat) (v : Value) : Prop :=
  ∃ k w, k ≤ n ∧ Search.Chain (ChainStep F) k v w ∧ A.chainMatch F w = true

variable {A : Analysis} {F : Func}

theorem goal_chainSteps_iff {v : Value} :
    Search.Goal (A.chainSteps F) v ↔ A.chainMatch F v = true := by
  unfold Search.Goal chainSteps
  by_cases hmatch : A.chainMatch F v = true <;> simp [hmatch]

theorem next_chainSteps_iff {v w : Value} :
    Search.Next (A.chainSteps F) v w ↔ A.chainMatch F v = false ∧ ChainStep F v w := by
  unfold Search.Next chainSteps ChainStep
  by_cases hmatch : A.chainMatch F v = true <;> simp [hmatch]

-- The search does not go on behind a value that is recognised; the first one on a chain is enough.
theorem goalWithin_of_chain {n : Nat} {v w : Value} (h : Search.Chain (ChainStep F) n v w)
    (hmatch : A.chainMatch F w = true) : Search.GoalWithin (A.chainSteps F) n v := by
  induction h with
  | nil v => exact ⟨0, v, le_rfl, .nil v, goal_chainSteps_iff.mpr hmatch⟩
  | @cons n u v w huv _ ih =>
    by_cases hu : A.chainMatch F u = true
    · exact ⟨0, u, Nat.zero_le _, .nil u, goal_chainSteps_iff.mpr hu⟩
    · have hnext : Search.Next (A.chainSteps F) u v :=
        next_chainSteps_iff.mpr ⟨by simpa using hu, huv⟩
      exact (ih hmatch).of_next hnext

theorem chain_of_chain {n : Nat} {v w : Value}
    (h : Search.Chain (Search.Next (A.chainSteps F)) n v w) :
    Search.Chain (ChainStep F) n v w := by
  induction h with
  | nil v => exact .nil v
  | cons huv _ ih => exact .cons (next_chainSteps_iff.mp huv).2 ih

theorem goalWithin_chainSteps_iff {n : Nat} {v : Value} :
    Search.GoalWithin (A.chainSteps F) n v ↔ A.ReachesAllowed F n v := by
  constructor
  · rintro ⟨k, w, hk, hchain, hgoal⟩
    exact ⟨k, w, hk, chain_of_chain hchain, goal_chainSteps_iff.mp hgoal⟩
  · rintro ⟨k, w, hk, hchain, hmatch⟩
    obtain ⟨j, x, hj, hchain', hgoal⟩ := goalWithin_of_chain hchain hmatch
    exact ⟨j, x, hj.trans hk, hchain', hgoal⟩

-- The search is right exactly if, where there is something to find, a chain that it enters ends
-- there: one that comes before every other entered chain to a value on it.
theorem resolveChain_iff (A : Analysis) (F : Func) (v : Value) :
    (A.resolveChainForAllowedStruct F v = true ↔ A.ReachesAllowed F 8 v) ↔
      (A.ReachesAllowed F 8 v → Search.EntersGoal (A.chainSteps F) 8 v) := by
  rw [← goalWithin_chainSteps_iff]
  exact Search.search_exact_iff

end Analysis

-- Values of which the argument is recognised.
def argumentAnalysis : Analysis :=
  { plainAnalysis with
    isValuePointerToAllowedStruct_ViaDbgRecord := fun _ v => decide (v = .argument 0) }

-- A select of two chains to a field of the argument: `reg 2` is eight steps from it, `reg 9` one.
def forkFunc (first second : Value) : Func where
  name := "fork".toList
  blocks := [⟨0, [⟨1, .select (.constant 0) first second⟩, ⟨2, .gep .other (.reg 3)⟩,
    ⟨3, .gep .other (.reg 4)⟩, ⟨4, .gep .other (.reg 5)⟩, ⟨5, .gep .other (.reg 6)⟩,
    ⟨6, .gep .other (.reg 7)⟩, ⟨7, .gep .other (.reg 8)⟩, ⟨8, .gep .other (.reg 9)⟩,
    ⟨9, .gep .other (.argument 0)⟩]⟩]
  next := 10

theorem forkFunc_missed :
    argumentAnalysis.resolveChainForAllowedStruct (forkFunc (.reg 2) (.reg 9)) (.reg 1) = false ∧
      argumentAnalysis.ReachesAllowed (forkFunc (.reg 2) (.reg 9)) 2 (.reg 1) := by
  have hfork : Analysis.ChainStep (forkFunc (.reg 2) (.reg 9)) (.reg 1) (.reg 9) := by
    unfold Analysis.ChainStep
    decide
  have hfield : Analysis.ChainStep (forkFunc (.reg 2) (.reg 9)) (.reg 9) (.argument 0) := by
    unfold Analysis.ChainStep
    decide
  refine ⟨by decide, 2, .argument 0, le_rfl, .cons hfork (.cons hfield (.nil _)), ?_⟩
  decide

-- The short chain first.
example : Search.EntersGoal (argumentAnalysis.chainSteps (forkFunc (.reg 9) (.reg 2))) 8 (.reg 1) :=
  Search.search_iff.mp (by decide)

end Platypus.Pass.BitMasks
