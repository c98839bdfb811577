import Mathlib.Data.List.Induction
import Mathlib.Data.List.Lex
import Mathlib.Data.List.ReduceOption
import Mathlib.Tactic.Common

-- Depth-first search to a bounded depth, with one set of visited nodes for all branches.

namespace Platypus.Search

section

variable {α : Type} [DecidableEq α]

-- The work at a node, in order: `none` is a test that succeeds, `some w` a branch to `w`.
def scan (visit : List α → α → Bool × List α) : List (Option α) → List α → Bool × List α
  | [], visited => (false, visited)
  | none :: _, visited => (true, visited)
  | some w :: rest, visited =>
    let (found, visited) := visit visited w
    if found then (true, visited) else scan visit rest visited

-- `n` is the number of levels that are left.
def search (expand : α → List (Option α)) : Nat → List α → α → Bool × List α
  | 0, visited, _ => (false, visited)
  | n + 1, visited, v =>
    if v ∈ visited then (false, visited)
    else scan (search expand n) (expand v) (v :: visited)

end

section

variable {α : Type}

def Goal (expand : α → List (Option α)) (v : α) : Prop := none ∈ expand v

def Next (expand : α → List (Option α)) (v w : α) : Prop := some w ∈ expand v

-- A chain of `n` steps.
inductive Chain (R : α → α → Prop) : Nat → α → α → Prop
  | nil (v : α) : Chain R 0 v v
  | cons {n : Nat} {u v w : α} : R u v → Chain R n v w → Chain R (n + 1) u w

-- A goal that a chain of at most `n` steps reaches.
def GoalWithin (expand : α → List (Option α)) (n : Nat) (v : α) : Prop :=
  ∃ k w, k ≤ n ∧ Chain (Next expand) k v w ∧ Goal expand w

-- The end of the chain that takes the branches with the numbers.
def follow (expand : α → List (Option α)) : α → List Nat → Option α
  | v, [] => some v
  | v, i :: c =>
    match (expand v).reduceOption[i]? with
    | none => none
    | some w => follow expand w c

end

-- Chains of bounded length have no infinite descent in lexicographic order.

def Before (N : Nat) (c d : List Nat) : Prop := c.length ≤ N ∧ c < d

theorem acc_before_nil (N : Nat) : Acc (Before N) [] :=
  .intro _ fun _ h => absurd h.2 (List.not_lt_nil _)

theorem before_acc (N : Nat) (c : List Nat) : Acc (Before N) c := by
  induction N generalizing c with
  | zero =>
    refine .intro _ fun d hd => ?_
    rw [List.eq_nil_of_length_eq_zero (Nat.le_zero.mp hd.1)]
    exact acc_before_nil 0
  | succ N ih =>
    cases c with
    | nil => exact acc_before_nil _
    | cons i c =>
      -- first on the first branch, then on the rest
      induction i using Nat.strongRecOn generalizing c with
      | ind i ihi =>
        have hc := ih c
        induction hc with
        | intro c _ ihc =>
          refine .intro _ fun d hd => ?_
          cases d with
          | nil => exact acc_before_nil _
          | cons j d =>
            rcases List.cons_lt_cons_iff.mp hd.2 with hlt | ⟨rfl, hlt⟩
            · exact ihi j hlt d
            · exact ihc d ⟨Nat.le_of_succ_le_succ hd.1, hlt⟩

theorem before_wf (N : Nat) : WellFounded (Before N) := ⟨before_acc N⟩

theorem lt_append_singleton (p : List Nat) (i : Nat) : p < p ++ [i] := by
  induction p with
  | nil => exact List.nil_lt_cons i []
  | cons j p ih => exact List.cons_lt_cons_iff.mpr (.inr ⟨rfl, ih⟩)

section

variable {α : Type} (expand : α → List (Option α)) (N : Nat) (root : α)

-- A chain is entered if the chain before its last branch is, and no chain that is entered before it
-- ends at the same node. The numbers of the branches are compared from the root on.
def Entered (c : List Nat) : Prop :=
  c.length ≤ N ∧ (follow expand root c).isSome ∧
    (∀ p i, p.length ≤ N → c = p ++ [i] → Entered p) ∧
    ∀ d, d.length ≤ N → d < c → Entered d → follow expand root d ≠ follow expand root c
termination_by (before_wf N).wrap c
decreasing_by
  · rename_i hlength heq
    exact ⟨hlength, heq ▸ lt_append_singleton p i⟩
  · rename_i hlength hlt
    exact ⟨hlength, hlt⟩

-- An entered chain ends at a goal.
def EntersGoal : Prop :=
  ∃ c w, Entered expand N root c ∧ follow expand root c = some w ∧ Goal expand w

end

section

variable {α : Type} {expand : α → List (Option α)}

theorem GoalWithin.of_next {n : Nat} {v w : α} (h : Next expand v w)
    (hw : GoalWithin expand n w) : GoalWithin expand (n + 1) v := by
  obtain ⟨k, x, hk, hchain, hgoal⟩ := hw
  exact ⟨k + 1, x, Nat.succ_le_succ hk, .cons h hchain, hgoal⟩

theorem follow_append (v : α) (c d : List Nat) :
    follow expand v (c ++ d) = (follow expand v c).bind fun w => follow expand w d := by
  induction c generalizing v with
  | nil => rfl
  | cons i c ih =>
    rw [List.cons_append, follow, follow]
    cases (expand v).reduceOption[i]? with
    | none => rfl
    | some w => exact ih w

theorem follow_singleton (v : α) (i : Nat) :
    follow expand v [i] = (expand v).reduceOption[i]? := by
  rw [follow]
  cases (expand v).reduceOption[i]? <;> rfl

theorem chain_of_follow {v w : α} {c : List Nat} (h : follow expand v c = some w) :
    Chain (Next expand) c.length v w := by
  induction c generalizing v with
  | nil =>
    cases h
    exact .nil _
  | cons i c ih =>
    rw [follow] at h
    cases hi : (expand v).reduceOption[i]? with
    | none => simp [hi] at h
    | some u =>
      rw [hi] at h
      exact .cons (List.reduceOption_mem_iff.mp (List.mem_of_getElem? hi)) (ih h)

variable {N : Nat} {root : α}

theorem Entered.parent {p : List Nat} {i : Nat} (h : Entered expand N root (p ++ [i])) :
    Entered expand N root p := by
  rw [Entered] at h
  have hlength : p.length ≤ N := by
    have := h.1
    simp only [List.length_append, List.length_singleton] at this
    omega
  exact h.2.2.1 p i hlength rfl

theorem Entered.of_append {p : List Nat} (q : List Nat) (h : Entered expand N root (p ++ q)) :
    Entered expand N root p := by
  induction q using List.reverseRecOn with
  | nil => rwa [List.append_nil] at h
  | append_singleton q i ih =>
    rw [← List.append_assoc] at h
    exact ih h.parent

theorem Entered.length_le {c : List Nat} (h : Entered expand N root c) : c.length ≤ N := by
  rw [Entered] at h
  exact h.1

theorem EntersGoal.goalWithin (h : EntersGoal expand N root) : GoalWithin expand N root := by
  obtain ⟨c, w, hc, hw, hgoal⟩ := h
  exact ⟨c.length, w, hc.length_le, chain_of_follow hw, hgoal⟩

theorem Entered.isSome {c : List Nat} (h : Entered expand N root c) :
    (follow expand root c).isSome := by
  rw [Entered] at h
  exact h.2.1

-- The nodes where the entered chains with a property end.
def Ends (expand : α → List (Option α)) (N : Nat) (root : α) (S : List Nat → Prop) (x : α) : Prop :=
  ∃ d, S d ∧ Entered expand N root d ∧ follow expand root d = some x

theorem Ends.congr {S S' : List Nat → Prop} (h : ∀ d, Entered expand N root d → (S d ↔ S' d))
    (x : α) : Ends expand N root S x ↔ Ends expand N root S' x := by
  constructor
  · rintro ⟨d, hS, hd, hx⟩
    exact ⟨d, (h d hd).mp hS, hd, hx⟩
  · rintro ⟨d, hS, hd, hx⟩
    exact ⟨d, (h d hd).mpr hS, hd, hx⟩

theorem entered_iff_of_parent {c : List Nat} {v : α} (hlength : c.length ≤ N)
    (hparent : ∀ p i, c = p ++ [i] → Entered expand N root p)
    (hv : follow expand root c = some v) :
    Entered expand N root c ↔ ¬ Ends expand N root (· < c) v := by
  rw [Entered]
  constructor
  · rintro ⟨-, -, -, hfirst⟩ ⟨d, hlt, hd, hx⟩
    exact hfirst d hd.length_le hlt hd (hx.trans hv.symm)
  · intro hnew
    refine ⟨hlength, by simp [hv], fun p i _ hc => hparent p i hc, fun d _ hlt hd heq => ?_⟩
    exact hnew ⟨d, hlt, hd, heq.trans hv⟩

-- The chains before the next branch are those before this one, and those that go through it.

theorem lt_append_succ_iff (p d : List Nat) (i : Nat) :
    d < p ++ [i + 1] ↔ d < p ++ [i] ∨ p ++ [i] <+: d := by
  induction p generalizing d with
  | nil =>
    cases d with
    | nil => simp
    | cons j d =>
      simp only [List.nil_append, List.cons_lt_cons_iff, List.not_lt_nil, and_false, or_false,
        List.cons_prefix_cons, List.nil_prefix, and_true]
      omega
  | cons k p ih =>
    cases d with
    | nil => simp
    | cons j d =>
      simp only [List.cons_append, List.cons_lt_cons_iff, List.cons_prefix_cons, ih]
      grind

theorem lt_append_zero_iff (p d : List Nat) : d < p ++ [0] ↔ d < p ∨ d = p := by
  induction p generalizing d with
  | nil => cases d <;> simp [List.cons_lt_cons_iff]
  | cons k p ih =>
    cases d with
    | nil => simp
    | cons j d =>
      simp only [List.cons_append, List.cons_lt_cons_iff, ih, List.cons.injEq]
      grind

theorem lt_append_iff (p d : List Nat) (k : Nat) :
    d < p ++ [k] ↔ d < p ∨ d = p ∨ ∃ j < k, p ++ [j] <+: d := by
  induction k with
  | zero => simp [lt_append_zero_iff]
  | succ k ih =>
    rw [lt_append_succ_iff, ih, Nat.exists_lt_succ_right, or_assoc, or_assoc]

theorem ends_append_zero_iff {p : List Nat} {v x : α} (hp : Entered expand N root p)
    (hv : follow expand root p = some v) :
    Ends expand N root (· < p ++ [0]) x ↔ x = v ∨ Ends expand N root (· < p) x := by
  constructor
  · rintro ⟨d, hlt, hd, hx⟩
    rcases (lt_append_zero_iff p d).mp hlt with hlt | rfl
    · exact .inr ⟨d, hlt, hd, hx⟩
    · exact .inl (Option.some.inj (hx.symm.trans hv))
  · rintro (rfl | ⟨d, hlt, hd, hx⟩)
    · exact ⟨p, (lt_append_zero_iff p p).mpr (.inr rfl), hp, hv⟩
    · exact ⟨d, (lt_append_zero_iff p d).mpr (.inl hlt), hd, hx⟩

-- What a search does: `S` are the chains that are searched when it ends, `visited` the nodes before.
structure Explored (expand : α → List (Option α)) (N : Nat) (root : α) (S : List Nat → Prop)
    (visited : List α) (r : Bool × List α) : Prop where
  found : r.1 = true → EntersGoal expand N root
  ends : r.1 = false → ∀ x, x ∈ r.2 ↔ Ends expand N root S x
  tried : r.1 = false → ∀ x ∈ r.2, Goal expand x → x ∈ visited

-- `before` is the work at the node that is done.
theorem scan_explored (visit : List α → α → Bool × List α) {p : List Nat} {v : α}
    (hp : Entered expand N root p) (hv : follow expand root p = some v)
    (hvisit : ∀ i w visited, (expand v).reduceOption[i]? = some w →
      (∀ x, x ∈ visited ↔ Ends expand N root (· < p ++ [i]) x) →
      Explored expand N root (fun d => d < p ++ [i] ∨ p ++ [i] <+: d) visited (visit visited w))
    {before items : List (Option α)} {visited : List α} (hitems : expand v = before ++ items)
    (hvisited : ∀ x, x ∈ visited ↔
      Ends expand N root (· < p ++ [before.reduceOption.length]) x) :
    Explored expand N root (· < p ++ [(expand v).reduceOption.length]) visited
        (scan visit items visited) ∧
      ((scan visit items visited).1 = false → none ∉ items) := by
  induction items generalizing before visited with
  | nil =>
    rw [List.append_nil] at hitems
    rw [scan, hitems]
    exact ⟨⟨fun h => (by cases h), fun _ => hvisited, fun _ x hx _ => hx⟩,
      fun _ => List.not_mem_nil⟩
  | cons item rest ih =>
    cases item with
    | none =>
      have hgoal : Goal expand v := by simp [Goal, hitems]
      exact ⟨⟨fun _ => ⟨p, v, hp, hv, hgoal⟩, fun h => (by cases h), fun h => (by cases h)⟩,
        fun h => (by cases h)⟩
    | some w =>
      have hw : (expand v).reduceOption[before.reduceOption.length]? = some w := by
        simp [hitems, List.reduceOption_append, List.reduceOption_cons_of_some]
      have hbranch := hvisit _ w visited hw hvisited
      rw [scan]
      cases hr : (visit visited w).1 with
      | true =>
        simp only [hr, if_true]
        exact ⟨⟨fun _ => hbranch.found hr, fun h => (by cases h), fun h => (by cases h)⟩,
          fun h => (by cases h)⟩
      | false =>
        simp only [hr, Bool.false_eq_true, if_false]
        have hdone : ∀ x, x ∈ (visit visited w).2 ↔ Ends expand N root
            (· < p ++ [(before ++ [some w]).reduceOption.length]) x := by
          intro x
          rw [hbranch.ends hr]
          refine Ends.congr (fun d _ => ?_) x
          simp [List.reduceOption_append, List.reduceOption_cons_of_some,
            lt_append_succ_iff]
        obtain ⟨hrest, hnone⟩ := ih (by simp [hitems]) hdone
        refine ⟨⟨hrest.found, hrest.ends, fun h x hx hgoal => ?_⟩, by simpa using hnone⟩
        exact hbranch.tried hr x (hrest.tried h x hx hgoal) hgoal

-- A chain that goes on takes a branch that is there.
theorem Entered.lt_branches_iff {p d : List Nat} {v : α} (h : Entered expand N root d)
    (hv : follow expand root p = some v) :
    d < p ++ [(expand v).reduceOption.length] ↔ d < p ∨ p <+: d := by
  rw [lt_append_iff]
  refine or_congr_right ⟨?_, ?_⟩
  · rintro (rfl | ⟨j, -, hj⟩)
    · exact List.prefix_rfl
    · exact (List.prefix_append p [j]).trans hj
  · rintro ⟨q, rfl⟩
    cases q with
    | nil => exact .inl (List.append_nil p)
    | cons j q =>
      refine .inr ⟨j, ?_, q, by simp⟩
      have hsome := h.isSome
      rw [follow_append, hv, Option.bind_some, follow] at hsome
      cases hj : (expand v).reduceOption[j]? with
      | none => simp [hj] at hsome
      | some w => exact (List.getElem?_eq_some_iff.mp hj).1

-- Where a chain is not entered, none that begins with it is.
theorem stop_explored {p : List Nat} {visited : List α} (hp : ¬ Entered expand N root p)
    (hvisited : ∀ x, x ∈ visited ↔ Ends expand N root (· < p) x) :
    Explored expand N root (fun d => d < p ∨ p <+: d) visited (false, visited) := by
  refine ⟨fun h => (by cases h), fun _ x => (hvisited x).trans (Ends.congr (fun d hd => ?_) x),
    fun _ x hx _ => hx⟩
  have hnot : ¬ p <+: d := by
    rintro ⟨q, rfl⟩
    exact hp (hd.of_append q)
  simp [hnot]

end

variable {α : Type} [DecidableEq α] {expand : α → List (Option α)} {N : Nat} {root : α}

-- The induction is on the levels left; `p` is the chain from the root to the node.
theorem search_explored {n : Nat} {p : List Nat} {v : α} {visited : List α}
    (hlevels : p.length + n = N + 1) (hparent : ∀ q i, p = q ++ [i] → Entered expand N root q)
    (hv : follow expand root p = some v)
    (hvisited : ∀ x, x ∈ visited ↔ Ends expand N root (· < p) x) :
    Explored expand N root (fun d => d < p ∨ p <+: d) visited (search expand n visited v) := by
  induction n generalizing p v visited with
  | zero =>
    refine stop_explored (fun hp => ?_) hvisited
    have := hp.length_le
    omega
  | succ n ih =>
    have hnew := entered_iff_of_parent (by omega) hparent hv
    rw [search]
    by_cases hmem : v ∈ visited
    · rw [if_pos hmem]
      exact stop_explored (fun hp => hnew.mp hp ((hvisited v).mp hmem)) hvisited
    rw [if_neg hmem]
    have hp : Entered expand N root p := hnew.mpr fun h => hmem ((hvisited v).mpr h)
    have hfirst : ∀ x, x ∈ v :: visited ↔
        Ends expand N root (· < p ++ [([] : List (Option α)).reduceOption.length]) x := by
      intro x
      rw [List.mem_cons, hvisited]
      exact (ends_append_zero_iff hp hv).symm
    obtain ⟨hscan, hnone⟩ := scan_explored (search expand n) hp hv
      (fun i w visited hw => ih (by simp; omega) (fun q j hq => (List.append_inj' hq rfl).1 ▸ hp)
        (by rw [follow_append, hv, Option.bind_some, follow_singleton, hw]))
      (List.nil_append (expand v)).symm hfirst
    refine ⟨hscan.found, fun h x => (hscan.ends h x).trans ?_, fun h x hx hgoal => ?_⟩
    · exact Ends.congr (fun d hd => hd.lt_branches_iff hv) x
    · rcases List.mem_cons.mp (hscan.tried h x hx hgoal) with rfl | hx
      · exact absurd hgoal (hnone h)
      · exact hx

-- The search finds a goal exactly if an entered chain ends at one.
theorem search_iff : (search expand (N + 1) [] root).1 = true ↔ EntersGoal expand N root := by
  have h : Explored expand N root (fun d => d < [] ∨ [] <+: d) [] (search expand (N + 1) [] root) :=
    search_explored (Nat.zero_add _) (fun q i hq => by simp at hq) rfl fun x => by simp [Ends]
  refine ⟨h.found, ?_⟩
  rintro ⟨c, w, hc, hw, hgoal⟩
  by_contra hfalse
  rw [Bool.not_eq_true] at hfalse
  have hmem := (h.ends hfalse w).mpr ⟨c, .inr List.nil_prefix, hc, hw⟩
  exact absurd (h.tried hfalse w hmem hgoal) List.not_mem_nil

-- It misses a goal exactly if none is at the end of an entered chain.
theorem search_exact_iff :
    ((search expand (N + 1) [] root).1 = true ↔ GoalWithin expand N root) ↔
      (GoalWithin expand N root → EntersGoal expand N root) := by
  rw [search_iff]
  exact ⟨fun h => h.mpr, fun h => ⟨EntersGoal.goalWithin, h⟩⟩

end Platypus.Search
