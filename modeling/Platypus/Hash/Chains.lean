import Mathlib.Data.List.Sort
import Mathlib.Tactic.Common

-- A hash of byte strings, and a list whose elements stand bucket by bucket.

namespace Platypus.Hash

def bytes (s : List Char) : List (BitVec 8) := s.map fun c => .ofNat 8 c.toNat

def times33 (h : BitVec 32) (s : List (BitVec 8)) : BitVec 32 :=
  s.foldl (fun h c => h * 33#32 + c.setWidth 32) h

section Runs

variable {α : Type} (bucket : α → Nat)

-- The elements of a bucket are neighbours, after those of the smaller buckets.
theorem runs (xs : List α) (h : xs.Pairwise fun a b => bucket a ≤ bucket b) (k : Nat) :
    xs = xs.filter (bucket · < k) ++ xs.filter (bucket · = k) ++ xs.filter (k < bucket ·) := by
  induction xs with
  | nil => rfl
  | cons x xs ih =>
    rw [List.pairwise_cons] at h
    have hrec := ih h.2
    rcases Nat.lt_trichotomy (bucket x) k with hlt | heq | hgt
    · simp only [List.filter_cons, hlt, hlt.ne, hlt.not_gt, decide_true, decide_false, if_true,
        Bool.false_eq_true, if_false, List.cons_append]
      rw [← hrec]
    · have hnone : xs.filter (bucket · < k) = [] := by
        rw [List.filter_eq_nil_iff]
        intro y hy
        have hle := h.1 y hy
        rw [decide_eq_true_eq]
        omega
      rw [hnone, List.nil_append] at hrec
      simp only [List.filter_cons, heq, lt_irrefl, decide_true, decide_false, if_true,
        Bool.false_eq_true, if_false, hnone, List.nil_append, List.cons_append]
      rw [← hrec]
    · have hnone : xs.filter (bucket · < k) = [] ∧ xs.filter (bucket · = k) = [] := by
        constructor <;>
        · rw [List.filter_eq_nil_iff]
          intro y hy
          have hle := h.1 y hy
          rw [decide_eq_true_eq]
          omega
      rw [hnone.1, hnone.2, List.nil_append, List.nil_append] at hrec
      simp only [List.filter_cons, hgt, hgt.ne', hgt.not_gt, decide_true, decide_false, if_true,
        Bool.false_eq_true, if_false, hnone.1, hnone.2, List.nil_append]
      rw [← hrec]

end Runs

end Platypus.Hash
