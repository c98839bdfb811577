import Mathlib

namespace Platypus.Bits

theorem ones_lt (m : Nat) : 2 ^ m - 1 < 2 ^ m :=
  Nat.sub_lt (Nat.two_pow_pos m) Nat.one_pos

-- A value split at bit `m`, masked with a block that starts at a multiple of `2 ^ m`.
-- The high part is forced to the block and the low part is kept.
theorem or_and_block (high low q m : Nat) (hl : low < 2 ^ m) :
    ((2 ^ m * high + low) ||| (2 ^ m * q + 0)) &&& (2 ^ m * q + (2 ^ m - 1)) =
      2 ^ m * q + low := by
  apply Nat.eq_of_testBit_eq
  intro i
  rw [Nat.testBit_and, Nat.testBit_or, Nat.testBit_two_pow_mul_add high hl,
    Nat.testBit_two_pow_mul_add q (Nat.two_pow_pos m),
    Nat.testBit_two_pow_mul_add q (ones_lt m), Nat.testBit_two_pow_mul_add q hl]
  by_cases hi : i < m
  · simp [hi]
  · simp only [hi, ite_false]
    cases (high.testBit (i - m)) <;> cases (q.testBit (i - m)) <;> rfl

theorem or_ones (a m : Nat) : a ||| (2 ^ m - 1) = 2 ^ m * (a / 2 ^ m) + (2 ^ m - 1) := by
  have ha : a = 2 ^ m * (a / 2 ^ m) + a % 2 ^ m := (Nat.div_add_mod _ _).symm
  have hlow := Nat.mod_lt a (Nat.two_pow_pos m)
  apply Nat.eq_of_testBit_eq
  intro i
  conv_lhs => rw [ha]
  rw [Nat.testBit_or, Nat.testBit_two_pow_mul_add _ hlow, Nat.testBit_two_pow_mul_add _ (ones_lt m)]
  by_cases hi : i < m <;> simp [hi]

-- Against the top of its own block a value differs by its distance from that top.
theorem xor_top (q low m : Nat) (hl : low < 2 ^ m) :
    (2 ^ m * q + low) ^^^ (2 ^ m * q + (2 ^ m - 1)) = 2 ^ m - (low + 1) := by
  have hrest : 2 ^ m - (low + 1) = 2 ^ m * 0 + (2 ^ m - (low + 1)) := by omega
  have hlt : 2 ^ m - (low + 1) < 2 ^ m := by omega
  apply Nat.eq_of_testBit_eq
  intro i
  rw [Nat.testBit_xor, Nat.testBit_two_pow_mul_add q hl, Nat.testBit_two_pow_mul_add q (ones_lt m),
    hrest, Nat.testBit_two_pow_mul_add 0 hlt, Nat.testBit_two_pow_sub_succ hl]
  by_cases hi : i < m <;> simp [hi]

-- Clearing the low `m` bits rounds down to a multiple of `2 ^ m`.
theorem toNat_and_high {w : Nat} (a : BitVec w) (m : Nat) :
    (a &&& ((BitVec.allOnes w) <<< m)).toNat = 2 ^ m * (a.toNat / 2 ^ m) := by
  have hsplit : 2 ^ m * (a.toNat / 2 ^ m) = 2 ^ m * (a.toNat / 2 ^ m) + 0 := rfl
  apply Nat.eq_of_testBit_eq
  intro i
  rw [hsplit, Nat.testBit_two_pow_mul_add _ (Nat.two_pow_pos m), ← BitVec.getLsbD,
    BitVec.getLsbD_and, BitVec.getLsbD_shiftLeft, BitVec.getLsbD_allOnes, Nat.testBit_div_two_pow]
  by_cases hi : i < m
  · simp [hi]
  · simp only [hi, ite_false, decide_false, Bool.not_false, Bool.and_true]
    rw [Nat.sub_add_cancel (Nat.le_of_not_lt hi)]
    by_cases hw : i < w
    · simp [hw, BitVec.getLsbD, show i - m < w by omega]
    · simp [hw, BitVec.testBit_toNat, BitVec.getLsbD_of_ge a i (Nat.le_of_not_lt hw)]

-- A number and the one before it agree above the lowest bit that is set.

theorem testBit_lowest (q m i : Nat) : (2 ^ (m + 1) * q + 2 ^ m).testBit i =
    if i < m + 1 then decide (m = i) else q.testBit (i - (m + 1)) := by
  rw [Nat.testBit_two_pow_mul_add q (Nat.pow_lt_pow_right (by decide) (Nat.lt_succ_self m)),
    Nat.testBit_two_pow]

theorem testBit_pred (q m i : Nat) : (2 ^ (m + 1) * q + (2 ^ m - 1)).testBit i =
    if i < m + 1 then decide (i < m) else q.testBit (i - (m + 1)) := by
  have hlt : 2 ^ m < 2 ^ (m + 1) := Nat.pow_lt_pow_right (by decide) (Nat.lt_succ_self m)
  rw [Nat.testBit_two_pow_mul_add q ((Nat.sub_le _ _).trans_lt hlt), Nat.testBit_two_pow_sub_one]

theorem xor_pred (q m : Nat) :
    (2 ^ (m + 1) * q + 2 ^ m) ^^^ (2 ^ (m + 1) * q + (2 ^ m - 1)) = 2 ^ (m + 1) - 1 := by
  apply Nat.eq_of_testBit_eq
  intro i
  rw [Nat.testBit_xor, testBit_lowest, testBit_pred, Nat.testBit_two_pow_sub_one]
  by_cases hi : i < m + 1
  · rcases Nat.lt_succ_iff_lt_or_eq.mp hi with hlt | rfl
    · simp [hi, hlt, hlt.ne']
    · simp
  · simp [hi]

theorem and_pred (q m : Nat) :
    (2 ^ (m + 1) * q + 2 ^ m) &&& (2 ^ (m + 1) * q + (2 ^ m - 1)) = 2 ^ (m + 1) * q := by
  have hrest : 2 ^ (m + 1) * q = 2 ^ (m + 1) * q + 0 := rfl
  apply Nat.eq_of_testBit_eq
  intro i
  rw [Nat.testBit_and, testBit_lowest, testBit_pred, hrest,
    Nat.testBit_two_pow_mul_add q (Nat.two_pow_pos _)]
  by_cases hi : i < m + 1
  · rcases Nat.lt_succ_iff_lt_or_eq.mp hi with hlt | rfl
    · simp [hi, hlt, hlt.ne']
    · simp
  · simp [hi]

theorem size_ones (m : Nat) : (2 ^ m - 1).size = m := by
  apply Nat.le_antisymm
  · exact Nat.size_le.mpr (Nat.sub_lt (Nat.two_pow_pos m) Nat.one_pos)
  · cases m with
    | zero => exact Nat.zero_le _
    | succ m =>
      have hlt : 2 ^ m < 2 ^ (m + 1) := Nat.pow_lt_pow_right (by decide) (Nat.lt_succ_self m)
      exact Nat.lt_size.mpr (Nat.le_sub_one_of_lt hlt)

end Platypus.Bits
