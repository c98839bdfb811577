import Mathlib
import Platypus.Bits.Split

namespace Platypus.Bits

-- An aligned block of `2 ^ bits` consecutive words.
structure Window (w : Nat) where
  base : BitVec w
  bits : Nat
  bits_le : bits ≤ w
  aligned : 2 ^ bits ∣ base.toNat

namespace Window

variable {w : Nat}

def top (W : Window w) : BitVec w :=
  BitVec.ofNat w (W.base.toNat + (2 ^ W.bits - 1))

def Contains (W : Window w) (x : BitVec w) : Prop :=
  W.base ≤ x ∧ x ≤ W.top

-- What the pair of masks computes: set the bits of the base, clear the bits above the top.
def mask (W : Window w) (x : BitVec w) : BitVec w :=
  (x ||| W.base) &&& W.top

theorem base_add_le (W : Window w) : W.base.toNat + 2 ^ W.bits ≤ 2 ^ w := by
  obtain ⟨q, hq⟩ := W.aligned
  obtain ⟨r, hr⟩ := Nat.pow_dvd_pow 2 W.bits_le
  have hlt : 2 ^ W.bits * q < 2 ^ W.bits * r := by
    rw [← hq, ← hr]
    exact W.base.isLt
  have hqr : q + 1 ≤ r := Nat.lt_of_mul_lt_mul_left hlt
  calc
    W.base.toNat + 2 ^ W.bits = 2 ^ W.bits * (q + 1) := by rw [hq]; ring
    _ ≤ 2 ^ W.bits * r := Nat.mul_le_mul_left _ hqr
    _ = 2 ^ w := hr.symm

theorem top_toNat (W : Window w) : W.top.toNat = W.base.toNat + (2 ^ W.bits - 1) := by
  have hfit := W.base_add_le
  have hpos := Nat.two_pow_pos W.bits
  rw [top, BitVec.toNat_ofNat, Nat.mod_eq_of_lt (by omega)]

theorem contains_iff (W : Window w) (x : BitVec w) :
    W.Contains x ↔ W.base.toNat ≤ x.toNat ∧ x.toNat < W.base.toNat + 2 ^ W.bits := by
  have hpos := Nat.two_pow_pos W.bits
  rw [Contains, BitVec.le_def, BitVec.le_def, top_toNat]
  omega

-- The masks keep the offset inside the block and replace the block number.
theorem mask_toNat (W : Window w) (x : BitVec w) :
    (W.mask x).toNat = W.base.toNat + x.toNat % 2 ^ W.bits := by
  obtain ⟨q, hq⟩ := W.aligned
  have hx : x.toNat = 2 ^ W.bits * (x.toNat / 2 ^ W.bits) + x.toNat % 2 ^ W.bits :=
    (Nat.div_add_mod _ _).symm
  have hlow := Nat.mod_lt x.toNat (Nat.two_pow_pos W.bits)
  have hblock := or_and_block (x.toNat / 2 ^ W.bits) _ q W.bits hlow
  rw [← hx, Nat.add_zero, ← hq] at hblock
  rw [mask, BitVec.toNat_and, BitVec.toNat_or, top_toNat, hblock]

theorem mask_contains (W : Window w) (x : BitVec w) : W.Contains (W.mask x) := by
  have hlow := Nat.mod_lt x.toNat (Nat.two_pow_pos W.bits)
  rw [contains_iff, mask_toNat]
  omega

theorem mask_eq_self_iff (W : Window w) (x : BitVec w) : W.mask x = x ↔ W.Contains x := by
  constructor
  · intro h
    exact h ▸ W.mask_contains x
  · intro h
    obtain ⟨hlo, hhi⟩ := (W.contains_iff x).mp h
    obtain ⟨q, hq⟩ := W.aligned
    apply BitVec.eq_of_toNat_eq
    rw [mask_toNat]
    -- the offset is below the block size, so reducing it changes nothing
    obtain ⟨d, hd⟩ := Nat.exists_eq_add_of_le hlo
    have hlt : d < 2 ^ W.bits := by omega
    rw [hd, hq, Nat.mul_add_mod, Nat.mod_eq_of_lt hlt]

theorem mask_mask (W : Window w) (x : BitVec w) : W.mask (W.mask x) = W.mask x :=
  (W.mask_eq_self_iff _).mpr (W.mask_contains x)

end Window

end Platypus.Bits
