import Platypus.Loader.Placement

namespace Platypus.Loader

open Bits

-- The value the instrumented call site uses in place of the called pointer.
def instrumentNormalCase (target ormask andmask : Word) : Word :=
  (target ||| ormask) &&& andmask

namespace PageSize

variable {size : Word}

theorem exec_end_toNat (hs : PageSize size) (target_addr : Word) :
    (findAddr target_addr size + size - 1#64).toNat = blockEnd target_addr size - 1 := by
  have hadd := hs.findAddr_add target_addr
  have hle := hs.blockEnd_le target_addr
  have hpos := hs.pos
  rw [BitVec.toNat_sub, BitVec.toNat_add, BitVec.toNat_ofNat, hadd]
  omega

-- Start and end share a block of `2 ^ numBitsRequired size` bytes and the end is its
-- last byte, so they differ in exactly the bits of `size - 1`.
theorem xor_exec_end (hs : PageSize size) (target_addr : Word) :
    (findAddr target_addr size ^^^ (findAddr target_addr size + size - 1#64)).toNat =
      size.toNat - 1 := by
  have hadd := hs.findAddr_add target_addr
  have hend := hs.exec_end_toNat target_addr
  have hlt := lt_two_pow_numBitsRequired size
  have hpos := hs.pos
  have htop := xor_top ((target_addr - (1#64 <<< numBitsRequired size)).toNat /
    2 ^ numBitsRequired size) (2 ^ numBitsRequired size - size.toNat) (numBitsRequired size) (by omega)
  rw [BitVec.toNat_xor, hend]
  rw [blockEnd, Nat.mul_succ] at hadd ⊢
  rw [show (findAddr target_addr size).toNat = 2 ^ numBitsRequired size *
      ((target_addr - (1#64 <<< numBitsRequired size)).toNat / 2 ^ numBitsRequired size) +
      (2 ^ numBitsRequired size - size.toNat) by omega, Nat.add_sub_assoc (by omega), htop]
  omega

theorem commonPrefixLen_toNat (hs : PageSize size) (target_addr : Word) :
    (commonPrefixLen (findAddr target_addr size)
      (findAddr target_addr size + size - 1#64)).toNat + 2 ^ (size.toNat - 1).size =
      blockEnd target_addr size := by
  have hadd := hs.findAddr_add target_addr
  have hpos := hs.pos
  have hsize := Nat.lt_size_self (size.toNat - 1)
  have hbits : (size.toNat - 1).size ≤ numBitsRequired size :=
    Nat.size_le.mpr ((Nat.sub_le _ _).trans_lt (lt_two_pow_numBitsRequired size))
  obtain ⟨b, hb⟩ := (Nat.pow_dvd_pow 2 hbits).trans (Dvd.intro _ rfl : _ ∣ blockEnd target_addr size)
  have hb0 : b ≠ 0 := by
    rintro rfl
    have := lt_blockEnd target_addr size
    omega
  obtain ⟨c, rfl⟩ := Nat.exists_eq_succ_of_ne_zero hb0
  -- the start lies in the last of the blocks of `2 ^ (size - 1).size` bytes
  have hdiv : (findAddr target_addr size).toNat / 2 ^ (size.toNat - 1).size = c := by
    rw [Nat.mul_succ] at hb
    rw [Nat.div_eq_of_lt_le]
    · rw [Nat.mul_comm]; omega
    · rw [Nat.mul_comm, Nat.mul_succ]; omega
  rw [commonPrefixLen_eq, hs.xor_exec_end, show (~~~0#64) = BitVec.allOnes 64 by decide,
    toNat_and_high, hdiv, hb, Nat.mul_succ]

-- The two masks of an object placed by `find_addr` are a window in the sense of `Bits`.
def window (hs : PageSize size) (target_addr : Word) : Window 64 where
  base := commonPrefixLen (findAddr target_addr size) (findAddr target_addr size + size - 1#64)
  bits := (size.toNat - 1).size
  bits_le := by
    have hlt := hs.lt
    have hle : (size.toNat - 1).size ≤ 32 := Nat.size_le.mpr (by omega)
    omega
  aligned := by
    rw [commonPrefixLen_eq, hs.xor_exec_end, show (~~~0#64) = BitVec.allOnes 64 by decide,
      toNat_and_high]
    exact Dvd.intro _ rfl

theorem window_top (hs : PageSize size) (target_addr : Word) :
    (hs.window target_addr).top = findAddr target_addr size + size - 1#64 := by
  have hprefix := hs.commonPrefixLen_toNat target_addr
  have hpos := Nat.two_pow_pos (size.toNat - 1).size
  apply BitVec.eq_of_toNat_eq
  rw [Window.top_toNat, hs.exec_end_toNat]
  simp only [window]
  omega

theorem base_le_findAddr (hs : PageSize size) (target_addr : Word) :
    (hs.window target_addr).base ≤ findAddr target_addr size := by
  rw [BitVec.le_def]
  exact (congrArg BitVec.toNat (commonPrefixLen_eq _ _)).le.trans Nat.and_le_left

end PageSize

-- What the two masks of a module are for: a masked pointer stays in `[ormask, fin]`,
-- the pointers already there are the ones left alone, and the code is among them.
structure Confines (start fin ormask : Word) : Prop where
  mem (x : Word) : ormask ≤ instrumentNormalCase x ormask fin ∧
    instrumentNormalCase x ormask fin ≤ fin
  fixed (x : Word) : instrumentNormalCase x ormask fin = x ↔ ormask ≤ x ∧ x ≤ fin
  idem (x : Word) : instrumentNormalCase (instrumentNormalCase x ormask fin) ormask fin =
    instrumentNormalCase x ormask fin
  code (x : Word) : start ≤ x ∧ x ≤ fin → ormask ≤ x ∧ x ≤ fin

-- The 64-bit subtraction of the rounded size may wrap here; the masks do not depend on it.
theorem findAddr_confines (target_addr size : Word) (hs : PageSize size) :
    Confines (findAddr target_addr size) (findAddr target_addr size + size - 1#64)
      (commonPrefixLen (findAddr target_addr size) (findAddr target_addr size + size - 1#64)) := by
  have htop := hs.window_top target_addr
  have hmask : ∀ x, instrumentNormalCase x (hs.window target_addr).base
      (findAddr target_addr size + size - 1#64) = (hs.window target_addr).mask x := by
    intro x
    rw [Window.mask, htop]
    rfl
  have hin : ∀ x, (hs.window target_addr).Contains x ↔ (hs.window target_addr).base ≤ x ∧
      x ≤ findAddr target_addr size + size - 1#64 := by
    intro x
    rw [Window.Contains, htop]
  change Confines _ _ (hs.window target_addr).base
  constructor
  · intro x
    rw [← hin, hmask]
    exact (hs.window target_addr).mask_contains x
  · intro x
    rw [← hin, ← Window.mask_eq_self_iff, ← hmask]
  · intro x
    simp only [hmask]
    exact (hs.window target_addr).mask_mask x
  · rintro x ⟨hlo, hhi⟩
    exact ⟨BitVec.le_trans (hs.base_le_findAddr target_addr) hlo, hhi⟩

theorem findAddr_confines_three_pages :
    Confines (findAddr 0x7f0000000000#64 0x3000#64)
      (findAddr 0x7f0000000000#64 0x3000#64 + 0x3000#64 - 1#64)
      (commonPrefixLen (findAddr 0x7f0000000000#64 0x3000#64)
        (findAddr 0x7f0000000000#64 0x3000#64 + 0x3000#64 - 1#64)) :=
  findAddr_confines _ _ ⟨by decide, by decide, by decide⟩

end Platypus.Loader
