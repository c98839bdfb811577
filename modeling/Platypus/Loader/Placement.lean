import Mathlib
import Platypus.Bits.Window

namespace Platypus.Loader

-- `uint64_t` and `ElfW(Addr)` on x86-64.
abbrev Word := BitVec 64

-- The loop of `num_bits_required`: `while (n) { n >>= 1; bits++; }`. A word has 64 bits,
-- so the 64 rounds the callers give it always empty it.
def countBits : Nat → Word → Nat → Nat
  | 0, _, bits => bits
  | rounds + 1, n, bits => if n = 0#64 then bits else countBits rounds (n >>> 1) (bits + 1)

def numBitsRequired (n : Word) : Nat :=
  let bits := countBits 64 n 0
  if bits % 4 = 0 then bits else bits + 4 - bits % 4

-- `lel` is a `uint32_t` in the source, so the low mask is cut to 32 bits.
def findAddr (target_addr size : Word) : Word :=
  let size_bits := numBitsRequired size
  let tmp_addr := target_addr - (1#64 <<< size_bits)
  let lel : BitVec 32 := ((1#64 <<< size_bits) - 1#64).setWidth 32
  ((tmp_addr ||| lel.setWidth 64) - size + 0x1000#64) &&& 0xfffffffffffff000#64

-- The loop of `common_prefix_len`: `while (diff) { diff >>= 1; bits--; }`.
def dropBits : Nat → Word → Int → Int
  | 0, _, bits => bits
  | rounds + 1, diff, bits =>
    if diff = 0#64 then bits else dropBits rounds (diff >>> 1) (bits - 1)

def commonPrefixLen (a b : Word) : Word :=
  let bits := dropBits 64 (a ^^^ b) 64
  a &&& (~~~0#64 <<< (64 - bits).toNat)

-- Both loops run once for each significant bit.
theorem size_shiftRight_one (n : Word) (hn : n ≠ 0#64) :
    n.toNat.size = (n >>> 1).toNat.size + 1 := by
  have hpos : n.toNat ≠ 0 := fun h => hn (BitVec.eq_of_toNat_eq h)
  have hbit : Nat.bit (n.toNat.testBit 0) (n.toNat / 2) = n.toNat := by
    rw [Nat.bit_val]
    simp only [Nat.testBit_zero]
    by_cases hodd : n.toNat % 2 = 1
    · simp [hodd]; omega
    · simp [hodd]; omega
  have hsize := Nat.size_bit (b := n.toNat.testBit 0) (n := n.toNat / 2) (by rwa [hbit])
  rw [hbit] at hsize
  rw [BitVec.toNat_ushiftRight, Nat.shiftRight_eq_div_pow, pow_one]
  exact hsize

theorem size_zero_of_le (n : Word) (h : n.toNat.size ≤ 0) : n = 0#64 :=
  BitVec.eq_of_toNat_eq (Nat.size_eq_zero.mp (Nat.le_zero.mp h))

theorem countBits_eq (rounds : Nat) (n : Word) (bits : Nat) (h : n.toNat.size ≤ rounds) :
    countBits rounds n bits = bits + n.toNat.size := by
  induction rounds generalizing n bits with
  | zero => simp [countBits, size_zero_of_le n h]
  | succ rounds ih =>
    by_cases hn : n = 0#64
    · simp [countBits, hn]
    · have hsize := size_shiftRight_one n hn
      rw [countBits, if_neg hn, ih _ _ (by omega)]
      omega

theorem dropBits_eq (rounds : Nat) (diff : Word) (bits : Int) (h : diff.toNat.size ≤ rounds) :
    dropBits rounds diff bits = bits - diff.toNat.size := by
  induction rounds generalizing diff bits with
  | zero => simp [dropBits, size_zero_of_le diff h]
  | succ rounds ih =>
    by_cases hn : diff = 0#64
    · simp [dropBits, hn]
    · have hsize := size_shiftRight_one diff hn
      rw [dropBits, if_neg hn, ih _ _ (by omega)]
      omega

theorem size_le_width (n : Word) : n.toNat.size ≤ 64 := Nat.size_le.mpr n.isLt

theorem commonPrefixLen_eq (a b : Word) :
    commonPrefixLen a b = a &&& (~~~0#64 <<< (a ^^^ b).toNat.size) := by
  simp only [commonPrefixLen, dropBits_eq 64 _ _ (size_le_width _)]
  congr 2
  omega

theorem numBitsRequired_eq (n : Word) : numBitsRequired n = 4 * ((n.toNat.size + 3) / 4) := by
  simp only [numBitsRequired, countBits_eq 64 n 0 (size_le_width n), Nat.zero_add]
  split_ifs <;> omega

theorem lt_two_pow_numBitsRequired (n : Word) : n.toNat < 2 ^ numBitsRequired n := by
  apply Nat.size_le.mp
  rw [numBitsRequired_eq]
  omega

theorem numBitsRequired_le (n : Word) (hlt : n.toNat < 2 ^ 32) : numBitsRequired n ≤ 32 := by
  have hsize := Nat.size_le.mpr hlt
  rw [numBitsRequired_eq]
  omega

theorem le_numBitsRequired (n : Word) (m : Nat) (hle : 2 ^ m ≤ n.toNat) :
    m < numBitsRequired n := by
  have hsize := Nat.lt_size.mpr hle
  rw [numBitsRequired_eq]
  omega

-- A size that the loader can be asked to place: whole pages, held in a `uint32_t`.
structure PageSize (size : Word) : Prop where
  pos : 0 < size.toNat
  lt : size.toNat < 2 ^ 32
  pages : 2 ^ 12 ∣ size.toNat

-- The rounded block that `find_addr` fills from its end.
def blockEnd (target_addr size : Word) : Nat :=
  2 ^ numBitsRequired size *
    ((target_addr - (1#64 <<< numBitsRequired size)).toNat / 2 ^ numBitsRequired size + 1)

theorem lt_blockEnd (target_addr size : Word) : size.toNat < blockEnd target_addr size :=
  (lt_two_pow_numBitsRequired size).trans_le (Nat.le_mul_of_pos_right _ (Nat.succ_pos _))

namespace PageSize

variable {size : Word} (hs : PageSize size)
include hs

theorem page_le : 2 ^ 12 ≤ size.toNat :=
  Nat.le_of_dvd hs.pos hs.pages

theorem blockEnd_le (target_addr : Word) : blockEnd target_addr size ≤ 2 ^ 64 := by
  have hk := numBitsRequired_le size hs.lt
  obtain ⟨r, hr⟩ := Nat.pow_dvd_pow 2 (show numBitsRequired size ≤ 64 by omega)
  have hlt := (target_addr - (1#64 <<< numBitsRequired size)).isLt
  have hq : (target_addr - (1#64 <<< numBitsRequired size)).toNat / 2 ^ numBitsRequired size < r := by
    apply Nat.div_lt_of_lt_mul
    rwa [← hr]
  rw [blockEnd, hr]
  exact Nat.mul_le_mul_left _ hq

theorem pages_blockEnd (target_addr : Word) : 2 ^ 12 ∣ blockEnd target_addr size := by
  have hk := le_numBitsRequired size 12 hs.page_le
  exact (Nat.pow_dvd_pow 2 hk.le).mul_right _

theorem findAddr_add (target_addr : Word) :
    (findAddr target_addr size).toNat + size.toNat = blockEnd target_addr size := by
  have hk := numBitsRequired_le size hs.lt
  have hpage := hs.page_le
  have hend := lt_blockEnd target_addr size
  have hle := hs.blockEnd_le target_addr
  obtain ⟨p, hp⟩ := hs.pages
  obtain ⟨b, hb⟩ := hs.pages_blockEnd target_addr
  have hpow : 2 ^ numBitsRequired size ≤ 2 ^ 32 := Nat.pow_le_pow_right (by decide) hk
  have hone := Nat.two_pow_pos (numBitsRequired size)
  have hshift : (1#64 <<< numBitsRequired size).toNat = 2 ^ numBitsRequired size := by
    rw [BitVec.toNat_shiftLeft, Nat.shiftLeft_eq, BitVec.toNat_ofNat]
    omega
  have hlel : ((((1#64 <<< numBitsRequired size) - 1#64).setWidth 32).setWidth 64).toNat =
      2 ^ numBitsRequired size - 1 := by
    simp only [BitVec.toNat_setWidth, BitVec.toNat_sub, hshift, BitVec.toNat_ofNat]
    omega
  -- the last byte of the block
  have hor : ((target_addr - (1#64 <<< numBitsRequired size)) |||
      (((1#64 <<< numBitsRequired size) - 1#64).setWidth 32).setWidth 64).toNat =
      blockEnd target_addr size - 1 := by
    rw [BitVec.toNat_or, hlel, Bits.or_ones, blockEnd, Nat.mul_succ]
    omega
  have hsum : ((target_addr - (1#64 <<< numBitsRequired size) |||
      (((1#64 <<< numBitsRequired size) - 1#64).setWidth 32).setWidth 64) - size + 0x1000#64).toNat =
      2 ^ 12 * (b - p) + (2 ^ 12 - 1) := by
    rw [BitVec.toNat_add, BitVec.toNat_sub, hor, BitVec.toNat_ofNat]
    omega
  have hmask : 0xfffffffffffff000#64 = BitVec.allOnes 64 <<< 12 := by decide
  rw [findAddr, hmask, Bits.toNat_and_high, hsum,
    Nat.mul_add_div (by decide), Nat.div_eq_of_lt (Bits.ones_lt 12)]
  omega

end PageSize

end Platypus.Loader
