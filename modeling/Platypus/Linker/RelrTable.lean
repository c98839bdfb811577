import Platypus.Linker.Symbols

-- The packed form of relative relocations: addresses, each followed by bitmaps of the words after it.

namespace Platypus.Linker.RelrSection

def wordsize : Nat := 8

def nBits : Nat := 63

-- The offsets that can be folded into a bitmap, up to the first that cannot.
def foldable (base : Word) : BitVec 64 → List Word → BitVec 64 × List Word
  | bitmap, [] => (bitmap, [])
  | bitmap, offset :: offsets =>
    let d := (offset - base).toNat
    if nBits * wordsize ≤ d ∨ d % wordsize ≠ 0 then (bitmap, offset :: offsets)
    else foldable base (bitmap ||| 1#64 <<< (d / wordsize)) offsets

-- The bitmaps after an address, and the offsets that are left; `none` after too few rounds.
def bitmaps : Nat → Word → List Word → Option (List Word × List Word)
  | 0, _, _ => none
  | fuel + 1, base, offsets =>
    let folded := foldable base 0#64 offsets
    if folded.1 = 0#64 then some ([], folded.2)
    else (bitmaps fuel (base + .ofNat 64 (nBits * wordsize)) folded.2).map fun rest =>
      ((folded.1 <<< 1 ||| 1#64) :: rest.1, rest.2)

def relrRelocs : Nat → List Word → Option (List Word)
  | _, [] => some []
  | 0, _ :: _ => none
  | fuel + 1, offset :: offsets => do
    let (maps, rest) ← bitmaps (offsets.length + 1) (offset + .ofNat 64 wordsize) offsets
    let relocs ← relrRelocs fuel rest
    return offset :: (maps ++ relocs)

def offsetLe (a b : Word) : Prop := a ≤ b

instance : DecidableRel offsetLe := fun a b => inferInstanceAs (Decidable (a ≤ b))

-- The section is padded so that it does not shrink.
def updateAllocSize (offsets : List Word) (oldSize : Nat) : Option (List Word) :=
  (relrRelocs offsets.length (offsets.insertionSort offsetLe)).map fun relocs =>
    relocs ++ List.replicate (oldSize - relocs.length) 1#64

-- The word with a number after an address.
def wordAt (base : Word) (b : Nat) : Word := base + 8#64 * .ofNat 64 b

theorem wordAt_inj {base : Word} {b k : Nat} (hb : b < 64) (hk : k < 64)
    (h : wordAt base b = wordAt base k) : b = k := by
  unfold wordAt at h
  have hmul := congrArg BitVec.toNat ((BitVec.add_right_inj base).mp h)
  simp only [BitVec.toNat_mul, BitVec.toNat_ofNat] at hmul
  omega

theorem offset_eq_wordAt {base offset : Word} (hd : (offset - base).toNat % wordsize = 0) :
    offset = wordAt base ((offset - base).toNat / wordsize) := by
  have hmul : 8#64 * BitVec.ofNat 64 ((offset - base).toNat / wordsize) = offset - base := by
    apply BitVec.eq_of_toNat_eq
    have hlt := (offset - base).isLt
    unfold wordsize at hd ⊢
    rw [BitVec.toNat_mul, BitVec.toNat_ofNat, BitVec.toNat_ofNat]
    omega
  rw [wordAt, hmul, BitVec.add_comm, BitVec.sub_add_cancel]

theorem getLsbD_one_shiftLeft {b k : Nat} (hk : k < 64) : (1#64 <<< k).getLsbD b ↔ b = k := by
  rw [BitVec.getLsbD_shiftLeft]
  simp
  omega

-- A bitmap has the bits of the offsets that are folded into it.
theorem foldable_spec (base : Word) (bitmap : BitVec 64) (offsets : List Word) :
    ∃ taken, offsets = taken ++ (foldable base bitmap offsets).2 ∧
      (∀ o ∈ taken, ∃ b < nBits, o = wordAt base b) ∧
        ∀ b, (foldable base bitmap offsets).1.getLsbD b ↔
          bitmap.getLsbD b ∨ b < nBits ∧ wordAt base b ∈ taken := by
  induction offsets generalizing bitmap with
  | nil => exact ⟨[], rfl, nofun, fun b => by simp [foldable]⟩
  | cons offset offsets ih =>
    unfold foldable
    dsimp only
    split
    · exact ⟨[], rfl, nofun, fun b => by simp⟩
    · rename_i hd
      obtain ⟨hlt, hmod⟩ := not_or.mp hd
      rw [not_not] at hmod
      have hoffset := offset_eq_wordAt hmod
      have hk : (offset - base).toNat / wordsize < nBits :=
        Nat.div_lt_of_lt_mul (Nat.mul_comm .. ▸ Nat.lt_of_not_le hlt)
      set k := (offset - base).toNat / wordsize
      obtain ⟨taken, hsplit, hwords, hbits⟩ := ih (bitmap ||| 1#64 <<< k)
      refine ⟨offset :: taken, congrArg _ hsplit, ?_, fun b => ?_⟩
      · rw [List.forall_mem_cons]
        exact ⟨⟨k, hk, hoffset⟩, hwords⟩
      · have hk64 : k < 64 := hk.trans (by decide)
        rw [hbits, BitVec.getLsbD_or, Bool.or_eq_true, getLsbD_one_shiftLeft hk64, or_assoc,
          List.mem_cons, hoffset]
        refine or_congr_right ⟨?_, ?_⟩
        · rintro (rfl | ⟨hb, hmem⟩)
          · exact ⟨hk, .inl rfl⟩
          · exact ⟨hb, .inr hmem⟩
        · rintro ⟨hb, heq | hmem⟩
          · exact .inl (wordAt_inj (hb.trans (by decide)) hk64 heq)
          · exact .inr ⟨hb, hmem⟩

-- Nothing is folded exactly if the bitmap is empty.
theorem foldable_nonempty {base : Word} {offsets taken : List Word}
    (hwords : ∀ o ∈ taken, ∃ b < nBits, o = wordAt base b)
    (hbits : ∀ b, (foldable base 0#64 offsets).1.getLsbD b ↔
      (0#64).getLsbD b ∨ b < nBits ∧ wordAt base b ∈ taken) :
    (foldable base 0#64 offsets).1 = 0#64 ↔ taken = [] := by
  constructor
  · intro hzero
    rw [List.eq_nil_iff_forall_not_mem]
    intro o ho
    obtain ⟨b, hb, rfl⟩ := hwords o ho
    have hbit := (hbits b).mpr (.inr ⟨hb, ho⟩)
    rw [hzero, BitVec.getLsbD_zero] at hbit
    cases hbit
  · rintro rfl
    apply BitVec.eq_of_getLsbD_eq
    intro b _
    have hbit := hbits b
    simp only [BitVec.getLsbD_zero, Bool.false_eq_true, List.not_mem_nil, and_false, or_false,
      iff_false, Bool.not_eq_true] at hbit
    rw [hbit, BitVec.getLsbD_zero]

end Platypus.Linker.RelrSection
