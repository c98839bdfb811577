import Mathlib

namespace Platypus.Bytes

abbrev Byte := BitVec 8

-- An output buffer, addressed from its start.
abbrev Buffer := Nat → Byte

def le32 (w : BitVec 32) : List Byte :=
  [w.extractLsb' 0 8, w.extractLsb' 8 8, w.extractLsb' 16 8, w.extractLsb' 24 8]

def ofLe32 (b₀ b₁ b₂ b₃ : Byte) : BitVec 32 := b₃ ++ b₂ ++ b₁ ++ b₀

theorem ofLe32_le32 (w : BitVec 32) :
    ofLe32 (w.extractLsb' 0 8) (w.extractLsb' 8 8) (w.extractLsb' 16 8) (w.extractLsb' 24 8) = w := by
  apply BitVec.eq_of_getLsbD_eq
  intro i hi
  simp only [ofLe32, BitVec.getLsbD_append, BitVec.getLsbD_extractLsb']
  -- which of the four bytes holds bit `i`
  rcases Nat.lt_or_ge i 8 with h | h
  · simp [h]
  rcases Nat.lt_or_ge i 16 with h' | h'
  · simp [show ¬ i < 8 by omega, show i - 8 < 8 by omega, show 8 + (i - 8) = i by omega]
  rcases Nat.lt_or_ge i 24 with h'' | h''
  · simp [show ¬ i < 8 by omega, show ¬ i - 8 < 8 by omega, show i - 8 - 8 < 8 by omega,
      show 16 + (i - 8 - 8) = i by omega]
  · simp [show ¬ i < 8 by omega, show ¬ i - 8 < 8 by omega, show ¬ i - 8 - 8 < 8 by omega,
      show i - 8 - 8 - 8 < 8 by omega, show 24 + (i - 8 - 8 - 8) = i by omega]

-- `bs` with the bytes from `k` on replaced by `new`.
def patch (bs : List Byte) (k : Nat) (new : List Byte) : List Byte :=
  bs.take k ++ new ++ bs.drop (k + new.length)

def write32le (bs : List Byte) (k : Nat) (w : BitVec 32) : List Byte := patch bs k (le32 w)

def memcpy (buf : Buffer) (off : Nat) (bs : List Byte) : Buffer := fun i =>
  if off ≤ i ∧ i < off + bs.length then bs.getD (i - off) 0#8 else buf i

def read (buf : Buffer) (off n : Nat) : List Byte := (List.range n).map fun k => buf (off + k)

theorem memcpy_of_lt (buf : Buffer) (off i : Nat) (bs : List Byte) (h : i < off) :
    memcpy buf off bs i = buf i := if_neg (by omega)

theorem read_memcpy (buf : Buffer) (off : Nat) (bs : List Byte) :
    read (memcpy buf off bs) off bs.length = bs := by
  apply List.ext_getElem
  · simp [read]
  · intro k hk hk'
    simp [read, memcpy, hk']

theorem read_memcpy_of_le (buf : Buffer) (off off' n : Nat) (bs : List Byte) (h : off + n ≤ off') :
    read (memcpy buf off' bs) off n = read buf off n := by
  apply List.map_congr_left
  intro k hk
  rw [List.mem_range] at hk
  exact memcpy_of_lt _ _ _ _ (by omega)

theorem read_add (buf : Buffer) (off m n : Nat) :
    read buf off (m + n) = read buf off m ++ read buf (off + m) n := by
  simp [read, List.range_add, Function.comp_def, Nat.add_assoc]

-- A buffer as a part of a file, and a slice of that part.
theorem slice_eq_read {content : List Byte} {buf : Buffer} {start size : Nat}
    (h : ∀ k < size, content[start + k]? = some (buf k)) (off n : Nat) (hn : off + n ≤ size) :
    (((content.drop start).take size).drop off).take n = read buf off n := by
  apply List.ext_getElem?
  intro k
  by_cases hk : k < n
  · have hcontent := h (off + k) (by omega)
    have hsize : off + k < size := by omega
    simp [read, List.getElem?_drop, hk, hsize, hcontent]
  · simp [read, hk]

section Records

-- Records of at most `stride` bytes, written one after the other at multiples of `stride`.
variable {α : Type} (stride : Nat) (enc : α → Nat → Option (List Byte))

def writeRecords : List α → Nat → Buffer → Option Buffer
  | [], _, buf => some buf
  | x :: xs, off, buf =>
    match enc x off with
    | none => none
    | some bs => writeRecords xs (off + stride) (memcpy buf off bs)

variable {stride enc}

-- What lies below the write position stays.
theorem read_writeRecords_of_le (xs : List α) (off : Nat) (buf buf' : Buffer)
    (h : writeRecords stride enc xs off buf = some buf') (i n : Nat) (hi : i + n ≤ off) :
    read buf' i n = read buf i n := by
  induction xs generalizing off buf with
  | nil =>
    cases h
    rfl
  | cons x xs ih =>
    rw [writeRecords] at h
    split at h
    · cases h
    · rw [ih _ _ h (by omega), read_memcpy_of_le _ _ _ _ _ hi]

-- Each record reads back as it was encoded: the later ones start beyond its end.
theorem read_writeRecords (hsize : ∀ x off bs, enc x off = some bs → bs.length ≤ stride)
    (xs : List α) (off : Nat) (buf buf' : Buffer)
    (h : writeRecords stride enc xs off buf = some buf') (j : Nat) (x : α)
    (hx : xs[j]? = some x) :
    ∃ bs, enc x (off + stride * j) = some bs ∧
      read buf' (off + stride * j) bs.length = bs := by
  induction xs generalizing off buf j with
  | nil => simp at hx
  | cons y ys ih =>
    rw [writeRecords] at h
    split at h
    · cases h
    · rename_i bs hbs
      cases j with
      | zero =>
        obtain rfl : y = x := by simpa using hx
        refine ⟨bs, hbs, ?_⟩
        have hlen := hsize _ _ _ hbs
        rw [read_writeRecords_of_le _ _ _ _ h _ _ (by omega)]
        exact read_memcpy _ _ _
      | succ j =>
        have hoff : off + stride + stride * j = off + stride * (j + 1) := by
          rw [Nat.mul_succ]
          omega
        rw [← hoff]
        exact ih _ _ h j (by simpa using hx)

end Records

end Platypus.Bytes
