import Mathlib

namespace Platypus.Text

-- Texts are compared character by character.
instance instLawfulBEqText : LawfulBEq (List Char) := inferInstance

-- The last occurrence of `a` splits a text in one way.
theorem append_cons_inj_of_last {α : Type} {xs ys s t : List α} {a : α} (hs : a ∉ s) (ht : a ∉ t)
    (h : xs ++ a :: s = ys ++ a :: t) : xs = ys ∧ s = t := by
  rcases List.append_eq_append_iff.mp h with ⟨c, rfl, hc⟩ | ⟨c, rfl, hc⟩
  · cases c with
    | nil =>
      rw [List.nil_append, List.cons_inj_right] at hc
      exact ⟨(List.append_nil xs).symm, hc⟩
    | cons b c =>
      rw [List.cons_append, List.cons_eq_cons] at hc
      exact absurd (hc.2 ▸ List.mem_append_right c List.mem_cons_self) hs
  · cases c with
    | nil =>
      rw [List.nil_append, List.cons_inj_right] at hc
      exact ⟨List.append_nil ys, hc.symm⟩
    | cons b c =>
      rw [List.cons_append, List.cons_eq_cons] at hc
      exact absurd (hc.2 ▸ List.mem_append_right c List.mem_cons_self) ht

theorem takeWhile_ne_append {α : Type} [DecidableEq α] {xs : List α} {a : α} (h : a ∉ xs) (s : List α) :
    (xs ++ a :: s).takeWhile (· ≠ a) = xs := by
  have hxs : ∀ x ∈ xs, decide (x ≠ a) = true := fun x hx => decide_eq_true fun hxa => h (hxa ▸ hx)
  rw [List.takeWhile_append_of_pos hxs, List.takeWhile_cons_of_neg (by simp), List.append_nil]

-- So does the first one.
theorem append_cons_inj_of_first {α : Type} [DecidableEq α] {xs ys s t : List α} {a : α}
    (hx : a ∉ xs) (hy : a ∉ ys) (h : xs ++ a :: s = ys ++ a :: t) : xs = ys ∧ s = t := by
  have hxy : xs = ys := by
    rw [← takeWhile_ne_append hx s, h, takeWhile_ne_append hy t]
  subst hxy
  exact ⟨rfl, by simpa using h⟩

-- The digits of the C library's number formats.
def digitValue (c : Char) : Nat :=
  if '0' ≤ c ∧ c ≤ '9' then c.toNat - '0'.toNat
  else if 'a' ≤ c ∧ c ≤ 'z' then c.toNat - 'a'.toNat + 10
  else if 'A' ≤ c ∧ c ≤ 'Z' then c.toNat - 'A'.toNat + 10
  else 36

def IsDigit (base : Nat) (c : Char) : Prop := digitValue c < base

instance (base : Nat) (c : Char) : Decidable (IsDigit base c) :=
  inferInstanceAs (Decidable (digitValue c < base))

-- The number that digits write, the most significant first.
def ofDigits (base : Nat) (ds : List Char) : Nat := ds.foldl (fun n c => n * base + digitValue c) 0

theorem ofDigits_append_singleton (base : Nat) (ds : List Char) (c : Char) :
    ofDigits base (ds ++ [c]) = ofDigits base ds * base + digitValue c := by
  simp [ofDigits]

theorem digitValue_digitChar : ∀ d < 16, digitValue (Nat.digitChar d) = d := by decide

theorem toDigits_split {n : Nat} (h : 16 ≤ n) :
    Nat.toDigits 16 n = Nat.toDigits 16 (n / 16) ++ [Nat.digitChar (n % 16)] :=
  Nat.toDigits_of_base_le (by decide) h

theorem ofDigits_toDigits (n : Nat) : ofDigits 16 (Nat.toDigits 16 n) = n := by
  induction n using Nat.strong_induction_on with
  | h n ih =>
    rcases Nat.lt_or_ge n 16 with h | h
    · rw [Nat.toDigits_of_lt_base h]
      simp [ofDigits, digitValue_digitChar n h]
    · have hmod : n % 16 < 16 := Nat.mod_lt n (by decide)
      rw [toDigits_split h, ofDigits_append_singleton, ih (n / 16) (by omega),
        digitValue_digitChar _ hmod]
      omega

theorem isDigit_of_mem_toDigits (n : Nat) : ∀ c ∈ Nat.toDigits 16 n, IsDigit 16 c := by
  induction n using Nat.strong_induction_on with
  | h n ih =>
    have hdigit (d : Nat) (hd : d < 16) : IsDigit 16 (Nat.digitChar d) := by
      rw [IsDigit, digitValue_digitChar d hd]
      exact hd
    intro c hc
    rcases Nat.lt_or_ge n 16 with h | h
    · rw [Nat.toDigits_of_lt_base h, List.mem_singleton] at hc
      exact hc ▸ hdigit n h
    · rw [toDigits_split h, List.mem_append, List.mem_singleton] at hc
      rcases hc with hc | rfl
      · exact ih (n / 16) (by omega) c hc
      · exact hdigit _ (Nat.mod_lt n (by decide))

theorem underscore_not_mem_of_digits {base : Nat} (hbase : base ≤ 36) {ds : List Char}
    (h : ∀ c ∈ ds, IsDigit base c) : '_' ∉ ds := by
  intro hmem
  have hlt : digitValue '_' < base := h _ hmem
  have h36 : digitValue '_' = 36 := by decide
  omega

def isSpace (c : Char) : Bool := c = ' ' || ('\t' ≤ c && c ≤ '\r')

-- The number after the sign, in the base that its start tells: `strtol` with base 0.
def strtolUnsigned : List Char → Nat
  | '0' :: x :: c :: cs =>
    if (x = 'x' ∨ x = 'X') ∧ IsDigit 16 c then
      ofDigits 16 ((c :: cs).takeWhile fun c => decide (IsDigit 16 c))
    else ofDigits 8 ((x :: c :: cs).takeWhile fun c => decide (IsDigit 8 c))
  | '0' :: cs => ofDigits 8 (cs.takeWhile fun c => decide (IsDigit 8 c))
  | cs => ofDigits 10 (cs.takeWhile fun c => decide (IsDigit 10 c))

def strtol (text : List Char) : Int :=
  match text.dropWhile isSpace with
  | '-' :: cs => max (-2 ^ 63) (-(strtolUnsigned cs : Int))
  | '+' :: cs => min (2 ^ 63 - 1) (strtolUnsigned cs)
  | cs => min (2 ^ 63 - 1) (strtolUnsigned cs)

theorem strtolUnsigned_hex (ds : List Char) (hne : ds ≠ []) (h : ∀ c ∈ ds, IsDigit 16 c) :
    strtolUnsigned ('0' :: 'x' :: ds) = ofDigits 16 ds := by
  obtain ⟨c, cs, rfl⟩ := List.exists_cons_of_ne_nil hne
  rw [strtolUnsigned, if_pos ⟨.inl rfl, h c List.mem_cons_self⟩, List.takeWhile_eq_self_iff.mpr]
  exact fun c hc => decide_eq_true (h c hc)

-- The numbers that a `long` holds are read as they are written, the others as the largest one.
theorem strtol_hex (ds : List Char) (hne : ds ≠ []) (h : ∀ c ∈ ds, IsDigit 16 c) :
    strtol ('0' :: 'x' :: ds) = (min (ofDigits 16 ds) (2 ^ 63 - 1) : Nat) := by
  have hspace : ('0' :: 'x' :: ds).dropWhile isSpace = '0' :: 'x' :: ds := rfl
  rw [strtol, hspace]
  change min (2 ^ 63 - 1) (strtolUnsigned ('0' :: 'x' :: ds) : Int) = _
  rw [strtolUnsigned_hex ds hne h]
  omega

end Platypus.Text
