import Platypus.Text.Phrases

namespace Platypus.Text

-- The lines that a break ends, and the rest of the text if it is not empty.
def linesBy (isBreak : Char → Bool) : List Char → List (List Char)
  | [] => []
  | c :: cs =>
    if isBreak c then [] :: linesBy isBreak cs
    else
      match linesBy isBreak cs with
      | [] => [[c]]
      | l :: ls => (c :: l) :: ls

-- `std::getline`
def getlines (delim : Char) : List Char → List (List Char) := linesBy fun c => c = delim

-- The breaks of `str.splitlines`, in a text that was read with universal newlines.
def isLineBreak (c : Char) : Bool :=
  let n := c.toNat
  (10 ≤ n && n ≤ 13) || (28 ≤ n && n ≤ 30) || n == 0x85 || n == 0x2028 || n == 0x2029

def splitlines : List Char → List (List Char) := linesBy isLineBreak

-- What a file opened in text mode reads.
def universalNewlines : List Char → List Char
  | [] => []
  | '\r' :: '\n' :: cs => '\n' :: universalNewlines cs
  | c :: cs => (if c = '\r' then '\n' else c) :: universalNewlines cs

section Lines

variable {isBreak : Char → Bool} {b : Char}

theorem linesBy_append (hb : isBreak b = true) (s t : List Char) :
    linesBy isBreak (s ++ b :: t) = linesBy isBreak (s ++ [b]) ++ linesBy isBreak t := by
  induction s with
  | nil => simp [linesBy, hb]
  | cons c s ih =>
    simp only [List.cons_append, linesBy]
    by_cases hc : isBreak c = true
    · rw [if_pos hc, if_pos hc, ih, List.cons_append]
    · rw [if_neg hc, if_neg hc, ih]
      cases hs : linesBy isBreak (s ++ [b]) with
      | nil =>
        -- a text with a break has a line
        cases s with
        | nil => simp [linesBy, hb] at hs
        | cons d s =>
          simp only [List.cons_append, linesBy] at hs
          split at hs
          · cases hs
          · split at hs <;> cases hs
      | cons l ls => rfl

theorem linesBy_line (hb : isBreak b = true) {s : List Char} (hs : ∀ c ∈ s, isBreak c = false) :
    linesBy isBreak (s ++ [b]) = [s] := by
  induction s with
  | nil => simp [linesBy, hb]
  | cons c s ih =>
    have hc := hs c List.mem_cons_self
    rw [List.cons_append, linesBy, hc, ih fun d hd => hs d (List.mem_cons_of_mem c hd)]
    rfl

theorem linesBy_rest {s : List Char} (hne : s ≠ []) (hs : ∀ c ∈ s, isBreak c = false) :
    linesBy isBreak s = [s] := by
  induction s with
  | nil => exact absurd rfl hne
  | cons c s ih =>
    have hc := hs c List.mem_cons_self
    rw [linesBy, hc]
    cases s with
    | nil => rfl
    | cons d s =>
      rw [ih (List.cons_ne_nil _ _) fun e he => hs e (List.mem_cons_of_mem c he)]
      rfl

theorem linesBy_unbroken {s l : List Char} (h : l ∈ linesBy isBreak s) :
    ∀ c ∈ l, isBreak c = false := by
  induction s generalizing l with
  | nil => cases h
  | cons c s ih =>
    rw [linesBy] at h
    by_cases hc : isBreak c = true
    · rw [if_pos hc] at h
      rcases List.mem_cons.mp h with rfl | h
      · exact fun d hd => absurd hd List.not_mem_nil
      · exact ih h
    · rw [if_neg hc] at h
      have hcons {t : List Char} (ht : ∀ d ∈ t, isBreak d = false) :
          ∀ d ∈ c :: t, isBreak d = false :=
        List.forall_mem_cons.mpr ⟨Bool.eq_false_of_not_eq_true hc, ht⟩
      split at h
      · cases List.mem_singleton.mp h
        exact hcons fun d hd => absurd hd List.not_mem_nil
      · rename_i l' ls hls
        rw [hls] at ih
        rcases List.mem_cons.mp h with rfl | h
        · exact hcons (ih List.mem_cons_self)
        · exact ih (List.mem_cons_of_mem l' h)

end Lines

theorem universalNewlines_of_not_mem {s : List Char} (h : '\r' ∉ s) : universalNewlines s = s := by
  induction s with
  | nil => rfl
  | cons c s ih =>
    rw [List.mem_cons, not_or] at h
    rw [universalNewlines, if_neg (Ne.symm h.1), ih h.2]
    exact fun _ hc => absurd hc.symm h.1

-- A newline ends what was read before it.
theorem universalNewlines_append (s t : List Char) :
    ∃ s', universalNewlines (s ++ ['\n']) = s' ++ ['\n'] ∧
      universalNewlines (s ++ '\n' :: t) = s' ++ '\n' :: universalNewlines t := by
  fun_induction universalNewlines s with
  | case1 => exact ⟨[], rfl, rfl⟩
  | case2 cs ih =>
    obtain ⟨s', h, h'⟩ := ih
    refine ⟨'\n' :: s', ?_, ?_⟩
    · simp [universalNewlines, h]
    · simp [universalNewlines, h']
  | case3 c cs hne ih =>
    obtain ⟨s', h, h'⟩ := ih
    by_cases hcr : c = '\r' ∧ cs = []
    · obtain ⟨rfl, rfl⟩ := hcr
      exact ⟨[], rfl, rfl⟩
    · -- the newline is not the second half of a pair
      have hstep : ∀ u, universalNewlines (c :: (cs ++ '\n' :: u)) =
          (if c = '\r' then '\n' else c) :: universalNewlines (cs ++ '\n' :: u) := by
        intro u
        rw [universalNewlines]
        intro cs' hc hcs
        cases cs with
        | nil => exact hcr ⟨hc, rfl⟩
        | cons d ds => exact hne ds hc (by rw [(List.cons.inj hcs).1])
      refine ⟨(if c = '\r' then '\n' else c) :: s', ?_, ?_⟩
      · rw [List.cons_append, hstep [], h, List.cons_append]
      · rw [List.cons_append, hstep t, h', List.cons_append]

-- So the lines of a text are those of its printed parts, if each part ends with a newline.
theorem splitlines_read_append (s t : List Char) :
    splitlines (universalNewlines (s ++ '\n' :: t)) =
      splitlines (universalNewlines (s ++ ['\n'])) ++ splitlines (universalNewlines t) := by
  obtain ⟨s', h, h'⟩ := universalNewlines_append s t
  rw [h, h']
  exact linesBy_append (by decide) s' _

theorem splitlines_read_line {s : List Char} (hs : ∀ c ∈ s, isLineBreak c = false) :
    splitlines (universalNewlines (s ++ ['\n'])) = [s] := by
  have hcr : '\r' ∉ s ++ ['\n'] := by
    intro hmem
    rcases List.mem_append.mp hmem with hmem | hmem
    · exact absurd (hs _ hmem) (by decide)
    · exact absurd (List.mem_singleton.mp hmem) (by decide)
  rw [universalNewlines_of_not_mem hcr]
  exact linesBy_line (by decide) hs

end Platypus.Text
