import Platypus.Text.Fields

-- Texts that are built from words: how they split, and what they contain.

namespace Platypus.Text

theorem isBlank_space : isBlank ' ' = true := by decide

-- A text that starts and ends with a visible character.
def Tight (s : List Char) : Prop :=
  (∃ c rest, s = c :: rest ∧ isBlank c = false) ∧ ∃ init c, s = init ++ [c] ∧ isBlank c = false

-- A word: visible characters only.
def Word (s : List Char) : Prop := s ≠ [] ∧ ∀ c ∈ s, isBlank c = false

theorem Word.of_all {s : List Char} (h : (!s.isEmpty && s.all fun c => !isBlank c) = true) : Word s := by
  rw [Bool.and_eq_true, List.all_eq_true] at h
  refine ⟨?_, fun c hc => by simpa using h.2 c hc⟩
  rintro rfl
  exact Bool.false_ne_true h.1

theorem Word.tight {s : List Char} (h : Word s) : Tight s := by
  obtain ⟨c, rest, rfl⟩ := List.exists_cons_of_ne_nil h.1
  refine ⟨⟨c, rest, rfl, h.2 c List.mem_cons_self⟩, (c :: rest).dropLast, (c :: rest).getLast h.1,
    (List.dropLast_append_getLast h.1).symm, h.2 _ (List.getLast_mem h.1)⟩

theorem Tight.append {s t : List Char} (hs : Tight s) (ht : Tight t) (mid : List Char) :
    Tight (s ++ mid ++ t) := by
  obtain ⟨⟨c, rest, rfl, hc⟩, -⟩ := hs
  obtain ⟨-, init, c', rfl, hc'⟩ := ht
  exact ⟨⟨c, rest ++ mid ++ (init ++ [c']), by simp, hc⟩, c :: rest ++ mid ++ init, c', by simp, hc'⟩

theorem dropWhile_blanks {pre s : List Char} (hpre : ∀ c ∈ pre, isBlank c = true) :
    (pre ++ s).dropWhile isBlank = s.dropWhile isBlank := by
  induction pre with
  | nil => rfl
  | cons c pre ih =>
    rw [List.cons_append, List.dropWhile_cons, if_pos (hpre c List.mem_cons_self)]
    exact ih fun c hc => hpre c (List.mem_cons_of_mem _ hc)

theorem strip_blanks {pre s post : List Char} (hs : Tight s) (hpre : ∀ c ∈ pre, isBlank c = true)
    (hpost : ∀ c ∈ post, isBlank c = true) : strip (pre ++ s ++ post) = s := by
  obtain ⟨⟨c, rest, hc, hvisible⟩, init, c', hc', hvisible'⟩ := hs
  have hfront : (pre ++ s ++ post).dropWhile isBlank = s ++ post := by
    rw [List.append_assoc, dropWhile_blanks hpre, hc, List.cons_append, List.dropWhile_cons,
      if_neg (by rw [hvisible]; exact Bool.false_ne_true)]
  rw [strip, hfront, List.rdropWhile, List.reverse_append,
    dropWhile_blanks fun c hc => hpost c (List.mem_reverse.mp hc), hc', List.reverse_append,
    List.reverse_singleton, List.singleton_append, List.dropWhile_cons,
    if_neg (by rw [hvisible']; exact Bool.false_ne_true), List.reverse_cons, List.reverse_reverse]

theorem strip_tight {s : List Char} (hs : Tight s) : strip s = s := by
  have h : strip ([] ++ s ++ []) = s := strip_blanks hs (by simp) (by simp)
  rwa [List.nil_append, List.append_nil] at h

theorem strip_between {s : List Char} (hs : Tight s) : strip (' ' :: (s ++ [' '])) = s :=
  strip_blanks (s := s) hs (List.forall_mem_singleton.mpr isBlank_space)
    (List.forall_mem_singleton.mpr isBlank_space)

theorem strip_after {s : List Char} (hs : Tight s) : strip (' ' :: s) = s := by
  have h : strip ([' '] ++ s ++ []) = s := strip_blanks hs (by simp [isBlank_space]) (by simp)
  rwa [List.append_nil] at h

theorem strip_before {s : List Char} (hs : Tight s) : strip (s ++ [' ']) = s := by
  have h : strip ([] ++ s ++ [' ']) = s := strip_blanks hs (by simp) (by simp [isBlank_space])
  rwa [List.nil_append] at h

-- How a text splits at a separator.

theorem fields_cons {sep : Char} {xs : List Char} (h : sep ∉ xs) (ys : List Char) :
    fields sep (xs ++ sep :: ys) = strip xs :: fields sep ys := by
  rw [fields, List.splitOn, List.splitOnP_append_cons_of_forall_mem, List.map_cons]
  · rfl
  · intro x hx
    rw [beq_eq_false_iff_ne]
    rintro rfl
    exact h hx
  · exact beq_self_eq_true sep

theorem fields_singleton {sep : Char} {xs : List Char} (h : sep ∉ xs) :
    fields sep xs = [strip xs] := by
  rw [fields, List.splitOn, List.splitOnP_eq_singleton, List.map_singleton]
  intro x hx
  rw [beq_eq_false_iff_ne]
  rintro rfl
  exact h hx

theorem splitFirst_cons {sep : Char} {xs : List Char} (h : sep ∉ xs) (ys : List Char) :
    splitFirst sep (xs ++ sep :: ys) = (xs, ys) := by
  rw [splitFirst, takeWhile_ne_append h]
  refine Prod.ext rfl ?_
  have hdrop : (xs ++ sep :: ys).dropWhile (· ≠ sep) = sep :: ys := by
    induction xs with
    | nil => simp
    | cons x xs ih =>
      rw [List.cons_append, List.dropWhile_cons, if_pos]
      · exact ih fun hx => h (List.mem_cons_of_mem _ hx)
      · exact decide_eq_true fun hx => h (hx ▸ List.mem_cons_self)
  rw [hdrop]
  rfl

theorem words_cons {w : List Char} (hw : Word w) (rest : List Char) :
    words (w ++ ' ' :: rest) = w :: words rest := by
  rw [words, List.splitOnP_append_cons_of_forall_mem hw.2 ' ' isBlank_space, List.filter_cons,
    if_pos (decide_eq_true hw.1)]
  rfl

theorem words_singleton {w : List Char} (hw : Word w) : words w = [w] := by
  rw [words, List.splitOnP_eq_singleton hw.2, List.filter_cons, if_pos (decide_eq_true hw.1)]
  rfl

-- A phrase of at least two words is found where its first word ends one and the rest follows.

theorem contains_iff {s sub : List Char} : contains s sub = true ↔ sub <:+: s := by
  rw [contains, List.any_eq_true]
  constructor
  · rintro ⟨t, ht, hpre⟩
    exact (List.isPrefixOf_iff_prefix.mp hpre).isInfix.trans ((List.mem_tails _ _).mp ht).isInfix
  · rintro ⟨a, b, rfl⟩
    refine ⟨sub ++ b, (List.mem_tails _ _).mpr ⟨a, by simp⟩, ?_⟩
    exact List.isPrefixOf_iff_prefix.mpr (List.prefix_append _ _)

theorem contains_word {w u : List Char} (hw : ' ' ∉ w) (v : List Char) :
    contains w (u ++ ' ' :: v) = false := by
  rw [← Bool.not_eq_true, contains_iff]
  intro h
  exact hw (h.subset (by simp))

theorem contains_cons {w u : List Char} (hw : ' ' ∉ w) (hu : ' ' ∉ u) (rest v : List Char)
    (h : contains (w ++ ' ' :: rest) (u ++ ' ' :: v) = true) :
    (u <:+ w ∧ v <+: rest) ∨ contains rest (u ++ ' ' :: v) = true := by
  rw [contains_iff] at h
  obtain ⟨a, b, hab⟩ := h
  rw [List.append_assoc, List.append_assoc, List.cons_append, ← List.append_assoc] at hab
  by_cases ha : ' ' ∈ a
  · -- The phrase starts after the first blank.
    right
    obtain ⟨a₁, a₂, rfl, hfirst⟩ := List.eq_append_cons_of_mem ha
    rw [List.append_assoc, List.append_assoc, List.cons_append] at hab
    obtain ⟨-, hrest⟩ := append_cons_inj_of_first hfirst hw hab
    rw [contains_iff]
    exact ⟨a₂, b, by rw [← hrest]; simp⟩
  · left
    have hau : ' ' ∉ a ++ u := by simp [ha, hu]
    obtain ⟨hsuffix, hprefix⟩ := append_cons_inj_of_first hau hw hab
    exact ⟨⟨a, hsuffix⟩, ⟨b, hprefix⟩⟩

-- Words with single blanks between them.
def phrase : List (List Char) → List Char
  | [] => []
  | [w] => w
  | w :: w' :: ws => w ++ ' ' :: phrase (w' :: ws)

theorem phrase_head? {w : List Char} (hw : w ≠ []) (ws : List (List Char)) :
    (phrase (w :: ws)).head? = w.head? := by
  cases ws with
  | nil => rfl
  | cons w' ws => rw [phrase, List.head?_append_of_ne_nil _ hw]

theorem Word.no_space {w : List Char} (h : Word w) : ' ' ∉ w := fun hmem => by
  have hblank := h.2 ' ' hmem
  rw [isBlank_space] at hblank
  cases hblank

theorem phrase_tight {ws : List (List Char)} (hne : ws ≠ []) (hws : ∀ w ∈ ws, Word w) :
    Tight (phrase ws) := by
  induction ws with
  | nil => exact absurd rfl hne
  | cons w ws ih =>
    have hw := (hws w List.mem_cons_self).tight
    cases ws with
    | nil => exact hw
    | cons w' ws =>
      have hrest := ih (List.cons_ne_nil _ _) fun w hw => hws w (List.mem_cons_of_mem _ hw)
      have happend := hw.append hrest [' ']
      rwa [List.append_assoc, List.singleton_append] at happend

-- A phrase is not found if at each blank the characters beside it are not the right ones.
theorem not_contains_phrase {u v : List Char} (hu : ' ' ∉ u) (hune : u ≠ []) (hvne : v ≠ [])
    (ws : List (List Char)) (hws : ∀ w ∈ ws, Word w)
    (hpairs : ws.IsChain fun w w' => w.getLast? ≠ u.getLast? ∨ w'.head? ≠ v.head?) :
    contains (phrase ws) (u ++ ' ' :: v) = false := by
  induction ws with
  | nil => exact contains_word (by simp [phrase]) v
  | cons w ws ih =>
    have hw := hws w List.mem_cons_self
    have hrest : ∀ w ∈ ws, Word w := fun w hw => hws w (List.mem_cons_of_mem _ hw)
    cases ws with
    | nil => exact contains_word hw.no_space v
    | cons w' ws =>
      rw [List.isChain_cons_cons] at hpairs
      rw [← Bool.not_eq_true]
      intro h
      rcases contains_cons hw.no_space hu _ v h with ⟨hsuffix, hprefix⟩ | hlater
      · rcases hpairs.1 with hlast | hhead
        · obtain ⟨a, rfl⟩ := hsuffix
          exact hlast (List.getLast?_append_of_ne_nil _ hune)
        · obtain ⟨b, hb⟩ := hprefix
          apply hhead
          rw [← phrase_head? (hrest w' List.mem_cons_self).1 ws, ← hb,
            List.head?_append_of_ne_nil _ hvne]
      · rw [ih hrest hpairs.2] at hlater
        exact Bool.false_ne_true hlater

end Platypus.Text
