import Platypus.Parser.Check

namespace Platypus.Parser

-- Every table is still there and starts with what it had.
def Tables.Le (t t' : Tables) : Prop :=
  ∀ tag es, t.get? tag = some es → ∃ es', t'.get? tag = some es' ∧ es <+: es'

def InTable (t : Tables) (tag : Tag) (e : Entry) : Prop := ∃ es, t.get? tag = some es ∧ e ∈ es

namespace Tables.Le

variable {t t₁ t₂ : Tables} {tag : Tag} {es ys : List Entry}

theorem refl (t : Tables) : t.Le t := fun _ es h => ⟨es, h, List.prefix_rfl⟩

theorem trans (h₁ : t.Le t₁) (h₂ : t₁.Le t₂) : t.Le t₂ := by
  intro tag es hes
  obtain ⟨es₁, hes₁, hpre₁⟩ := h₁ tag es hes
  obtain ⟨es₂, hes₂, hpre₂⟩ := h₂ tag es₁ hes₁
  exact ⟨es₂, hes₂, hpre₁.trans hpre₂⟩

theorem set_append (h : t.get? tag = some es) : t.Le (t.set tag (es ++ ys)) := by
  intro tag' es' hes'
  by_cases htag : tag' = tag
  · subst htag
    rw [h, Option.some_inj] at hes'
    subst hes'
    exact ⟨es ++ ys, t.get?_set_self _ _, List.prefix_append _ _⟩
  · exact ⟨es', by rw [t.get?_set_of_ne _ htag]; exact hes', List.prefix_rfl⟩

theorem set_new (h : t.get? tag = none) : t.Le (t.set tag ys) := by
  intro tag' es' hes'
  have htag : tag' ≠ tag := by
    rintro rfl
    rw [h] at hes'
    cases hes'
  exact ⟨es', by rw [t.get?_set_of_ne _ htag]; exact hes', List.prefix_rfl⟩

theorem inTable {e : Entry} (h : t.Le t₁) (he : InTable t tag e) : InTable t₁ tag e := by
  obtain ⟨es, hes, hmem⟩ := he
  obtain ⟨es', hes', hpre⟩ := h tag es hes
  exact ⟨es', hes', hpre.subset hmem⟩

end Tables.Le

theorem inTable_set {t : Tables} {tag : Tag} {es : List Entry} {e : Entry} (h : e ∈ es) :
    InTable (t.set tag es) tag e := ⟨es, t.get?_set_self _ _, h⟩

-- An operation on a table keeps the others, appends to it, and leaves the entry in it.
structure Adds (t t' : Tables) (tag : Tag) (e : Entry) : Prop where
  le : t.Le t'
  mem : InTable t' tag e

section Operations

variable {t t' : Tables} {tag : Tag} {e : Entry}

theorem append_adds (h : t.append tag e = some t') : Adds t t' tag e := by
  obtain ⟨es, hes, rfl⟩ := Option.map_eq_some_iff.mp h
  exact ⟨.set_append hes, inTable_set (by simp)⟩

theorem appendNew_adds (h : t.appendNew tag e = some t') : Adds t t' tag e := by
  obtain ⟨es, hes, hset⟩ := Option.map_eq_some_iff.mp h
  split at hset
  · subst hset
    exact ⟨.refl _, es, hes, ‹_›⟩
  · subst hset
    exact ⟨.set_append hes, inTable_set (by simp)⟩

theorem addOrCreate_adds (t : Tables) (tag : Tag) (e : Entry) : Adds t (t.addOrCreate tag e) tag e := by
  unfold Tables.addOrCreate
  split
  · exact ⟨.set_new ‹_›, inTable_set (by simp)⟩
  · split
    · exact ⟨.refl _, _, ‹_›, ‹_›⟩
    · exact ⟨.set_append ‹_›, inTable_set (by simp)⟩

theorem addUnlessText_le (t : Tables) (tag : Tag) (guard : Name) (e : Entry) :
    t.Le (t.addUnlessText tag guard e) := by
  unfold Tables.addUnlessText
  split
  · exact .set_new ‹_›
  · split
    · exact .refl _
    · exact .set_append ‹_›

-- A text without an underscore is no entry, so that the guard never stops the addition.
theorem addUnlessText_adds (t : Tables) (tag : Tag) (guard : Name) (e : Entry) (h : '_' ∉ guard) :
    Adds t (t.addUnlessText tag guard e) tag e := by
  refine ⟨addUnlessText_le t tag guard e, ?_⟩
  unfold Tables.addUnlessText
  split
  · exact inTable_set (by simp)
  · rename_i es hes
    have hguard : guard ∉ es.map Entry.text := by
      intro hmem
      obtain ⟨e', -, rfl⟩ := List.mem_map.mp hmem
      exact h e'.marked
    rw [if_neg hguard]
    exact inTable_set (by simp)

end Operations

-- A loop that adds the entries of a list to one table.
theorem trace_adds {ε : Type} {add : Tables → ε → Option Tables} {tag : Tag} (f : ε → Entry)
    (hadd : ∀ t x t', add t x = some t' → Adds t t' tag (f x)) {t t' : Tables} {xs : List ε}
    (h : State.trace add t xs = some t') : t.Le t' ∧ ∀ x ∈ xs, InTable t' tag (f x) := by
  have hmeets : State.Meets add (fun _ _ => True) t xs := fun _ _ _ _ _ _ => trivial
  have hle : ∀ t x t', True → add t x = some t' → t.Le t' := fun t x t' _ h => (hadd t x t' h).le
  refine ⟨State.trace_le Tables.Le.refl (fun _ _ _ => .trans) hle hmeets h, fun x hx => ?_⟩
  exact State.trace_achieves Tables.Le.refl (fun _ _ _ => .trans) hle
    (fun x t => InTable t tag (f x)) (fun t x t' _ h => (hadd t x t' h).mem)
    (fun _ _ _ hle => hle.inTable) hmeets h hx

end Platypus.Parser
