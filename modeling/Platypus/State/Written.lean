import Mathlib.Data.List.Nodup
import Mathlib.Logic.Function.Basic

-- Writes to different places of a memory, whatever their order.

namespace Platypus.State

variable {ι α β σ : Type} {place : ι → α} {value : ι → β} {is js : List ι} {m m' m'' : α → β}

-- The second memory is the first one with a value in the place of each of the writes.
structure Written (place : ι → α) (value : ι → β) (is : List ι) (m m' : α → β) : Prop where
  word : ∀ i ∈ is, m' (place i) = value i
  rest : ∀ a, (∀ i ∈ is, a ≠ place i) → m' a = m a

namespace Written

theorem nil : Written place value [] m m := ⟨fun _ h => (List.not_mem_nil h).elim, fun _ _ => rfl⟩

theorem eq (h : Written place value is m m') (h' : Written place value is m m'') : m' = m'' := by
  funext a
  by_cases ha : ∃ i ∈ is, a = place i
  · obtain ⟨i, hi, rfl⟩ := ha
    rw [h.word i hi, h'.word i hi]
  · have hnot : ∀ i ∈ is, a ≠ place i := fun i hi heq => ha ⟨i, hi, heq⟩
    rw [h.rest a hnot, h'.rest a hnot]

theorem of_perm (h : Written place value is m m') (hperm : is.Perm js) :
    Written place value js m m' :=
  ⟨fun i hi => h.word i (hperm.mem_iff.mpr hi),
    fun a ha => h.rest a fun i hi => ha i (hperm.mem_iff.mp hi)⟩

theorem append (h : Written place value is m m') (h' : Written place value js m' m'')
    (hne : ∀ i ∈ is, ∀ j ∈ js, place i ≠ place j) : Written place value (is ++ js) m m'' := by
  constructor
  · intro i hi
    rcases List.mem_append.mp hi with hi | hi
    · rw [h'.rest _ fun j hj => hne i hi j hj]
      exact h.word i hi
    · exact h'.word i hi
  · intro a ha
    rw [h'.rest a fun j hj => ha j (List.mem_append_right _ hj)]
    exact h.rest a fun i hi => ha i (List.mem_append_left _ hi)

theorem single [DecidableEq α] (i : ι) (m : α → β) :
    Written place value [i] m (Function.update m (place i) (value i)) := by
  constructor
  · intro j hj
    cases List.mem_singleton.mp hj
    exact Function.update_self ..
  · intro a ha
    exact Function.update_of_ne (ha i (List.mem_singleton_self i)) ..

theorem append_of_nodup (h : Written place value is m m') (h' : Written place value js m' m'')
    (hnodup : ((is ++ js).map place).Nodup) : Written place value (is ++ js) m m'' := by
  rw [List.map_append, List.nodup_append] at hnodup
  exact h.append h' fun i hi j hj =>
    hnodup.2.2 _ (List.mem_map_of_mem hi) _ (List.mem_map_of_mem hj)

theorem congr {value' : ι → β} (h : Written place value is m m')
    (heq : ∀ i ∈ is, value i = value' i) : Written place value' is m m' :=
  ⟨fun i hi => (h.word i hi).trans (heq i hi), h.rest⟩

-- A loop that changes the values of different places.
theorem foldlM_modify [DecidableEq α] {step : σ → ι → Option σ} {view : σ → α → β}
    {f : ι → β → β} (is : List ι)
    (hstep : ∀ i ∈ is, ∀ s, ∃ s', step s i = some s' ∧
      view s' = Function.update (view s) (place i) (f i (view s (place i))))
    (hnodup : (is.map place).Nodup) (s : σ) :
    ∃ s', is.foldlM step s = some s' ∧
      Written place (fun i => f i (view s (place i))) is (view s) (view s') := by
  induction is generalizing s with
  | nil => exact ⟨s, rfl, .nil⟩
  | cons i is ih =>
    obtain ⟨s₁, h₁, hview⟩ := hstep i List.mem_cons_self s
    obtain ⟨s₂, h₂, hrest⟩ := ih (fun j hj => hstep j (List.mem_cons_of_mem _ hj))
      (List.nodup_cons.mp hnodup).2 s₁
    refine ⟨s₂, by rw [List.foldlM_cons, h₁]; exact h₂, ?_⟩
    have hold : ∀ j ∈ is, f j (view s₁ (place j)) = f j (view s (place j)) := by
      intro j hj
      have hne : place j ≠ place i :=
        fun heq => (List.nodup_cons.mp hnodup).1 (heq ▸ List.mem_map_of_mem hj)
      rw [hview, Function.update_of_ne hne]
    have hrest := hrest.congr hold
    rw [hview] at hrest
    exact (Written.single i (view s)).append_of_nodup hrest hnodup

-- A loop of writes to different places.
theorem foldlM [DecidableEq α] {step : σ → ι → Option σ} {view : σ → α → β} (is : List ι)
    (hstep : ∀ i ∈ is, ∀ s, ∃ s', step s i = some s' ∧
      view s' = Function.update (view s) (place i) (value i))
    (hnodup : (is.map place).Nodup) (s : σ) :
    ∃ s', is.foldlM step s = some s' ∧ Written place value is (view s) (view s') :=
  foldlM_modify (f := fun i _ => value i) is hstep hnodup s

end Written

end Platypus.State
