import Mathlib

namespace Platypus.State

variable {ε σ α β : Type}

-- A successful sequence is two successful steps.
theorem bind_ok {x : EStateM ε σ α} {f : α → EStateM ε σ β} {s s'' : σ} {b : β} :
    (x >>= f) s = .ok b s'' ↔ ∃ a s', x s = .ok a s' ∧ f a s' = .ok b s'' := by
  change EStateM.bind x f s = .ok b s'' ↔ _
  unfold EStateM.bind
  cases hx : x s with
  | ok a s' =>
    constructor
    · intro h
      exact ⟨a, s', rfl, h⟩
    · rintro ⟨_, _, ⟨⟩, h⟩
      exact h
  | error e s' => simp

theorem pure_ok {s s' : σ} {a b : α} :
    (pure a : EStateM ε σ α) s = .ok b s' ↔ a = b ∧ s = s' := by
  change EStateM.Result.ok a s = .ok b s' ↔ _
  simp

theorem throw_ok {s s' : σ} {e : ε} {a : α} :
    ¬ (throw e : EStateM ε σ α) s = .ok a s' := by
  intro h
  cases h

theorem ite_ok {c : Prop} [Decidable c] {x y : EStateM ε σ α} {s s' : σ} {a : α} :
    (if c then x else y) s = .ok a s' ↔ (c ∧ x s = .ok a s') ∨ (¬ c ∧ y s = .ok a s') := by
  by_cases hc : c <;> simp [hc]

theorem modify_ok {f : σ → σ} {s s' : σ} {u : Unit} :
    (modify f : EStateM ε σ Unit) s = .ok u s' ↔ f s = s' := by
  change EStateM.Result.ok () (f s) = .ok u s' ↔ _
  simp

-- A step that keeps `view` of the state whenever it succeeds.
def Keeps {τ : Type} (view : σ → τ) (x : EStateM ε σ α) : Prop :=
  ∀ s a s', x s = .ok a s' → view s' = view s

namespace Keeps

variable {τ : Type} {view : σ → τ}

theorem pure (a : α) : Keeps view (Pure.pure a : EStateM ε σ α) := by
  intro s b s' h
  obtain ⟨_, rfl⟩ := pure_ok.mp h
  rfl

theorem throw (e : ε) : Keeps view (MonadExcept.throw e : EStateM ε σ α) := by
  intro s a s' h
  exact absurd h throw_ok

theorem bind {x : EStateM ε σ α} {f : α → EStateM ε σ β} (hx : Keeps view x)
    (hf : ∀ a, Keeps view (f a)) : Keeps view (x >>= f) := by
  intro s b s'' h
  obtain ⟨a, s', h₁, h₂⟩ := bind_ok.mp h
  exact (hf a s' b s'' h₂).trans (hx s a s' h₁)

theorem ite {c : Prop} [Decidable c] {x y : EStateM ε σ α} (hx : Keeps view x)
    (hy : Keeps view y) : Keeps view (if c then x else y) := by
  split
  · exact hx
  · exact hy

end Keeps

-- The state in which a step ends, also when it fails.
def final : EStateM.Result ε σ α → σ
  | .ok _ s => s
  | .error _ s => s

-- A step that keeps `view` of the state also when it fails.
def Leaves {τ : Type} (view : σ → τ) (x : EStateM ε σ α) : Prop := ∀ s, view (final (x s)) = view s

namespace Leaves

variable {τ : Type} {view : σ → τ}

theorem keeps {x : EStateM ε σ α} (h : Leaves view x) : Keeps view x := by
  intro s a s' hs
  have hview := h s
  rwa [hs] at hview

theorem pure (a : α) : Leaves view (Pure.pure a : EStateM ε σ α) := fun _ => rfl

theorem throw (e : ε) : Leaves view (MonadExcept.throw e : EStateM ε σ α) := fun _ => rfl

-- Only the first step matters where the second one keeps the view.
theorem final_bind (x : EStateM ε σ α) {f : α → EStateM ε σ β} (hf : ∀ a, Leaves view (f a))
    (s : σ) : view (final ((x >>= f) s)) = view (final (x s)) := by
  change view (final (EStateM.bind x f s)) = _
  unfold EStateM.bind
  cases x s with
  | ok a s' => exact hf a s'
  | error e s' => rfl

theorem bind {x : EStateM ε σ α} {f : α → EStateM ε σ β} (hx : Leaves view x)
    (hf : ∀ a, Leaves view (f a)) : Leaves view (x >>= f) := fun s =>
  (final_bind x hf s).trans (hx s)

theorem ite {c : Prop} [Decidable c] {x y : EStateM ε σ α} (hx : Leaves view x)
    (hy : Leaves view y) : Leaves view (if c then x else y) := by
  split
  · exact hx
  · exact hy

end Leaves

-- A step that never fails.
def Total (x : EStateM ε σ α) : Prop := ∀ s, ∃ a s', x s = .ok a s'

namespace Total

theorem pure (a : α) : Total (Pure.pure a : EStateM ε σ α) := fun s => ⟨a, s, rfl⟩

theorem bind {x : EStateM ε σ α} {f : α → EStateM ε σ β} (hx : Total x)
    (hf : ∀ a, Total (f a)) : Total (x >>= f) := by
  intro s
  obtain ⟨a, s', h₁⟩ := hx s
  obtain ⟨b, s'', h₂⟩ := hf a s'
  exact ⟨b, s'', bind_ok.mpr ⟨a, s', h₁, h₂⟩⟩

theorem ite {c : Prop} [Decidable c] {x y : EStateM ε σ α} (hx : Total x) (hy : Total y) :
    Total (if c then x else y) := by
  split
  · exact hx
  · exact hy

end Total

end Platypus.State
