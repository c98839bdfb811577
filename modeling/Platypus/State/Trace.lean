import Mathlib

namespace Platypus.State

section Trace

variable {σ ε : Type} (step : σ → ε → Option σ)

-- The state after a sequence of events, if none of them fails.
def trace : σ → List ε → Option σ
  | s, [] => some s
  | s, e :: es => (step s e).bind fun s' => trace s' es

theorem trace_append (s : σ) (es es' : List ε) :
    trace step s (es ++ es') = (trace step s es).bind fun s' => trace step s' es' := by
  induction es generalizing s with
  | nil => rfl
  | cons e es ih =>
    rw [List.cons_append, trace, trace, Option.bind_assoc]
    exact congrArg _ (funext ih)

theorem foldlM_eq_trace (s : σ) (es : List ε) : es.foldlM step s = trace step s es := by
  induction es generalizing s with
  | nil => rfl
  | cons e es ih => exact congrArg _ (funext ih)

-- Every event of the run finds a state in which it is allowed.
def Meets (ok : σ → ε → Prop) (s : σ) (es : List ε) : Prop :=
  ∀ pre e post s', es = pre ++ e :: post → trace step s pre = some s' → ok s' e

variable {step} {ok : σ → ε → Prop} {s s' : σ} {e : ε} {es es' : List ε}

theorem Meets.nil (s : σ) : Meets step ok s [] := by
  intro pre e post s' hes
  cases pre <;> cases hes

theorem Meets.cons (h : ok s e) (hes : ∀ s', step s e = some s' → Meets step ok s' es) :
    Meets step ok s (e :: es) := by
  intro pre e' post s'' hsplit htrace
  cases pre with
  | nil =>
    obtain ⟨rfl, rfl⟩ := List.cons.inj hsplit
    rw [trace, Option.some_inj] at htrace
    exact htrace ▸ h
  | cons e₀ pre =>
    obtain ⟨rfl, rfl⟩ := List.cons.inj hsplit
    obtain ⟨s', hstep, hpre⟩ := Option.bind_eq_some_iff.mp htrace
    exact hes s' hstep pre e' post s'' rfl hpre

theorem Meets.head (h : Meets step ok s (e :: es)) : ok s e := h [] e es s rfl rfl

theorem Meets.tail (h : Meets step ok s (e :: es)) (hstep : step s e = some s') :
    Meets step ok s' es := by
  intro pre e' post s'' hes htrace
  refine h (e :: pre) e' post s'' (by rw [hes]; rfl) ?_
  rw [trace, hstep]
  exact htrace

instance decidableMeets [∀ s e, Decidable (ok s e)] :
    ∀ (s : σ) (es : List ε), Decidable (Meets step ok s es)
  | s, [] => .isTrue (.nil s)
  | s, e :: es =>
    have : ∀ s', Decidable (Meets step ok s' es) := fun s' => decidableMeets s' es
    decidable_of_iff (ok s e ∧ ∀ s' ∈ step s e, Meets step ok s' es)
      ⟨fun h => .cons h.1 h.2, fun h => ⟨h.head, fun _ => h.tail⟩⟩

theorem Meets.of_append (h : Meets step ok s (es ++ es')) (htrace : trace step s es = some s') :
    Meets step ok s' es' := by
  intro pre e post s'' hes' hpre
  refine h (es ++ pre) e post s'' (by rw [hes', List.append_assoc]) ?_
  rw [trace_append, htrace]
  exact hpre

theorem Meets.append (h : Meets step ok s es)
    (h' : ∀ s', trace step s es = some s' → Meets step ok s' es') : Meets step ok s (es ++ es') := by
  induction es generalizing s with
  | nil => exact h' s rfl
  | cons e es ih =>
    refine .cons h.head fun s₁ hs₁ => ih (h.tail hs₁) fun s' hs' => h' s' ?_
    rw [trace, hs₁]
    exact hs'

-- A run succeeds if each of its events does, in the state that it finds.
theorem trace_isSome_iff :
    (trace step s es).isSome ↔ Meets step (fun s e => (step s e).isSome) s es := by
  induction es generalizing s with
  | nil => exact iff_of_true rfl (.nil s)
  | cons e es ih =>
    constructor
    · intro h
      obtain ⟨s'', h⟩ := Option.isSome_iff_exists.mp h
      obtain ⟨s', hs', hrest⟩ := Option.bind_eq_some_iff.mp h
      refine .cons (Option.isSome_of_mem hs') fun s₁ hs₁ => ih.mp ?_
      rw [← Option.some_inj.mp (hs'.symm.trans hs₁), hrest]
      rfl
    · intro h
      obtain ⟨s', hs'⟩ := Option.isSome_iff_exists.mp h.head
      rw [trace, hs']
      exact ih.mpr (h.tail hs')

-- Events whose success does not depend on the state, in a run whose steps meet a condition.
theorem Meets.trace_isSome_iff {ready : ε → Prop}
    (h : ∀ e ∈ es, ∀ s, ok s e → ((step s e).isSome ↔ ready e)) (hmeets : Meets step ok s es) :
    (trace step s es).isSome ↔ ∀ e ∈ es, ready e := by
  induction es generalizing s with
  | nil => exact iff_of_true rfl nofun
  | cons e es ih =>
    have he := h e List.mem_cons_self s hmeets.head
    rw [List.forall_mem_cons, ← he, trace]
    cases hstep : step s e with
    | none => simp
    | some s' =>
      rw [Option.bind_some, ih (fun e' he' => h e' (List.mem_cons_of_mem e he'))
        (hmeets.tail hstep)]
      simp

theorem trace_isSome_iff_forall {ready : ε → Prop}
    (h : ∀ e ∈ es, ∀ s, (step s e).isSome ↔ ready e) (s : σ) :
    (trace step s es).isSome ↔ ∀ e ∈ es, ready e :=
  Meets.trace_isSome_iff (fun e he s _ => h e he s)
    (fun _ _ _ _ _ _ => trivial : Meets step (fun _ _ => True) s es)

-- An invariant that also speaks of the events to come.
theorem trace_todo (inv : σ → List ε → Prop)
    (hstep : ∀ s e es s', inv s (e :: es) → step s e = some s' → inv s' es) (hs : inv s es)
    (htrace : trace step s es = some s') : inv s' [] := by
  induction es generalizing s with
  | nil =>
    cases htrace
    exact hs
  | cons e es ih =>
    obtain ⟨s₁, hs₁, htrace⟩ := Option.bind_eq_some_iff.mp htrace
    exact ih (hstep s e es s₁ hs hs₁) htrace

-- A loop whose steps succeed as long as they keep an invariant.
theorem trace_total {inv : σ → Prop} (h : ∀ e ∈ es, ∀ s, inv s → ∃ s', step s e = some s' ∧ inv s')
    (hs : inv s) : ∃ s', trace step s es = some s' ∧ inv s' := by
  induction es generalizing s with
  | nil => exact ⟨s, rfl, hs⟩
  | cons e es ih =>
    obtain ⟨s₁, hs₁, hinv⟩ := h e List.mem_cons_self s hs
    obtain ⟨s', hs', hinv'⟩ := ih (fun e' he' => h e' (List.mem_cons_of_mem e he')) hinv
    refine ⟨s', ?_, hinv'⟩
    rw [trace, hs₁]
    exact hs'

-- Two runs whose steps agree up to a relation end in states that agree up to it.
theorem trace_rel {step' : σ → ε → Option σ} {R : σ → σ → Prop}
    (hstep : ∀ e ∈ es, ∀ s s', R s s' → Option.Rel R (step s e) (step' s' e)) (h : R s s') :
    Option.Rel R (trace step s es) (trace step' s' es) := by
  induction es generalizing s s' with
  | nil => exact .some h
  | cons e es ih =>
    have he := hstep e List.mem_cons_self s s' h
    have hrest := fun e' he' => hstep e' (List.mem_cons_of_mem e he')
    rw [trace, trace]
    generalize step s e = x at *
    generalize step' s' e = x' at *
    cases he with
    | some h => exact ih hrest h
    | none => exact .none

section Order

variable {le : σ → σ → Prop} (hrefl : ∀ s, le s s)
  (htrans : ∀ s₁ s₂ s₃, le s₁ s₂ → le s₂ s₃ → le s₁ s₃)
  (hstep : ∀ s e s', ok s e → step s e = some s' → le s s')

include hrefl htrans hstep

-- If each event climbs, so does the run.
theorem trace_le (hmeets : Meets step ok s es) (htrace : trace step s es = some s') : le s s' := by
  induction es generalizing s with
  | nil =>
    rw [trace, Option.some_inj] at htrace
    exact htrace ▸ hrefl s
  | cons e es ih =>
    obtain ⟨s₁, he, hes⟩ := Option.bind_eq_some_iff.mp htrace
    exact htrans _ _ _ (hstep s e s₁ hmeets.head he) (ih (hmeets.tail he) hes)

-- Nothing that the run has reached on its way is above its end.
theorem trace_prefix_le {s'' : σ} (hmeets : Meets step ok s (es ++ es'))
    (hpre : trace step s es = some s'') (htrace : trace step s (es ++ es') = some s') :
    le s'' s' := by
  rw [trace_append, hpre] at htrace
  exact trace_le hrefl htrans hstep (hmeets.of_append hpre) htrace

-- What an event establishes, and a climb keeps, holds at the end.
theorem trace_achieves (post : ε → σ → Prop)
    (hpost : ∀ s e s', ok s e → step s e = some s' → post e s')
    (hkeep : ∀ e s s', le s s' → post e s → post e s') (hmeets : Meets step ok s es)
    (htrace : trace step s es = some s') (he : e ∈ es) : post e s' := by
  obtain ⟨pre, suf, rfl⟩ := List.append_of_mem he
  rw [trace_append] at htrace
  obtain ⟨s₁, hpre, hrest⟩ := Option.bind_eq_some_iff.mp htrace
  obtain ⟨s₂, hone, hsuf⟩ := Option.bind_eq_some_iff.mp hrest
  have hok : ok s₁ e := hmeets pre e suf s₁ rfl hpre
  have hmeets₂ : Meets step ok s₂ suf := (hmeets.of_append hpre).tail hone
  exact hkeep e s₂ s' (trace_le hrefl htrans hstep hmeets₂ hsuf) (hpost s₁ e s₂ hok hone)

end Order

section Effect

-- What an event does to a property of the state: it brings it about, takes it away, or keeps it.
variable {holds : σ → Prop} {gains drops : σ → ε → Prop}
  (heffect : ∀ s e s', step s e = some s' → (holds s' ↔ gains s e ∨ holds s ∧ ¬drops s e))

include heffect

-- The property holds at the end if nothing has taken it away since the start or since an event
-- that brought it about.
theorem trace_effect (htrace : trace step s es = some s') :
    holds s' ↔ holds s ∧ Meets step (fun s e => ¬drops s e) s es ∨
      ∃ pre e post s₁ s₂, es = pre ++ e :: post ∧ trace step s pre = some s₁ ∧
        step s₁ e = some s₂ ∧ gains s₁ e ∧ Meets step (fun s e => ¬drops s e) s₂ post := by
  induction es generalizing s with
  | nil =>
    rw [trace, Option.some_inj] at htrace
    subst htrace
    refine ⟨fun h => .inl ⟨h, .nil s⟩, ?_⟩
    rintro (⟨h, -⟩ | ⟨pre, e, post, -, -, hes, -⟩)
    · exact h
    · cases pre <;> cases hes
  | cons e es ih =>
    obtain ⟨s₁, he, hes⟩ := Option.bind_eq_some_iff.mp htrace
    rw [ih hes, heffect s e s₁ he]
    constructor
    · rintro (⟨hgains | ⟨hold, hkeep⟩, hmeets⟩ | ⟨pre, e', post, s₂, s₃, rfl, hpre, hone, hrest⟩)
      · exact .inr ⟨[], e, es, s, s₁, rfl, rfl, he, hgains, hmeets⟩
      · refine .inl ⟨hold, .cons hkeep fun s' hs' => ?_⟩
        rw [he, Option.some_inj] at hs'
        exact hs' ▸ hmeets
      · refine .inr ⟨e :: pre, e', post, s₂, s₃, rfl, ?_, hone, hrest⟩
        rw [trace, he]
        exact hpre
    · rintro (⟨hold, hmeets⟩ | ⟨pre, e', post, s₂, s₃, hsplit, hpre, hone, hgains, hrest⟩)
      · exact .inl ⟨.inr ⟨hold, hmeets.head⟩, hmeets.tail he⟩
      · cases pre with
        | nil =>
          obtain ⟨rfl, rfl⟩ := List.cons.inj hsplit
          rw [trace, Option.some_inj] at hpre
          subst hpre
          rw [he, Option.some_inj] at hone
          exact .inl ⟨.inl hgains, hone ▸ hrest⟩
        | cons e₀ pre =>
          obtain ⟨rfl, rfl⟩ := List.cons.inj hsplit
          rw [trace, he] at hpre
          exact .inr ⟨pre, e', post, s₂, s₃, rfl, hpre, hone, hgains, hrest⟩

end Effect

end Trace

end Platypus.State
