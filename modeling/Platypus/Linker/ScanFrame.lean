import Platypus.Linker.ScanOne

namespace Platypus.Linker

-- What a step of the scan may do: it changes one symbol, and `.rela.dyn` only grows.
structure ScanStep (s : SymId) (st st' : ScanState) : Prop where
  others : ∀ t, t ≠ s → st'.sym t = st.sym t
  relaDyn : st.ctx.relaDyn <+: st'.ctx.relaDyn

theorem sym_setSym (st : ScanState) (s : SymId) (sym : Symbol) : (st.setSym s sym).sym s = sym :=
  if_pos rfl

-- What the handling of a relocation against `s` may do once the symbol is classified: it sets flags
-- of `s`, and adds relocations against `s` in the section.
structure Touches (sec : Section) (s : SymId) (st st' : ScanState) : Prop where
  others : ∀ t, t ≠ s → st'.sym t = st.sym t
  own : ∃ flags, st'.sym s = { st.sym s with flags := flags }
  relaDyn : ∃ new, st'.ctx.relaDyn = st.ctx.relaDyn ++ new ∧
    ∀ r ∈ new, r.inputSec = sec ∧ r.sym = some s
  relocs : ∃ new, st'.relocs = st.relocs ++ new ∧ ∀ r ∈ new, r.sym = s
  rest : st'.ctx = { st.ctx with
    syms := st'.ctx.syms
    relaDyn := st'.ctx.relaDyn
    relrDyn := st'.ctx.relrDyn
    errors := st'.ctx.errors }

namespace Touches

variable {sec : Section} {s : SymId} {st st₁ st₂ : ScanState}

-- Nothing of the symbols and of the relocations has changed.
theorem of_same (hsyms : st₁.ctx.syms = st.ctx.syms) (hrela : st₁.ctx.relaDyn = st.ctx.relaDyn)
    (hrelocs : st₁.relocs = st.relocs)
    (hrest : st₁.ctx = { st.ctx with
      syms := st₁.ctx.syms
      relaDyn := st₁.ctx.relaDyn
      relrDyn := st₁.ctx.relrDyn
      errors := st₁.ctx.errors }) : Touches sec s st st₁ where
  others t _ := congrFun hsyms t
  own := ⟨(st.sym s).flags, congrFun hsyms s⟩
  relaDyn := ⟨[], by simp [hrela], by simp⟩
  relocs := ⟨[], by simp [hrelocs], by simp⟩
  rest := hrest

theorem refl (st : ScanState) : Touches sec s st st := .of_same rfl rfl rfl rfl

theorem of_ctx (hctx : st₁.ctx = st.ctx) (hrelocs : st₁.relocs = st.relocs) :
    Touches sec s st st₁ :=
  .of_same (by rw [hctx]) (by rw [hctx]) hrelocs (by rw [hctx])

theorem error (st : ScanState) (e : LinkError) : Touches sec s st (st.error e) :=
  .of_same rfl rfl rfl rfl

theorem addRelr (st : ScanState) (relrDyn : List (Section × Word)) :
    Touches sec s st { st with ctx := { st.ctx with relrDyn := relrDyn } } :=
  .of_same rfl rfl rfl rfl

theorem setFlags (st : ScanState) (f : Flags → Flags) : Touches sec s st (st.setFlags s f) where
  others _ ht := if_neg ht
  own := ⟨f (st.sym s).flags, if_pos rfl⟩
  relaDyn := ⟨[], (List.append_nil _).symm, by simp⟩
  relocs := ⟨[], (List.append_nil _).symm, by simp⟩
  rest := rfl

theorem addReloc (st : ScanState) {r : Relocation} (hr : r.sym = s) :
    Touches sec s st (st.addReloc r) where
  others _ _ := rfl
  own := ⟨(st.sym s).flags, rfl⟩
  relaDyn := ⟨[], (List.append_nil _).symm, by simp⟩
  relocs := ⟨[r], rfl, by simpa using hr⟩
  rest := rfl

theorem addRelaDyn (st : ScanState) {r : DynamicReloc} (hsec : r.inputSec = sec)
    (hr : r.sym = some s) : Touches sec s st (st.addRelaDyn r) where
  others _ _ := rfl
  own := ⟨(st.sym s).flags, rfl⟩
  relaDyn := ⟨[r], rfl, by simpa using ⟨hsec, hr⟩⟩
  relocs := ⟨[], (List.append_nil _).symm, by simp⟩
  rest := rfl

theorem trans (h₁ : Touches sec s st st₁) (h₂ : Touches sec s st₁ st₂) : Touches sec s st st₂ where
  others t ht := (h₂.others t ht).trans (h₁.others t ht)
  own := by
    obtain ⟨f₁, hf₁⟩ := h₁.own
    obtain ⟨f₂, hf₂⟩ := h₂.own
    exact ⟨f₂, by rw [hf₂, hf₁]⟩
  relaDyn := by
    obtain ⟨new₁, heq₁, hnew₁⟩ := h₁.relaDyn
    obtain ⟨new₂, heq₂, hnew₂⟩ := h₂.relaDyn
    refine ⟨new₁ ++ new₂, by rw [heq₂, heq₁, List.append_assoc], fun r hr => ?_⟩
    exact (List.mem_append.mp hr).elim (hnew₁ r) (hnew₂ r)
  relocs := by
    obtain ⟨new₁, heq₁, hnew₁⟩ := h₁.relocs
    obtain ⟨new₂, heq₂, hnew₂⟩ := h₂.relocs
    refine ⟨new₁ ++ new₂, by rw [heq₂, heq₁, List.append_assoc], fun r hr => ?_⟩
    exact (List.mem_append.mp hr).elim (hnew₁ r) (hnew₂ r)
  rest := by rw [h₂.rest, h₁.rest]

end Touches

variable (cfg : ScanConfig) (sec : InputSec) (st : ScanState) (rel : Rel) (expr : RelExpr)
  (type : RelType)

theorem noteFlags_touches : Touches sec.id rel.sym st (noteFlags st rel.sym expr) := by
  unfold noteFlags
  split_ifs
  · exact .setFlags _ _
  · exact .setFlags _ _
  · exact .setFlags _ _
  · exact .refl _

theorem addRelativeSecReloc_touches :
    Touches sec.id rel.sym st (addRelativeSecReloc cfg sec st rel expr type) := by
  unfold addRelativeSecReloc
  split_ifs
  · have h : Touches sec.id rel.sym st (st.addReloc (toRelocation sec rel expr type)) :=
      .addReloc st rfl
    exact h.trans (.addRelr _ _)
  · exact .addRelaDyn _ rfl rfl

theorem copyOrCanonicalPlt_touches :
    Touches sec.id rel.sym st (copyOrCanonicalPlt cfg sec st rel expr type) := by
  unfold copyOrCanonicalPlt
  dsimp only
  split_ifs
  · exact .error _ _
  · exact (Touches.setFlags _ _).trans (.addReloc _ rfl)
  · exact (Touches.error _ _).trans ((Touches.setFlags _ _).trans (.addReloc _ rfl))
  · exact (Touches.setFlags _ _).trans (.addReloc _ rfl)
  · exact .error _ _

theorem processDynamic_touches : Touches sec.id rel.sym st (processDynamic cfg sec st rel expr type) := by
  unfold processDynamic
  dsimp only
  split_ifs
  · exact addRelativeSecReloc_touches cfg sec st rel expr type
  · exact .addRelaDyn _ rfl rfl
  · exact copyOrCanonicalPlt_touches cfg sec st rel expr type

theorem processAux_touches : Touches sec.id rel.sym st (processAux cfg sec st rel expr type) := by
  unfold processAux
  dsimp only
  generalize adjustExpr cfg sec (st.sym rel.sym) rel expr type = expr
  have h₁ : Touches sec.id rel.sym st
      (if expr = .R_RELAX_GOT_PC then { st with hasGotOffRel := true } else st) := by
    split
    · exact .of_ctx rfl rfl
    · exact .refl _
  generalize (if expr = RelExpr.R_RELAX_GOT_PC then { st with hasGotOffRel := true } else st) = st₁
    at h₁ ⊢
  split
  · exact h₁.trans (.addRelaDyn _ rfl rfl)
  have h₂ : Touches sec.id rel.sym st (noteFlags st₁ rel.sym expr) :=
    h₁.trans (noteFlags_touches sec st₁ rel expr)
  generalize noteFlags st₁ rel.sym expr = st₂ at h₂ ⊢
  have h₃ : Touches sec.id rel.sym st (if refersToAbsolute cfg rel.sym (st.sym rel.sym) expr then
      st₂.error (.cannotReferToAbsolute type rel.sym) else st₂) := by
    split
    · exact h₂.trans (.error _ _)
    · exact h₂
  split
  · exact h₃.trans (.addReloc _ rfl)
  · exact h₃.trans (processDynamic_touches cfg sec _ rel expr type)

theorem handleTlsRelocation_touches :
    Touches sec.id rel.sym st (handleTlsRelocation cfg sec st rel expr type).1 := by
  have hflags : ∀ (st : ScanState) (f : Flags → Flags) (expr : RelExpr),
      Touches sec.id rel.sym st
        ((st.setFlags rel.sym f).addReloc (toRelocation sec rel expr type)) :=
    fun _ _ _ => (Touches.setFlags _ _).trans (.addReloc _ rfl)
  have hie : Touches sec.id rel.sym st { st with hasTlsIe := true } := .of_ctx rfl rfl
  have hld : Touches sec.id rel.sym st { st with needsTlsLd := true } := .of_ctx rfl rfl
  unfold handleTlsRelocation
  dsimp only
  split_ifs <;> first
    | exact .refl _
    | exact .error _ _
    | exact hflags _ _ _
    | exact .addReloc _ rfl
    | exact hld.trans (.addReloc _ rfl)
    | exact hie.trans (.addReloc _ rfl)
    | exact hie.trans (hflags _ _ _)

theorem reportUndefined_touches : Touches sec.id rel.sym st (reportUndefined cfg st rel).1 := by
  unfold reportUndefined maybeReportUndefined
  dsimp only
  split_ifs <;> first | exact .refl _ | exact .error _ _

theorem scanExpr_touches : Touches sec.id rel.sym st (scanExpr cfg sec st rel expr type).1 := by
  unfold scanExpr
  have h₁ := reportUndefined_touches cfg sec st rel
  generalize reportUndefined cfg st rel = p at h₁ ⊢
  obtain ⟨st₁, failed⟩ := p
  dsimp only at h₁ ⊢
  split
  · exact h₁
  have h₂ : Touches sec.id rel.sym st (noteGotPlt st₁ expr) := by
    refine h₁.trans ?_
    unfold noteGotPlt
    split
    · exact .of_ctx rfl rfl
    · exact .refl _
  generalize noteGotPlt st₁ expr = st₂ at h₂ ⊢
  have h₃ : Touches sec.id rel.sym st (if (st₂.sym rel.sym).isTls ||
      expr ∈ [.R_TLSDESC_PC, .R_TLSDESC_CALL] then handleTlsRelocation cfg sec st₂ rel expr type
      else (st₂, 0)).1 := by
    split
    · exact h₂.trans (handleTlsRelocation_touches cfg sec st₂ rel expr type)
    · exact h₂
  generalize (if (st₂.sym rel.sym).isTls || expr ∈ [.R_TLSDESC_PC, .R_TLSDESC_CALL] then
    handleTlsRelocation cfg sec st₂ rel expr type else (st₂, 0)) = p at h₃ ⊢
  split
  · exact h₃
  · exact h₃.trans (processAux_touches cfg sec _ rel expr type)

-- Handling a relocation classifies its symbol, and then touches nothing but its flags.
theorem scanOne_touches :
    Touches sec.id rel.sym (st.setSym rel.sym (classify (st.sym rel.sym) rel.type).1)
      (scanOne cfg sec st rel).1 := by
  unfold scanOne
  generalize classify (st.sym rel.sym) rel.type = p
  obtain ⟨sym, type⟩ := p
  dsimp only
  split
  · exact .refl _
  split
  · exact .error _ _
  · exact .refl _
  · exact scanExpr_touches cfg sec _ rel _ type

theorem scanOne_step : ScanStep rel.sym st (scanOne cfg sec st rel).1 := by
  have h := scanOne_touches cfg sec st rel
  obtain ⟨new, hnew, -⟩ := h.relaDyn
  exact ⟨fun t ht => (h.others t ht).trans (if_neg ht), ⟨new, hnew.symm⟩⟩

-- Steps over other relocations leave a symbol and the relocations that are there already.
structure ScanKeeps (s : SymId) (st st' : ScanState) : Prop where
  sym : st'.sym s = st.sym s
  relaDyn : st.ctx.relaDyn <+: st'.ctx.relaDyn

theorem ScanKeeps.trans {s : SymId} {st st₁ st₂ : ScanState} (h₁ : ScanKeeps s st st₁)
    (h₂ : ScanKeeps s st₁ st₂) : ScanKeeps s st st₂ :=
  ⟨h₂.sym.trans h₁.sym, h₁.relaDyn.trans h₂.relaDyn⟩

theorem scan_keeps (s : SymId) (skip : Nat) (rels : List Rel) (h : ∀ rel ∈ rels, rel.sym ≠ s) :
    ScanKeeps s st (scan cfg sec skip st rels) := by
  induction rels generalizing skip st with
  | nil =>
    cases skip with
    | zero => exact ⟨rfl, List.prefix_rfl⟩
    | succ skip => exact ⟨rfl, List.prefix_rfl⟩
  | cons rel rels ih =>
    have hrels : ∀ rel ∈ rels, rel.sym ≠ s := fun r hr => h r (List.mem_cons_of_mem _ hr)
    cases skip with
    | zero =>
      have hstep := scanOne_step cfg sec st rel
      have hkeeps : ScanKeeps s st (scanOne cfg sec st rel).1 :=
        ⟨hstep.others s (h rel List.mem_cons_self).symm, hstep.relaDyn⟩
      exact hkeeps.trans (ih _ _ hrels)
    | succ skip => exact ih _ _ hrels

theorem scanRelocations_keeps (s : SymId) (secs : List (InputSec × List Rel))
    (h : ∀ p ∈ secs, ∀ rel ∈ p.2, rel.sym ≠ s) :
    ScanKeeps s st (scanRelocations cfg st secs) := by
  induction secs generalizing st with
  | nil => exact ⟨rfl, List.prefix_rfl⟩
  | cons p secs ih =>
    exact (scan_keeps cfg p.1 st s 0 p.2 (h p List.mem_cons_self)).trans
      (ih _ fun q hq => h q (List.mem_cons_of_mem _ hq))

end Platypus.Linker
