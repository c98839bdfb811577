import Platypus.Pass.Semantics

-- When the rewriting of one call keeps all runs.

namespace Platypus.Pass.BitMasks

-- What the verifier of the compiler makes sure of: numbers are given once, phis stand first and
-- branches last, and a call without a result is not used.
structure Func.Proper (F : Func) : Prop where
  labels_nodup : (F.blocks.map Block.label).Nodup
  labels_lt : ∀ B ∈ F.blocks, B.label < F.next
  ids_nodup : (F.ops.map Instr.id).Nodup
  ids_lt : ∀ I ∈ F.ops, I.id < F.next
  operands_lt : ∀ I ∈ F.ops, ∀ k, .reg k ∈ I.op.operands → k < F.next
  incoming_lt : ∀ I ∈ F.ops, ∀ incoming, I.op = .phi incoming → ∀ p ∈ incoming, p.2 < F.next
  void_unused : ∀ i c, (⟨i, .call c⟩ : Instr) ∈ F.ops → c.isVoid = true →
    ∀ I ∈ F.ops, .reg i ∉ I.op.operands
  phis_first : ∀ B ∈ F.blocks, ∀ I ∈ B.body.dropWhile (·.op.isPhi), I.op.isPhi = false
  branches_last : ∀ B ∈ F.blocks, ∀ I ∈ B.body.dropLast, I.op.targets = []

section Cut

variable {F : Func} {id : Nat} {cut : Cut}

-- The instructions but the call.
def Cut.others (cut : Cut) : List Instr :=
  opsOf cut.before ++ cut.pre ++ cut.post ++ opsOf cut.after

theorem ops_perm (hF : F.blocks = cut.blocks id) :
    F.ops.Perm (⟨id, .call cut.call⟩ :: cut.others) := by
  change (opsOf F.blocks).Perm _
  rw [hF, Cut.blocks, opsOf_append, opsOf_cons, Cut.others, List.append_assoc, List.cons_append,
    ← List.append_assoc]
  refine List.perm_middle.trans ?_
  rw [List.append_assoc, List.append_assoc, List.append_assoc]

theorem call_mem (hF : F.blocks = cut.blocks id) : (⟨id, .call cut.call⟩ : Instr) ∈ F.ops :=
  (ops_perm hF).mem_iff.mpr List.mem_cons_self

theorem mem_ops_of_others (hF : F.blocks = cut.blocks id) {I : Instr} (h : I ∈ cut.others) :
    I ∈ F.ops := (ops_perm hF).mem_iff.mpr (List.mem_cons_of_mem _ h)

theorem others_ne (hproper : F.Proper) (hF : F.blocks = cut.blocks id) {I : Instr}
    (h : I ∈ cut.others) : I.id ≠ id := by
  have hnodup := ((ops_perm hF).map Instr.id).nodup_iff.mp hproper.ids_nodup
  rw [List.map_cons, List.nodup_cons] at hnodup
  intro heq
  have hmem : I.id ∈ cut.others.map Instr.id := List.mem_map_of_mem h
  rw [heq] at hmem
  exact hnodup.1 hmem

theorem site_of_label (hproper : F.Proper) (hF : F.blocks = cut.blocks id) {B : Block}
    (hB : B ∈ F.blocks) (hlabel : B.label = cut.label) : B = cut.site id :=
  List.inj_on_of_nodup_map hproper.labels_nodup hB ((mem_blocks_cut hF).mpr (.inr (.inl rfl))) hlabel

theorem site_mem (hF : F.blocks = cut.blocks id) : cut.site id ∈ F.blocks :=
  (mem_blocks_cut hF).mpr (.inr (.inl rfl))

theorem before_label_ne (hproper : F.Proper) (hF : F.blocks = cut.blocks id) {B : Block}
    (hB : B ∈ cut.before) : B.label ≠ cut.label := by
  have hnodup := hproper.labels_nodup
  rw [hF, Cut.blocks, List.map_append, List.map_cons, List.nodup_append] at hnodup
  exact hnodup.2.2 _ (List.mem_map_of_mem hB) _ List.mem_cons_self

theorem pre_targets (hproper : F.Proper) (hF : F.blocks = cut.blocks id) {I : Instr}
    (hI : I ∈ cut.pre) : I.op.targets = [] := by
  refine hproper.branches_last _ (site_mem hF) I ?_
  rw [Cut.site, List.dropLast_append_of_ne_nil (List.cons_ne_nil _ _)]
  exact List.mem_append_left _ hI

theorem label_of_find {Bs : List Block} {B : Block} {l : Label}
    (h : Bs.find? (fun B => B.label = l) = some B) : B.label = l := by
  have hdec := List.find?_some h
  exact of_decide_eq_true hdec

theorem find_label {Bs : List Block} (hnodup : (Bs.map Block.label).Nodup) {B : Block} (hB : B ∈ Bs)
    {l : Label} (hl : B.label = l) : Bs.find? (fun B => B.label = l) = some B := by
  cases hfind : Bs.find? fun B => B.label = l with
  | none =>
    have hnone := List.find?_eq_none.mp hfind B hB
    exact absurd (decide_eq_true hl) hnone
  | some B' =>
    have hB' := List.mem_of_find?_eq_some hfind
    have hl' : B'.label = l := label_of_find hfind
    rw [List.inj_on_of_nodup_map hnodup hB hB' (hl.trans hl'.symm)]

end Cut

variable {σ : Type} (T : Machine σ)

-- The call `id` has become the instructions `code` and what follows them in other blocks. `R` says
-- how the results of the instructions correspond.
structure Expands (F F' : Func) (modes modes' : Nat → Mode) (id : Nat) (cut : Cut) (f : Value → Value)
    (g : Label → Label) (R : (Nat → Word) → (Nat → Word) → Prop) (code : List Instr) : Prop where
  proper : F.Proper
  blocks : F.blocks = cut.blocks id
  same : ∀ k < F.next, k ≠ id → modes' k = modes k
  start : R (fun _ => 0) fun _ => 0
  eval : ∀ ρ ρ', R ρ ρ' → ∀ I ∈ F.ops, ∀ v ∈ I.op.operands, T.eval ρ' (f v) = T.eval ρ v
  update : ∀ ρ ρ', R ρ ρ' → ∀ k < F.next, k ≠ id → ∀ x,
    R (Function.update ρ k x) (Function.update ρ' k x)
  source : ∀ l < F.next, ∀ l' < F.next, g l = g l' → l = l'
  away : ∀ l, l ≠ cut.label → g l = l
  others : ∀ B ∈ F.blocks, B.label ≠ cut.label →
    F'.blocks.find? (fun B' => B'.label = B.label) = some (B.map f g)
  orig : F'.blocks.find? (fun B' => B'.label = cut.label) =
    some ⟨cut.label, cut.pre.map (Instr.map f g) ++ code⟩
  entry : F'.blocks.head? = F.blocks.head?.map fun B =>
    if B.label = cut.label then ⟨cut.label, cut.pre.map (Instr.map f g) ++ code⟩ else B.map f g
  starts : ∃ I rest, code = I :: rest ∧ I.op.isPhi = false
  call : ∀ ρ ρ' r11 w, R ρ ρ' → ∃ ρ₁,
    T.Steps modes' F' ⟨cut.label, code, ρ', r11, w⟩
      ⟨g cut.label, cut.post.map (Instr.map f g), ρ₁, 0,
        (T.callAs (modes id) cut.call ρ r11 w).2⟩ ∧
    R (Function.update ρ id (T.callAs (modes id) cut.call ρ r11 w).1) ρ₁

namespace Expands

variable {T} {F F' : Func} {modes modes' : Nat → Mode} {id : Nat} {cut : Cut} {f : Value → Value}
  {g : Label → Label} {R : (Nat → Word) → (Nat → Word) → Prop} {code : List Instr}

variable (F id cut f g R code) in
-- The two runs are either outside of the block up to the call, or at the same place in it.
inductive Sync : Config σ → Config σ → Prop
  | away {label : Label} {body : List Instr} {ρ ρ' : Nat → Word} {r11 : Word} {w : σ}
      (hlabel : label < F.next) (hbody : ∀ I ∈ body, I ∈ F.ops ∧ I.id ≠ id) (hR : R ρ ρ') :
      Sync ⟨label, body, ρ, r11, w⟩ ⟨g label, body.map (Instr.map f g), ρ', r11, w⟩
  | before {pre : List Instr} {ρ ρ' : Nat → Word} {r11 : Word} {w : σ}
      (hpre : ∀ I ∈ pre, I ∈ cut.pre) (hR : R ρ ρ') :
      Sync ⟨cut.label, pre ++ ⟨id, .call cut.call⟩ :: cut.post, ρ, r11, w⟩
        ⟨cut.label, pre.map (Instr.map f g) ++ code, ρ', r11, w⟩

theorem dropWhile_phis (is : List Instr) :
    (is.map (Instr.map f g)).dropWhile (·.op.isPhi) =
      (is.dropWhile (·.op.isPhi)).map (Instr.map f g) := by
  rw [List.dropWhile_map]
  refine congrArg _ (congrArg (List.dropWhile · is) ?_)
  funext I
  exact Op.isPhi_map f g I.op

theorem takeWhile_phis (is : List Instr) :
    (is.map (Instr.map f g)).takeWhile (·.op.isPhi) =
      (is.takeWhile (·.op.isPhi)).map (Instr.map f g) := by
  rw [List.takeWhile_map]
  refine congrArg _ (congrArg (List.takeWhile · is) ?_)
  funext I
  exact Op.isPhi_map f g I.op

-- The phis of a block whose code goes on with something else.
theorem phis_append (is : List Instr) {js : List Instr} (hjs : ∃ I rest, js = I :: rest ∧ I.op.isPhi = false) :
    (is ++ js).dropWhile (·.op.isPhi) = is.dropWhile (·.op.isPhi) ++ js ∧
      (is ++ js).takeWhile (·.op.isPhi) = is.takeWhile (·.op.isPhi) := by
  obtain ⟨I, rest, rfl, hI⟩ := hjs
  induction is with
  | nil => simp [hI]
  | cons J is ih =>
    by_cases hJ : J.op.isPhi = true
    · simpa [hJ] using ih
    · simp [hJ]

theorem call_not_phi (id : Nat) (cut : Cut) : ∃ I rest, (⟨id, .call cut.call⟩ :: cut.post : List Instr) = I :: rest ∧
    I.op.isPhi = false := ⟨_, _, rfl, rfl⟩

section

variable (h : Expands T F F' modes modes' id cut f g R code)
include h

theorem phiValue_map {ρ ρ' : Nat → Word} (hR : R ρ ρ') {I : Instr} (hI : I ∈ F.ops) {src : Label}
    (hsrc : src < F.next) : T.phiValue ρ' (g src) (I.op.map f g) = T.phiValue ρ src I.op := by
  cases hop : I.op with
  | phi incoming =>
    have hoperands : ∀ p ∈ incoming, T.eval ρ' (f p.1) = T.eval ρ p.1 := by
      intro p hp
      refine h.eval ρ ρ' hR I hI p.1 ?_
      rw [hop]
      exact List.mem_map_of_mem hp
    have hlabels := h.proper.incoming_lt I hI incoming hop
    simp only [Op.map, Machine.phiValue, List.find?_map]
    have hfind : incoming.find? ((fun p => decide (p.2 = g src)) ∘ fun e => (f e.1, g e.2)) =
        incoming.find? fun p => decide (p.2 = src) := by
      refine List.find?_congr fun p hp => ?_
      simp only [Function.comp_apply, decide_eq_decide]
      exact ⟨h.source _ (hlabels p hp) _ hsrc, fun heq => congrArg g heq⟩
    rw [hfind]
    cases hp : incoming.find? fun p => decide (p.2 = src) with
    | none => rfl
    | some p =>
      simp only [Option.map_some, Option.getD_some]
      exact hoperands p (List.mem_of_find?_eq_some hp)
  | _ => rfl

theorem assign_map {ρ ρ' : Nat → Word} (hR : R ρ ρ') {src : Label} (hsrc : src < F.next)
    (is : List Instr) (his : ∀ I ∈ is, I ∈ F.ops ∧ I.id ≠ id) {ρ₀ ρ₀' : Nat → Word}
    (hR₀ : R ρ₀ ρ₀') :
    R (T.assign ρ src is ρ₀) (T.assign ρ' (g src) (is.map (Instr.map f g)) ρ₀') := by
  induction is generalizing ρ₀ ρ₀' with
  | nil => exact hR₀
  | cons I is ih =>
    obtain ⟨hI, hid⟩ := his I List.mem_cons_self
    refine ih (fun J hJ => his J (List.mem_cons_of_mem I hJ)) ?_
    have hvalue : T.phiValue ρ' (g src) (I.map f g).op = T.phiValue ρ src I.op :=
      h.phiValue_map hR hI hsrc
    dsimp only
    rw [hvalue]
    exact h.update _ _ hR₀ _ (h.proper.ids_lt I hI) hid _

theorem mem_others_of_block {B : Block} (hB : B ∈ F.blocks) (hlabel : B.label ≠ cut.label)
    {I : Instr} (hI : I ∈ B.body) : I ∈ F.ops ∧ I.id ≠ id := by
  refine ⟨mem_ops.mpr ⟨B, hB, hI⟩, others_ne h.proper h.blocks ?_⟩
  simp only [Cut.others, List.mem_append]
  rcases (mem_blocks_cut h.blocks).mp hB with hB | rfl | hB
  · exact .inl (.inl (.inl (List.mem_flatMap.mpr ⟨B, hB, hI⟩)))
  · exact absurd rfl hlabel
  · exact .inr (List.mem_flatMap.mpr ⟨B, hB, hI⟩)

theorem mem_others_of_pre {I : Instr} (hI : I ∈ cut.pre) : I ∈ F.ops ∧ I.id ≠ id := by
  have hother : I ∈ cut.others := by
    simp only [Cut.others, List.mem_append]
    exact .inl (.inl (.inr hI))
  exact ⟨mem_ops_of_others h.blocks hother, others_ne h.proper h.blocks hother⟩

theorem mem_others_of_post {I : Instr} (hI : I ∈ cut.post) : I ∈ F.ops ∧ I.id ≠ id := by
  have hother : I ∈ cut.others := by
    simp only [Cut.others, List.mem_append]
    exact .inl (.inr hI)
  exact ⟨mem_ops_of_others h.blocks hother, others_ne h.proper h.blocks hother⟩

theorem enter_sync {ρ ρ' : Nat → Word} (hR : R ρ ρ') {src l : Label} (hsrc : src < F.next)
    {r11 : Word} {w : σ} {c : Config σ} (hc : T.enter F src l ρ r11 w = some c) :
    ∃ c', T.enter F' (g src) l ρ' r11 w = some c' ∧ Sync F id cut f g R code c c' := by
  obtain ⟨B, hfind, rfl⟩ := Option.map_eq_some_iff.mp hc
  have hB := List.mem_of_find?_eq_some hfind
  have hlabel : B.label = l := label_of_find hfind
  subst hlabel
  by_cases hcut : B.label = cut.label
  · obtain rfl := site_of_label h.proper h.blocks hB hcut
    have hphis (is : List Instr) := phis_append is (call_not_phi id cut)
    have hphis' (is : List Instr) := phis_append is h.starts
    refine ⟨_, Machine.enter_of_find h.orig _ _ _ _, ?_⟩
    simp only [Cut.site, hphis, hphis', dropWhile_phis, takeWhile_phis]
    refine .before (fun I hI => (List.dropWhile_sublist _).subset hI) ?_
    exact h.assign_map hR hsrc _ (fun I hI => h.mem_others_of_pre
      ((List.takeWhile_sublist _).subset hI)) hR
  · refine ⟨_, Machine.enter_of_find (h.others B hB hcut) _ _ _ _, ?_⟩
    simp only [Block.map, dropWhile_phis, takeWhile_phis]
    have hmem (I : Instr) (hI : I ∈ B.body) := h.mem_others_of_block hB hcut hI
    have hassign := h.assign_map hR hsrc (B.body.takeWhile (·.op.isPhi))
      (fun I hI => hmem I ((List.takeWhile_sublist _).subset hI)) hR
    have hsync : Sync F id cut f g R code ⟨B.label, B.body.dropWhile (·.op.isPhi), _, r11, w⟩
        ⟨g B.label, _, _, r11, w⟩ := .away (h.proper.labels_lt B hB)
      (fun I hI => hmem I ((List.dropWhile_sublist _).subset hI)) hassign
    rwa [h.away _ hcut] at hsync

section Step

variable {ρ ρ' : Nat → Word} {label label' : Label} {I : Instr} {rest rest' : List Instr} {r11 : Word}
  {w : σ}

-- An instruction outside of the rewriting and its image have the same effect.
theorem effect_eq (hR : R ρ ρ') (hI : I ∈ F.ops ∧ I.id ≠ id) (hphi : I.op.isPhi = false)
    (r11 : Word) (w : σ) :
    T.effect (modes' (I.map f g).id) (I.map f g).op ρ' r11 w =
      T.effect (modes I.id) I.op ρ r11 w := by
  have hmode : modes' (I.map f g).id = modes I.id := h.same _ (h.proper.ids_lt I hI.1) hI.2
  rw [hmode]
  exact Machine.effect_map hphi (h.eval ρ ρ' hR I hI.1) _ _ _

theorem step_away (hR : R ρ ρ') (hlabel : label < F.next)
    (hbody : ∀ J ∈ I :: rest, J ∈ F.ops ∧ J.id ≠ id) {c₁ : Config σ}
    (hstep : T.step modes F ⟨label, I :: rest, ρ, r11, w⟩ = some c₁) :
    ∃ c₁', T.step modes' F' ⟨g label, (I :: rest).map (Instr.map f g), ρ', r11, w⟩ = some c₁' ∧
      Sync F id cut f g R code c₁ c₁' := by
  have hI := hbody I List.mem_cons_self
  have hphi := Machine.not_phi_of_step hstep
  have hphi' : (I.map f g).op.isPhi = false := (Op.isPhi_map f g I.op).trans hphi
  have heffect := h.effect_eq hR hI hphi r11 w
  have hupdate := h.update ρ ρ' hR _ (h.proper.ids_lt I hI.1) hI.2
    (T.effect (modes I.id) I.op ρ r11 w).value
  cases hjump : (T.effect (modes I.id) I.op ρ r11 w).jump with
  | none =>
    rw [Machine.step_next hphi hjump, Option.some_inj] at hstep
    rw [← heffect] at hjump
    refine ⟨_, Machine.step_next hphi' hjump, ?_⟩
    rw [heffect, ← hstep]
    exact .away hlabel (fun J hJ => hbody J (List.mem_cons_of_mem I hJ)) hupdate
  | some l =>
    rw [Machine.step_jump hphi hjump] at hstep
    rw [← heffect] at hjump
    obtain ⟨c₁', hc₁', hsync⟩ := h.enter_sync hupdate hlabel hstep
    refine ⟨c₁', ?_, hsync⟩
    rw [List.map_cons, Machine.step_jump hphi' hjump, heffect]
    exact hc₁'

theorem step_before (hR : R ρ ρ') {pre : List Instr} (hpre : ∀ J ∈ I :: pre, J ∈ cut.pre)
    {c₁ : Config σ}
    (hstep : T.step modes F
      ⟨cut.label, (I :: pre) ++ ⟨id, .call cut.call⟩ :: cut.post, ρ, r11, w⟩ = some c₁) :
    ∃ c₁', T.step modes' F' ⟨cut.label, (I :: pre).map (Instr.map f g) ++ code, ρ', r11, w⟩ =
      some c₁' ∧ Sync F id cut f g R code c₁ c₁' := by
  have hmem := hpre I List.mem_cons_self
  have hI := h.mem_others_of_pre hmem
  have hphi := Machine.not_phi_of_step hstep
  have hphi' : (I.map f g).op.isPhi = false := (Op.isPhi_map f g I.op).trans hphi
  have heffect := h.effect_eq hR hI hphi r11 w
  -- an instruction before the call does not leave the block
  have hjump : (T.effect (modes I.id) I.op ρ r11 w).jump = none := by
    cases hjump : (T.effect (modes I.id) I.op ρ r11 w).jump with
    | none => rfl
    | some l =>
      have hl := Machine.jump_mem hjump
      rw [pre_targets h.proper h.blocks hmem] at hl
      cases hl
  rw [List.cons_append, Machine.step_next hphi hjump, Option.some_inj] at hstep
  rw [← heffect] at hjump
  refine ⟨_, Machine.step_next hphi' hjump, ?_⟩
  rw [heffect, ← hstep]
  refine .before (fun J hJ => hpre J (List.mem_cons_of_mem I hJ)) ?_
  exact h.update ρ ρ' hR _ (h.proper.ids_lt I hI.1) hI.2 _

theorem step_call (hR : R ρ ρ') {c₁ : Config σ}
    (hstep : T.step modes F ⟨cut.label, ⟨id, .call cut.call⟩ :: cut.post, ρ, r11, w⟩ = some c₁) :
    ∃ c₁', T.Steps modes' F' ⟨cut.label, code, ρ', r11, w⟩ c₁' ∧ Sync F id cut f g R code c₁ c₁' := by
  obtain ⟨ρ₁, hsteps, hR₁⟩ := h.call ρ ρ' r11 w hR
  refine ⟨_, hsteps, ?_⟩
  rw [Machine.step_next rfl rfl, Option.some_inj] at hstep
  rw [← hstep]
  exact .away (h.proper.labels_lt _ (site_mem h.blocks)) (fun J hJ => h.mem_others_of_post hJ) hR₁

end Step

theorem step_sync {c c₁ c' : Config σ} (hsync : Sync F id cut f g R code c c')
    (hstep : T.step modes F c = some c₁) :
    ∃ c₁', T.Steps modes' F' c' c₁' ∧ Sync F id cut f g R code c₁ c₁' := by
  cases hsync with
  | @away label body ρ ρ' r11 w hlabel hbody hR =>
    cases body with
    | nil => cases hstep
    | cons I rest =>
      obtain ⟨c₁', hc₁', hsync'⟩ := h.step_away hR hlabel hbody hstep
      exact ⟨c₁', .single hc₁', hsync'⟩
  | @before pre ρ ρ' r11 w hpre hR =>
    cases pre with
    | nil => exact h.step_call hR hstep
    | cons I pre =>
      obtain ⟨c₁', hc₁', hsync'⟩ := h.step_before hR hpre hstep
      exact ⟨c₁', .single hc₁', hsync'⟩

theorem steps_sync {c c₁ c' : Config σ} (hsync : Sync F id cut f g R code c c')
    (hsteps : T.Steps modes F c c₁) :
    ∃ c₁', T.Steps modes' F' c' c₁' ∧ Sync F id cut f g R code c₁ c₁' := by
  induction hsteps with
  | refl => exact ⟨c', .refl, hsync⟩
  | tail _ hstep ih =>
    obtain ⟨c₂, hsteps₂, hsync₂⟩ := ih
    obtain ⟨c₃, hsteps₃, hsync₃⟩ := h.step_sync hsync₂ hstep
    exact ⟨c₃, hsteps₂.trans hsteps₃, hsync₃⟩

theorem entry_sync {w : σ} {c : Config σ} (hc : F.entry w = some c) :
    ∃ c', F'.entry w = some c' ∧ Sync F id cut f g R code c c' := by
  obtain ⟨B, hhead, rfl⟩ := Option.map_eq_some_iff.mp hc
  have hB : B ∈ F.blocks := List.mem_of_head? hhead
  have hentry := h.entry
  rw [hhead, Option.map_some] at hentry
  by_cases hcut : B.label = cut.label
  · obtain rfl := site_of_label h.proper h.blocks hB hcut
    have hphis (is : List Instr) := phis_append is (call_not_phi id cut)
    have hphis' (is : List Instr) := phis_append is h.starts
    rw [if_pos hcut] at hentry
    refine ⟨_, by rw [Func.entry, hentry]; rfl, ?_⟩
    simp only [Cut.site, hphis, hphis', dropWhile_phis]
    exact .before (fun I hI => (List.dropWhile_sublist _).subset hI) h.start
  · rw [if_neg hcut] at hentry
    refine ⟨_, by rw [Func.entry, hentry]; rfl, ?_⟩
    simp only [Block.map, dropWhile_phis]
    have hsync : Sync F id cut f g R code
        ⟨B.label, B.body.dropWhile (·.op.isPhi), fun _ => 0, 0, w⟩
        ⟨g B.label, _, fun _ => 0, 0, w⟩ := .away (h.proper.labels_lt B hB)
      (fun I hI => h.mem_others_of_block hB hcut ((List.dropWhile_sublist _).subset hI)) h.start
    rwa [h.away _ hcut] at hsync

theorem simulates : T.Simulates modes F modes' F' := by
  rintro w c ⟨c₀, hc₀, hsteps⟩
  obtain ⟨c₀', hc₀', hsync₀⟩ := h.entry_sync hc₀
  obtain ⟨c', hsteps', hsync⟩ := h.steps_sync hsync₀ hsteps
  refine ⟨c', ⟨c₀', hc₀', hsteps'⟩, ?_⟩
  cases hsync with
  | away hlabel hbody hR => exact ⟨rfl, fun hnil => List.map_eq_nil_iff.mpr hnil⟩
  | before hpre hR => exact ⟨rfl, fun hnil => absurd hnil (by simp)⟩

end

end Expands

end Platypus.Pass.BitMasks
