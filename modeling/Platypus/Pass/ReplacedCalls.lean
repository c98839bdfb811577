import Platypus.Pass.Simulation

-- How the calls that the pass makes in the place of others pass their arguments.

namespace Platypus.Pass.BitMasks

namespace CallBase

-- As the verifier accepts it: only a variadic function is passed more than its parameters.
def WellTyped (c : CallBase) : Prop :=
  c.abi.functionType.isVarArg = false → c.abi.functionType.params = c.argTypes

def SameAbi (c c₀ : CallBase) : Prop := c.abi = c₀.abi ∧ c.argTypes = c₀.argTypes

theorem SameAbi.refl (c : CallBase) : c.SameAbi c := ⟨rfl, rfl⟩

theorem SameAbi.trans {c c₁ c₂ : CallBase} (h : c.SameAbi c₁) (h' : c₁.SameAbi c₂) :
    c.SameAbi c₂ :=
  ⟨h.1.trans h'.1, h.2.trans h'.2⟩

theorem WellTyped.argsType_eq_iff {c : CallBase} (h : c.WellTyped) :
    c.argsType = c.abi.functionType ↔ c.abi.functionType.isVarArg = false := by
  constructor
  · intro heq
    rw [← heq]
    rfl
  · intro hfixed
    rw [argsType, ← h hfixed, ← hfixed]

theorem WellTyped.of_sameAbi {c c₀ : CallBase} (h : c₀.WellTyped) (hsame : c.SameAbi c₀) :
    c.WellTyped := by
  unfold WellTyped
  rw [hsame.1, hsame.2]
  exact h

-- The builder's calls of both kinds against the call itself.

theorem abi_withType_eq_iff (c : CallBase) (ty : FunctionType) :
    (c.withType ty).abi = c.abi ↔
      ty = c.abi.functionType ∧ c.abi.callingConv = 0 ∧ c.abi.attributes = [] := by
  obtain ⟨callee, args, argTypes, typeMatches, ⟨functionType, callingConv, attributes⟩⟩ := c
  simp only [withType, Abi.mk.injEq]
  rw [eq_comm (a := 0), eq_comm (a := [])]

end CallBase

theorem call_unique {is : List Instr} (h : (callIds is).Nodup) {i : Nat} {c c' : CallBase}
    (hc : (⟨i, .call c⟩ : Instr) ∈ is) (hc' : (⟨i, .call c'⟩ : Instr) ∈ is) : c = c' := by
  obtain ⟨pre, post, rfl⟩ := List.append_of_mem hc
  rw [callIds_append, callIds_cons_call, List.nodup_append, List.nodup_cons] at h
  rw [List.mem_append, List.mem_cons] at hc'
  rcases hc' with hpre | heq | hpost
  · exact absurd rfl (h.2.2 i (mem_callIds.mpr ⟨_, hpre, rfl⟩) i List.mem_cons_self)
  · simp only [Instr.mk.injEq, Op.call.injEq, true_and] at heq
    exact heq.symm
  · exact absurd (mem_callIds.mpr ⟨_, hpost, rfl⟩) h.2.1.1

-- What rounds do to the calls that they do not rewrite.
structure KeepsCalls (ids : List Nat) (F F' : Func) : Prop where
  name : F'.name = F.name
  next_le : F.next ≤ F'.next
  keeps : ∀ i c, (⟨i, .call c⟩ : Instr) ∈ F.ops → i ∉ ids →
    ∃ c', (⟨i, .call c'⟩ : Instr) ∈ F'.ops ∧ c'.SameAbi c
  inv : ∀ i c', (⟨i, .call c'⟩ : Instr) ∈ F'.ops → i < F.next →
    ∃ c, (⟨i, .call c⟩ : Instr) ∈ F.ops ∧ c'.SameAbi c

theorem KeepsCalls.refl (ids : List Nat) (F : Func) : KeepsCalls ids F F where
  name := rfl
  next_le := le_rfl
  keeps _ c hc _ := ⟨c, hc, .refl c⟩
  inv _ c hc _ := ⟨c, hc, .refl c⟩

theorem KeepsCalls.trans {ids ids' : List Nat} {F F' F'' : Func} (h : KeepsCalls ids F F')
    (h' : KeepsCalls ids' F' F'') : KeepsCalls (ids ++ ids') F F'' where
  name := h'.name.trans h.name
  next_le := h.next_le.trans h'.next_le
  keeps i c hc hi := by
    rw [List.mem_append, not_or] at hi
    obtain ⟨c₁, hc₁, hsame₁⟩ := h.keeps i c hc hi.1
    obtain ⟨c₂, hc₂, hsame₂⟩ := h'.keeps i c₁ hc₁ hi.2
    exact ⟨c₂, hc₂, hsame₂.trans hsame₁⟩
  inv i c hc hi := by
    obtain ⟨c₁, hc₁, hsame₁⟩ := h'.inv i c hc (hi.trans_le h.next_le)
    obtain ⟨c₀, hc₀, hsame₀⟩ := h.inv i c₁ hc₁ hi
    exact ⟨c₀, hc₀, hsame₁.trans hsame₀⟩

section Rewrites

variable {F F' : Func} {id : Nat} {New : Block → Instr → Prop} {f : Value → Value}
  {g : Label → Label}

theorem Rewrites.call_inv (h : Rewrites F F' id New f g) {i : Nat} {c : CallBase}
    (hc : (⟨i, .call c⟩ : Instr) ∈ F'.ops) :
    (∃ B, New B ⟨i, .call c⟩) ∨ ∃ c₀, (⟨i, .call c₀⟩ : Instr) ∈ F.ops ∧ c = c₀.map f := by
  rcases h.mem_ops_inv hc with hnew | ⟨J, hJ, heq⟩
  · exact .inl hnew
  · obtain ⟨c₀, rfl, hc₀⟩ := Instr.eq_call_of_map heq
    exact .inr ⟨c₀, hJ, hc₀⟩

theorem Rewrites.keepsCalls (h : Rewrites F F' id New f g) (hname : F'.name = F.name)
    (hnew : ∀ B i c, New B ⟨i, .call c⟩ → i < F.next →
      ∃ c₀, (⟨i, .call c₀⟩ : Instr) ∈ F.ops ∧ c.SameAbi c₀) : KeepsCalls [id] F F' where
  name := hname
  next_le := h.next_le
  keeps i c hc hi := by
    refine ⟨c.map f, h.keepsOp _ hc fun hcall => ?_, rfl, rfl⟩
    exact hi (List.mem_singleton.mpr (Option.some_inj.mp hcall))
  inv i c hc hi := by
    rcases h.call_inv hc with ⟨B, hB⟩ | ⟨c₀, hc₀, rfl⟩
    · exact hnew B i c hB hi
    · exact ⟨c₀, hc₀, rfl, rfl⟩

end Rewrites

-- The calls that a round adds.
def NewCall (F F' : Func) (c : CallBase) : Prop :=
  ∃ i, F.next ≤ i ∧ i < F'.next ∧ (⟨i, .call c⟩ : Instr) ∈ F'.ops

section Rounds

variable {F : Func} {id : Nat} {cut : Cut}

theorem splitNew_call {B : Block} {i : Nat} {c : CallBase}
    (h : SplitNew F id cut B ⟨i, .call c⟩) :
    i = F.next + 7 ∧ c = splitCallee F id cut ∨
      i = F.next + 8 ∧ c = tableBase (splitCallee F id cut) := by
  rcases h with hI | hI | ⟨-, hI⟩ | ⟨-, hI⟩
  · simp [splitChecks, checking] at hI
  · have hid : i ∈ callIds (mergedCall (splitCallee F id cut) (fresh F.next)) :=
      mem_callIds.mpr ⟨_, hI, rfl⟩
    rw [callIds_mergedCall] at hid
    cases hid
  · left
    simpa [callBlock, fresh] using hI
  · right
    simp [skipBlock, fresh, tableCall] at hI
    exact hI

theorem splitCall_keepsCalls (hF : F.blocks = cut.blocks id) (hnodup : (callIds F.ops).Nodup) :
    KeepsCalls [id] F (F.splitCall id cut) := by
  refine (splitCall_rewrites hF hnodup).keepsCalls rfl fun B i c hnew hi => ?_
  rcases splitNew_call hnew with ⟨heq, -⟩ | ⟨heq, -⟩
  · omega
  · omega

theorem normalCase_keepsCalls (hF : F.blocks = cut.blocks id) (hnodup : (callIds F.ops).Nodup) :
    KeepsCalls [id] F (F.instrumentNormalCase id cut) := by
  refine (normalCase_rewrites hF hnodup).keepsCalls rfl fun B i c hnew hi => ?_
  rcases hnew with hI | heq
  · simp [masking] at hI
  · simp only [maskedCall, Instr.mk.injEq, Op.call.injEq] at heq
    obtain ⟨rfl, rfl⟩ := heq
    exact ⟨cut.call, call_mem hF, rfl, rfl⟩

theorem alwaysCallbackTable_keepsCalls (hF : F.blocks = cut.blocks id)
    (hnodup : (callIds F.ops).Nodup) (table : Table) :
    KeepsCalls [id] F (F.alwaysCallbackTable id cut table) := by
  refine (alwaysCallbackTable_rewrites F id cut table hF hnodup).keepsCalls rfl
    fun B i c hnew hi => ?_
  rcases hnew with heq | heq
  · simp [tableMov] at heq
  · have hnext : i = F.next + 1 := congrArg Instr.id heq
    omega

theorem newCall_splitCall_iff (hF : F.blocks = cut.blocks id) (hnodup : (callIds F.ops).Nodup)
    (hids : ∀ i ∈ callIds F.ops, i < F.next) {c : CallBase} :
    NewCall F (F.splitCall id cut) c ↔
      c = splitCallee F id cut ∨ c = tableBase (splitCallee F id cut) := by
  have hnext : (F.splitCall id cut).next = F.next + 12 := rfl
  constructor
  · rintro ⟨i, hlo, -, hc⟩
    rcases (splitCall_rewrites hF hnodup).call_inv hc with ⟨B, hB⟩ | ⟨c₀, hc₀, -⟩
    · rcases splitNew_call hB with ⟨-, rfl⟩ | ⟨-, rfl⟩
      · exact .inl rfl
      · exact .inr rfl
    · have hlt := hids i (mem_callIds.mpr ⟨_, hc₀, rfl⟩)
      omega
  · rintro (rfl | rfl)
    · refine ⟨F.next + 7, by omega, by omega, mem_ops.mpr ⟨callBlock F id cut, ?_, ?_⟩⟩
      · exact mem_splitCall_blocks.mpr (.inr (.inr (.inr (.inl rfl))))
      · exact List.mem_cons_self
    · refine ⟨F.next + 8, by omega, by omega, mem_ops.mpr ⟨skipBlock F id cut, ?_, ?_⟩⟩
      · exact mem_splitCall_blocks.mpr (.inr (.inr (.inr (.inr rfl))))
      · exact List.mem_cons_self

theorem newCall_alwaysCallbackTable_iff (hF : F.blocks = cut.blocks id)
    (hnodup : (callIds F.ops).Nodup) (hids : ∀ i ∈ callIds F.ops, i < F.next) (table : Table)
    {c : CallBase} :
    NewCall F (F.alwaysCallbackTable id cut table) c ↔
      .call c = tableCall (cut.call.map (tableUses F id cut)) table := by
  have hnext : (F.alwaysCallbackTable id cut table).next = F.next + 2 := rfl
  constructor
  · rintro ⟨i, hlo, -, hc⟩
    rcases (alwaysCallbackTable_rewrites F id cut table hF hnodup).call_inv hc with
      ⟨B, heq | heq⟩ | ⟨c₀, hc₀, -⟩
    · simp [tableMov] at heq
    · exact congrArg Instr.op heq
    · have hlt := hids i (mem_callIds.mpr ⟨_, hc₀, rfl⟩)
      omega
  · intro hc
    refine ⟨F.next + 1, by omega, by omega, mem_ops.mpr ⟨tableBlock F id cut table, ?_, ?_⟩⟩
    · rw [alwaysCallbackTable_blocks]
      exact List.mem_append_right _ List.mem_cons_self
    · rw [hc]
      simp [tableBlock, tableInstr]

-- The two ways to replace a call, against the conventions of the call.

theorem splitCall_sameAbi_iff (hF : F.blocks = cut.blocks id) (hnodup : (callIds F.ops).Nodup)
    (hids : ∀ i ∈ callIds F.ops, i < F.next) (hwell : cut.call.WellTyped) :
    (∀ c, NewCall F (F.splitCall id cut) c → c.abi = cut.call.abi) ↔
      cut.call.abi.callingConv = 0 ∧ cut.call.abi.attributes = [] ∧
        cut.call.abi.functionType.isVarArg = false := by
  have hcallee := cut.call.abi_withType_eq_iff cut.call.abi.functionType
  have htable := cut.call.abi_withType_eq_iff cut.call.argsType
  rw [hwell.argsType_eq_iff] at htable
  simp only [newCall_splitCall_iff hF hnodup hids, forall_eq_or_imp, forall_eq]
  change (cut.call.withType cut.call.abi.functionType).abi = cut.call.abi ∧
    (cut.call.withType cut.call.argsType).abi = cut.call.abi ↔ _
  rw [hcallee, htable]
  tauto

theorem alwaysCallbackTable_sameAbi_iff (hF : F.blocks = cut.blocks id)
    (hnodup : (callIds F.ops).Nodup) (hids : ∀ i ∈ callIds F.ops, i < F.next) (table : Table) :
    (∀ c, NewCall F (F.alwaysCallbackTable id cut table) c → c.abi = cut.call.abi) ↔
      cut.call.abi.callingConv = 0 ∧ cut.call.abi.attributes = [] := by
  have hcallee := cut.call.abi_withType_eq_iff cut.call.abi.functionType
  simp only [newCall_alwaysCallbackTable_iff hF hnodup hids table, tableCall, Op.call.injEq,
    forall_eq]
  change (cut.call.withType cut.call.abi.functionType).abi = cut.call.abi ↔ _
  rw [hcallee]
  tauto

end Rounds

namespace Analysis

variable {A : Analysis}

theorem rewriteCandidate_keepsCalls {lo id : Nat} {todo : List Nat} {st st' : RunState}
    (hinv : Pending lo st.func (id :: todo) st.skipped) (h : A.rewriteCandidate st id = some st') :
    KeepsCalls [id] st.func st'.func := by
  rcases A.candidateRound h with ⟨-, rfl⟩ | ⟨cut, hcut, hround⟩
  · exact .refl _ _
  · have hblocks := cutBlocks_some hcut
    cases hround with
    | table table => exact alwaysCallbackTable_keepsCalls hblocks hinv.nodup table
    | skipped => exact .refl _ _
    | split => exact splitCall_keepsCalls hblocks hinv.nodup
    | normal => exact normalCase_keepsCalls hblocks hinv.nodup

-- Rounds one after the other, with other candidates still to come.
theorem foldlM_keepsCalls {lo : Nat} (ids todo : List Nat) {st st' : RunState}
    (hinv : Pending lo st.func (ids ++ todo) st.skipped)
    (h : ids.foldlM A.rewriteCandidate st = some st') :
    KeepsCalls ids st.func st'.func ∧ Pending lo st'.func todo st'.skipped := by
  induction ids generalizing st with
  | nil =>
    cases h
    exact ⟨.refl _ _, hinv⟩
  | cons id ids ih =>
    rw [List.foldlM_cons] at h
    obtain ⟨st₁, h₁, h₂⟩ := Option.bind_eq_some_iff.mp h
    obtain ⟨hrest, hdone⟩ := ih (A.rewriteCandidate_pending hinv h₁) h₂
    exact ⟨(rewriteCandidate_keepsCalls hinv h₁).trans hrest, hdone⟩

theorem tableOf_congr {F F' : Func} (h : F'.name = F.name) : A.tableOf F' = A.tableOf F := by
  simp only [tableOf, h]

-- The round that replaces a call, at the call as it stands then.
theorem rewriteCandidate_sameAbi_iff {lo id : Nat} {todo : List Nat} {st st' : RunState} {cut : Cut}
    (hinv : Pending lo st.func (id :: todo) st.skipped)
    (hcut : cutBlocks id st.func.blocks = some cut) (h : A.rewriteCandidate st id = some st')
    (hreplaced : (A.tableOf st.func).isSome ∨ A.candidateMode st id = .guarded)
    (hwell : cut.call.WellTyped) :
    (∀ c, NewCall st.func st'.func c → c.abi = cut.call.abi) ↔
      cut.call.abi.callingConv = 0 ∧ cut.call.abi.attributes = [] ∧
        (A.tableOf st.func = none → cut.call.abi.functionType.isVarArg = false) := by
  have hblocks := cutBlocks_some hcut
  cases htable : A.tableOf st.func with
  | some table =>
    have hfunc : st'.func = st.func.alwaysCallbackTable id cut table := by
      simp only [rewriteCandidate, hcut, rewriteCall, htable] at h
      cases h
      rfl
    rw [hfunc, alwaysCallbackTable_sameAbi_iff hblocks hinv.nodup hinv.ids table]
    simp
  | none =>
    have hmode : A.candidateMode st id = .guarded := by simpa [htable] using hreplaced
    have hfunc : st'.func = st.func.splitCall id cut := by
      simp only [candidateMode, hcut] at hmode
      simp only [rewriteCandidate, hcut] at h
      cases A.callRound h with
      | table table hsome =>
        rw [htable] at hsome
        cases hsome
      | skipped _ horigin =>
        rw [modeOf, horigin] at hmode
        cases hmode
      | split => rfl
      | normal _ rtld_glob horigin hother hsplit =>
        rw [modeOf_eq horigin hother, hsplit] at hmode
        cases hmode
    rw [hfunc, splitCall_sameAbi_iff hblocks hinv.nodup hinv.ids hwell]
    simp

-- Later rounds keep the calls that a round has added.
theorem newCall_final_iff {F F' final : Func} {ids : List Nat} (h : KeepsCalls ids F' final)
    (hids : ∀ i ∈ ids, i < F.next) (abi : Abi) :
    (∀ i c, F.next ≤ i → i < F'.next → (⟨i, .call c⟩ : Instr) ∈ final.ops → c.abi = abi) ↔
      ∀ c, NewCall F F' c → c.abi = abi := by
  constructor
  · rintro hall c ⟨i, hlo, hhi, hc⟩
    have hi : i ∉ ids := by
      intro hmem
      have hlt := hids i hmem
      omega
    obtain ⟨c', hc', hsame⟩ := h.keeps i c hc hi
    rw [← hsame.1]
    exact hall i c' hlo hhi hc'
  · intro hall i c hlo hhi hc
    obtain ⟨c', hc', hsame⟩ := h.inv i c hc hhi
    rw [hsame.1]
    exact hall c' ⟨i, hlo, hhi, hc'⟩

-- The calls in the place of a replaced one pass their arguments as it did exactly when it is a
-- C call without attributes, and has no variable arguments if it was split.
theorem replacedCalls_sameAbi_iff (A : Analysis) (F : Func) (hF : F.Numbered)
    (hexempt : F.name ∉ exempt) (before after : List Nat) (id : Nat)
    (hcandidates : F.candidates = before ++ id :: after) (st st' final : RunState)
    (hbefore : before.foldlM A.rewriteCandidate ⟨F, []⟩ = some st)
    (hround : A.rewriteCandidate st id = some st') (hrun : A.runFunction F = some final)
    (hreplaced : (A.tableOf F).isSome ∨ A.candidateMode st id = .guarded) (c₀ : CallBase)
    (hc₀ : (⟨id, .call c₀⟩ : Instr) ∈ F.ops) (hwell : c₀.WellTyped) :
    (∀ i c, st.func.next ≤ i → i < st'.func.next → (⟨i, .call c⟩ : Instr) ∈ final.func.ops →
        c.abi = c₀.abi) ↔
      c₀.abi.callingConv = 0 ∧ c₀.abi.attributes = [] ∧
        (A.tableOf F = none → c₀.abi.functionType.isVarArg = false) := by
  have hstart := Pending.start hF
  rw [hcandidates] at hstart
  obtain ⟨hkeeps, hinv⟩ := foldlM_keepsCalls (A := A) before (id :: after) hstart hbefore
  have hafter : after.foldlM A.rewriteCandidate st' = some final := by
    rw [runFunction, if_neg hexempt, hcandidates, List.foldlM_append, hbefore] at hrun
    simpa [hround] using hrun
  have hinv' := A.rewriteCandidate_pending hinv hround
  rw [← List.append_nil after] at hinv'
  obtain ⟨hlater, -⟩ := foldlM_keepsCalls (A := A) after [] hinv' hafter
  -- the call as the round finds it
  have hid : id ∉ before := by
    have hnodup := hF.nodup.sublist F.candidates_sublist
    rw [hcandidates, List.nodup_append] at hnodup
    exact fun hmem => hnodup.2.2 id hmem id List.mem_cons_self rfl
  obtain ⟨c, hc, hsame⟩ := hkeeps.keeps id c₀ hc₀ hid
  obtain ⟨cut, hcut⟩ : ∃ cut, cutBlocks id st.func.blocks = some cut := by
    cases hcut : cutBlocks id st.func.blocks with
    | none => exact absurd (mem_callIds.mpr ⟨_, hc, rfl⟩) (cutBlocks_none hcut)
    | some cut => exact ⟨cut, rfl⟩
  have hcall : cut.call = c := call_unique hinv.nodup (call_mem (cutBlocks_some hcut)) hc
  have htable : A.tableOf st.func = A.tableOf F := tableOf_congr hkeeps.name
  have hlt : ∀ i ∈ after, i < st.func.next := fun i hi =>
    (hinv.todo_lt i (List.mem_cons_of_mem _ hi)).trans_le hinv.lo_le
  rw [newCall_final_iff hlater hlt, ← hsame.1, ← hcall, ← htable]
  refine rewriteCandidate_sameAbi_iff hinv hcut hround (htable ▸ hreplaced) ?_
  exact hwell.of_sameAbi (hcall ▸ hsame)

end Analysis

-- A function with one call of its argument, split.

def applyAnalysis : Analysis :=
  { plainAnalysis with collectCallbackMaybeFunctions := ["apply".toList] }

def pairCall : CallBase where
  callee := .argument 0
  args := [.argument 1, .argument 2]
  argTypes := [1, 2]
  abi := ⟨⟨1, [1, 2], false⟩, 0, []⟩

theorem replacedCalls_sameAbi_iff_apply :
    ∃ final, applyAnalysis.runFunction (applyBody (.call pairCall)) = some final ∧
      ∀ i c, 3 ≤ i → i < final.func.next → (⟨i, .call c⟩ : Instr) ∈ final.func.ops →
        c.abi = pairCall.abi := by
  have hsome : (applyAnalysis.runFunction (applyBody (.call pairCall))).isSome := by
    decide
  obtain ⟨final, hrun⟩ := Option.isSome_iff_exists.mp hsome
  have hcandidates : (applyBody (.call pairCall)).candidates = [1] := by decide
  have hexempt : (applyBody (.call pairCall)).name ∉ exempt := by decide
  have hround : applyAnalysis.rewriteCandidate ⟨applyBody (.call pairCall), []⟩ 1 =
      some final := by
    rw [Analysis.runFunction, if_neg hexempt, hcandidates] at hrun
    simpa using hrun
  refine ⟨final, hrun, ?_⟩
  refine (Analysis.replacedCalls_sameAbi_iff applyAnalysis (applyBody (.call pairCall))
    (applyBody_numbered _ (by simp [Op.targets])) hexempt [] [] 1 hcandidates
    ⟨applyBody (.call pairCall), []⟩ final final rfl hround hrun ?_ pairCall ?_
    ?_).mpr ?_
  · exact .inr (by decide)
  · simp [applyBody, Func.ops]
  · simp [CallBase.WellTyped, pairCall]
  · simp [pairCall]

-- A call with one named and one variable argument.
def variadicCall : CallBase where
  callee := .argument 0
  args := [.argument 1, .argument 2]
  argTypes := [1, 2]
  abi := ⟨⟨1, [1], true⟩, 0, []⟩

def Func.callAbis (F : Func) : List Abi :=
  F.ops.filterMap fun I =>
    match I.op with
    | .call c => some c.abi
    | _ => none

-- The dispatcher is called as a function of two arguments.
theorem variadicCall_not_sameAbi :
    (applyAnalysis.runFunction (applyBody (.call variadicCall))).map (·.func.callAbis) =
      some [⟨⟨1, [1], true⟩, 0, []⟩, ⟨⟨1, [1, 2], false⟩, 0, []⟩] := by
  decide

end Platypus.Pass.BitMasks
