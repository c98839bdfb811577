import Platypus.Pass.Proper

-- Which call sites the pass `BitMasks` leaves as they are, in terms of the function before the pass.

namespace Platypus.Pass.BitMasks

namespace Analysis

variable (A : Analysis)

-- The objects of the loader that are read-only after start-up.
def readOnlyGlobals : List Name :=
  ["rtld_global_ro".toList, "_rtld_global_ro".toList, "_rtld_local_ro".toList]

-- A pointer to such an object or to a field of it.
def PointsToReadOnly (F : Func) (ptr : Value) : Prop :=
  ∃ name ∈ readOnlyGlobals, A.stripPointerCasts F ptr = .globalVariable name ∨
    (∃ ty base, F.defOf ptr = some (.gep ty base) ∧
      A.stripPointerCasts F base = .globalVariable name) ∨
    ∃ base, ptr = .gepExpr base ∧ A.stripPointerCasts F base = .globalVariable name

def FromReadOnly (F : Func) (target : Value) : Prop :=
  ∃ ptr, F.defOf (A.stripPointerCasts F target) = some (.load ptr) ∧ A.PointsToReadOnly F ptr

-- The candidate is left as it is: the analysis says that it comes from the read-only objects.
def SkipsAt (st : RunState) (id : Nat) : Prop :=
  ∃ cut, cutBlocks id st.func.blocks = some cut ∧ A.tableOf st.func = none ∧
    A.reportStructOriginOfIndirCalls st.func cut.call.callee = some .readOnly

end Analysis

-- The call sites of any kind.
def Op.site : Op → Option CallBase
  | .call c => some c
  | .invoke c _ _ => some c
  | .callbr c _ => some c
  | _ => none

-- The target of the instruction with this number is loaded from the read-only objects.
def LoadsReadOnly (A : Analysis) (F : Func) (id : Nat) : Prop :=
  ∃ I ∈ F.ops, I.id = id ∧ ∃ c, I.op.site = some c ∧ A.FromReadOnly F c.callee

-- Every indirect call site of the function that `F` has become is covered, but for the targets that
-- were loaded from the read-only objects.
def Instrumented (A : Analysis) (F F' : Func) : Prop :=
  ∀ B ∈ F'.blocks, ∀ I ∈ B.body, ∀ c, I.op.site = some c → c.isIndirect →
    ¬LoadsReadOnly A F I.id → Covered F' F.next B c

-- Changes of operands that only replace results by results.
structure Renames (f : Value → Value) : Prop where
  fixed : ∀ v, (∀ k, v ≠ .reg k) → f v = v
  reg : ∀ k, ∃ j, f (.reg k) = .reg j

-- The same instruction, with other results among its operands.
def Descends (I J : Instr) : Prop := ∃ f g, Renames f ∧ J = I.map f g

theorem Instr.map_map (f f' : Value → Value) (g g' : Label → Label) (I : Instr) :
    (I.map f g).map f' g' = I.map (fun v => f' (f v)) fun l => g' (g l) := by
  obtain ⟨id, op⟩ := I
  cases op <;> simp [Instr.map, Op.map, CallBase.map]

theorem Op.site_map (f : Value → Value) (g : Label → Label) (op : Op) :
    (op.map f g).site = op.site.map (CallBase.map f) := by
  cases op <;> rfl

namespace Renames

variable {f f' : Value → Value}

theorem comp (h : Renames f) (h' : Renames f') : Renames fun v => f' (f v) where
  fixed v hv := by rw [h.fixed v hv, h'.fixed v hv]
  reg k := by
    obtain ⟨j, hj⟩ := h.reg k
    rw [hj]
    exact h'.reg j

theorem isIndirect_map (h : Renames f) (c : CallBase) : (c.map f).isIndirect = c.isIndirect := by
  have hcallee : (c.map f).callee = f c.callee := rfl
  unfold CallBase.isIndirect
  rw [hcallee]
  by_cases hreg : ∃ k, c.callee = .reg k
  · obtain ⟨k, hk⟩ := hreg
    obtain ⟨j, hj⟩ := h.reg k
    rw [hk, hj]
  · rw [h.fixed _ fun k hk => hreg ⟨k, hk⟩]

-- A result comes from a result.
theorem reg_of_eq (h : Renames f) {v : Value} {j : Nat} (hv : f v = .reg j) : ∃ k, v = .reg k := by
  cases v with
  | reg k => exact ⟨k, rfl⟩
  | _ => rw [h.fixed _ (by simp)] at hv; cases hv

end Renames

namespace Descends

variable {I J : Instr} {c : CallBase}

theorem refl (I : Instr) : Descends I I :=
  ⟨fun v => v, fun l => l, ⟨fun _ _ => rfl, fun k => ⟨k, rfl⟩⟩, (Instr.map_id I).symm⟩

theorem map (h : Descends I J) {f : Value → Value} (hf : Renames f) (g : Label → Label) :
    Descends I (J.map f g) := by
  obtain ⟨f₀, g₀, hf₀, rfl⟩ := h
  exact ⟨_, _, hf₀.comp hf, Instr.map_map f₀ f g₀ g I⟩

theorem id_eq (h : Descends I J) : J.id = I.id := by
  obtain ⟨f, g, -, rfl⟩ := h
  rfl

theorem callId_eq (h : Descends I J) : callId J = callId I := by
  obtain ⟨f, g, -, rfl⟩ := h
  exact callId_map f g I

theorem site_eq (h : Descends I J) (hJ : J.op.site = some c) :
    ∃ c₀, I.op.site = some c₀ ∧ c₀.isIndirect = c.isIndirect := by
  obtain ⟨f, g, hf, rfl⟩ := h
  rw [Instr.map, Op.site_map] at hJ
  obtain ⟨c₀, hc₀, rfl⟩ := Option.map_eq_some_iff.mp hJ
  exact ⟨c₀, hc₀, (hf.isIndirect_map c₀).symm⟩

theorem site (h : Descends I J) (hI : I.op.site = some c) :
    ∃ c', J.op.site = some c' ∧ c'.isIndirect = c.isIndirect := by
  obtain ⟨f, g, hf, rfl⟩ := h
  exact ⟨c.map f, by rw [Instr.map, Op.site_map, hI]; rfl, hf.isIndirect_map c⟩

end Descends

-- No call, or one that is still to be looked at or was skipped.
def Untouched (ids : List Nat) (I : Instr) : Prop := ∀ i, callId I = some i → i ∈ ids

theorem callId_eq_id {I : Instr} {i : Nat} (h : callId I = some i) : I.id = i := by
  unfold callId at h
  split at h
  · exact Option.some_inj.mp h
  · cases h

theorem Op.site_of_callId {I : Instr} {i : Nat} (h : callId I = some i) : ∃ c, I = ⟨i, .call c⟩ := by
  obtain ⟨j, op⟩ := I
  cases op with
  | call c =>
    cases h
    exact ⟨c, rfl⟩
  | _ => cases h

-- What is new after a rewrite of the call `id` besides what `Rewrites` says: numbers are fresh, new
-- call sites are calls, and the result that takes the place of the call's is no masked target.
structure NewInstrs (F F' : Func) (id : Nat) (New : Block → Instr → Prop) (f : Value → Value) :
    Prop where
  numbers : ∀ B I, New B I → callId I = some id ∨ F.next ≤ I.id ∧ I.id < F'.next
  sites : ∀ B I, New B I → I.op.site.isSome → (callId I).isSome
  result : f (.reg id) = .reg id ∨ ∃ r, f (.reg id) = .reg r ∧ F.next ≤ r ∧ r < F'.next ∧
    ∀ B w, ¬New B ⟨r, .intToPtr w⟩

theorem Rewrites.renames {F F' : Func} {id : Nat} {New : Block → Instr → Prop} {f : Value → Value}
    {g : Label → Label} (h : Rewrites F F' id New f g) (hnew : NewInstrs F F' id New f) :
    Renames f where
  fixed := h.fixed
  reg k := by
    by_cases hk : k = id
    · subst hk
      rcases hnew.result with heq | ⟨r, heq, -⟩
      · exact ⟨k, heq⟩
      · exact ⟨r, heq⟩
    · exact ⟨k, h.reg k hk⟩

-- What holds between two candidates: the call sites that were not rewritten are those of the
-- function before the pass, and their targets are not masked.
structure Kept (F₀ F : Func) (ids : List Nat) : Prop where
  next_le : F₀.next ≤ F.next
  ids_lt : ∀ I ∈ F.ops, I.id < F.next
  nodup : ids.Nodup
  old : ∀ i ∈ ids, i < F₀.next
  origin : ∀ J ∈ F.ops, J.op.site.isSome → Untouched ids J → ∃ I ∈ F₀.ops, Descends I J
  stays : ∀ I ∈ F₀.ops, Untouched ids I → ∃ J ∈ F.ops, Descends I J
  bare : ∀ J ∈ F.ops, Untouched ids J → ∀ c, J.op.site = some c → ∀ m, c.callee = .reg m →
    m < F.next ∧ (F₀.next ≤ m → ∀ w, (⟨m, .intToPtr w⟩ : Instr) ∉ F.ops)

namespace Kept

variable {F₀ F F' : Func} {id : Nat} {ids : List Nat}

theorem mono (h : Kept F₀ F ids) {ids' : List Nat} (hsub : ids' ⊆ ids) (hnodup : ids'.Nodup) :
    Kept F₀ F ids' := by
  have huntouched {I : Instr} (hI : Untouched ids' I) : Untouched ids I := fun i hi => hsub (hI i hi)
  exact ⟨h.next_le, h.ids_lt, hnodup, fun i hi => h.old i (hsub hi),
    fun J hJ hsite hJ' => h.origin J hJ hsite (huntouched hJ'),
    fun I hI hI' => h.stays I hI (huntouched hI'), fun J hJ hJ' => h.bare J hJ (huntouched hJ')⟩

variable {New : Block → Instr → Prop} {f : Value → Value} {g : Label → Label}

-- A call site that was not rewritten was there before the rewrite.
theorem old_of_untouched (h : Kept F₀ F (id :: ids)) (hrw : Rewrites F F' id New f g)
    (hnew : NewInstrs F F' id New f) {J : Instr} (hJ : J ∈ F'.ops) (hsite : J.op.site.isSome)
    (hids : Untouched ids J) : ∃ I ∈ F.ops, J = I.map f g := by
  rcases hrw.mem_ops_inv hJ with ⟨B, hB⟩ | hold
  · obtain ⟨i, hi⟩ := Option.isSome_iff_exists.mp (hnew.sites B J hB hsite)
    have hmem := hids i hi
    rcases hnew.numbers B J hB with hid | ⟨hle, -⟩
    · cases hi.symm.trans hid
      exact absurd hmem (List.nodup_cons.mp h.nodup).1
    · rw [callId_eq_id hi] at hle
      have hlt := h.old i (List.mem_cons_of_mem id hmem)
      exact absurd (hlt.trans_le h.next_le) (Nat.not_lt.mpr hle)
  · exact hold

-- A result that is no masked target becomes none.
theorem bare_reg (h : Kept F₀ F (id :: ids)) (hrw : Rewrites F F' id New f g)
    (hnew : NewInstrs F F' id New f) {k m : Nat} (hlt : k < F.next)
    (hbare : F₀.next ≤ k → ∀ w, (⟨k, .intToPtr w⟩ : Instr) ∉ F.ops) (hm : f (.reg k) = .reg m) :
    m < F'.next ∧ (F₀.next ≤ m → ∀ w, (⟨m, .intToPtr w⟩ : Instr) ∉ F'.ops) := by
  by_cases hk : k = id
  · subst hk
    rcases hnew.result with heq | ⟨r, heq, hle, hr, hno⟩
    · cases heq.symm.trans hm
      have hold := h.old k List.mem_cons_self
      exact ⟨hlt.trans_le hrw.next_le, fun hge => absurd hold (Nat.not_lt.mpr hge)⟩
    · cases heq.symm.trans hm
      refine ⟨hr, fun _ w hmem => ?_⟩
      rcases hrw.mem_ops_inv hmem with ⟨B, hB⟩ | ⟨I, hI, heq⟩
      · exact hno B w hB
      · have hI_lt := h.ids_lt I hI
        rw [show I.id = m from congrArg Instr.id heq.symm] at hI_lt
        exact absurd hI_lt (Nat.not_lt.mpr hle)
  · rw [hrw.reg k hk] at hm
    cases hm
    refine ⟨hlt.trans_le hrw.next_le, fun hge w hmem => ?_⟩
    rcases hrw.mem_ops_inv hmem with ⟨B, hB⟩ | ⟨⟨j, op⟩, hI, heq⟩
    · rcases hnew.numbers B _ hB with hcall | ⟨hle, -⟩
      · cases hcall
      · exact absurd hlt (Nat.not_lt.mpr hle)
    · cases op with
      | intToPtr v =>
        cases heq
        exact hbare hge v hI
      | _ => cases heq

theorem rewrites (h : Kept F₀ F (id :: ids)) (hrw : Rewrites F F' id New f g)
    (hnew : NewInstrs F F' id New f) : Kept F₀ F' ids := by
  have hid := h.old id List.mem_cons_self
  have hmore {I : Instr} (hI : Untouched ids I) : Untouched (id :: ids) I :=
    fun i hi => List.mem_cons_of_mem id (hI i hi)
  have hmap {I : Instr} (hI : Untouched ids (I.map f g)) : Untouched ids I := by
    intro i hi
    exact hI i ((callId_map f g I).trans hi)
  refine ⟨h.next_le.trans hrw.next_le, fun I' hI' => ?_, (List.nodup_cons.mp h.nodup).2,
    fun i hi => h.old i (List.mem_cons_of_mem id hi), fun J hJ hsite hids => ?_,
    fun I hI hids => ?_, fun J hJ hids c hc m hm => ?_⟩
  · rcases hrw.mem_ops_inv hI' with ⟨B, hB⟩ | ⟨I, hI, rfl⟩
    · rcases hnew.numbers B I' hB with heq | ⟨-, hlt⟩
      · rw [callId_eq_id heq]
        exact hid.trans_le (h.next_le.trans hrw.next_le)
      · exact hlt
    · exact (h.ids_lt I hI).trans_le hrw.next_le
  · obtain ⟨I, hI, rfl⟩ := h.old_of_untouched hrw hnew hJ hsite hids
    have hsite' : I.op.site.isSome := by
      rwa [Instr.map, Op.site_map, Option.isSome_map] at hsite
    obtain ⟨I₀, hI₀, hdesc⟩ := h.origin I hI hsite' (hmore (hmap hids))
    exact ⟨I₀, hI₀, hdesc.map (hrw.renames hnew) g⟩
  · obtain ⟨J, hJ, hdesc⟩ := h.stays I hI (hmore hids)
    refine ⟨J.map f g, hrw.keepsOp J hJ fun hcall => ?_, hdesc.map (hrw.renames hnew) g⟩
    exact (List.nodup_cons.mp h.nodup).1 (hids id (hdesc.callId_eq.symm.trans hcall))
  · obtain ⟨I, hI, rfl⟩ := h.old_of_untouched hrw hnew hJ (Option.isSome_of_mem hc) hids
    rw [Instr.map, Op.site_map] at hc
    obtain ⟨c₀, hc₀, rfl⟩ := Option.map_eq_some_iff.mp hc
    have hcallee : f c₀.callee = .reg m := hm
    obtain ⟨k, hk⟩ := (hrw.renames hnew).reg_of_eq hcallee
    obtain ⟨hlt, hbare⟩ := h.bare I hI (hmore (hmap hids)) c₀ hc₀ k hk
    exact h.bare_reg hrw hnew hlt hbare (hk ▸ hcallee)

-- A call site that was not rewritten has no masks.
theorem not_covered (h : Kept F₀ F ids) {B : Block} (hB : B ∈ F.blocks) {J : Instr} (hJ : J ∈ B.body)
    (hids : Untouched ids J) {c : CallBase} (hc : J.op.site = some c) :
    ¬Covered F F₀.next B c := by
  have hmem : J ∈ F.ops := mem_ops.mpr ⟨B, hB, hJ⟩
  rintro (⟨k, x, hk, hcallee, hmasks⟩ | ⟨k, skip, hG⟩)
  · obtain ⟨-, hbare⟩ := h.bare J hmem hids c hc (k + 3) hcallee
    exact hbare (by omega) (.reg (k + 2)) (hmasks (by simp [masking]))
  · obtain ⟨i, b, join, hi, hbody⟩ := hG.body
    rw [hbody] at hJ
    simp only [List.mem_cons, List.not_mem_nil, or_false] at hJ
    rcases hJ with rfl | rfl
    · exact absurd (h.old i (hids i rfl)) (Nat.not_lt.mpr hi)
    · cases hc

theorem start (hproper : F.Proper) : Kept F F F.candidates where
  next_le := le_rfl
  ids_lt := hproper.ids_lt
  nodup := hproper.candidates_nodup
  old i hi := by
    obtain ⟨c, hI, -⟩ := mem_candidates.mp hi
    exact hproper.ids_lt _ hI
  origin J hJ _ _ := ⟨J, hJ, .refl J⟩
  stays I hI _ := ⟨I, hI, .refl I⟩
  bare J hJ _ c hc m hm := by
    have hlt : m < F.next := by
      refine hproper.operands_lt J hJ m ?_
      obtain ⟨j, op⟩ := J
      cases op with
      | call d => cases hc; simp [Op.operands, hm]
      | invoke d normal unwind => cases hc; simp [Op.operands, hm]
      | callbr d dests => cases hc; simp [Op.operands, hm]
      | _ => cases hc
    exact ⟨hlt, fun hge => absurd hlt (Nat.not_lt.mpr hge)⟩

end Kept

section Rounds

variable {F : Func} {id : Nat} {cut : Cut}

theorem normalCase_new :
    NewInstrs F (F.instrumentNormalCase id cut) id
      (fun _ I => I ∈ masking F.next cut.call.callee ∨ I = maskedCall F id cut) fun v => v := by
  have hnext : (F.instrumentNormalCase id cut).next = F.next + 4 := rfl
  refine ⟨?_, ?_, .inl rfl⟩
  · rintro - I (hI | rfl)
    · rw [hnext]
      simp only [masking, List.mem_cons, List.not_mem_nil, or_false] at hI
      rcases hI with rfl | rfl | rfl | rfl <;> right <;> dsimp only <;> omega
    · exact .inl rfl
  · rintro - I (hI | rfl) hsite
    · simp only [masking, List.mem_cons, List.not_mem_nil, or_false] at hI
      rcases hI with rfl | rfl | rfl | rfl <;> cases hsite
    · rfl

theorem usesOf_result (c : CallBase) (id r : Nat) :
    usesOf c id (.reg r) (.reg id) = .reg id ∨ usesOf c id (.reg r) (.reg id) = .reg r := by
  rw [usesOf]
  split
  · exact .inl rfl
  · exact .inr (if_pos rfl)

theorem alwaysCallbackTable_new (table : Table) :
    NewInstrs F (F.alwaysCallbackTable id cut table) id
      (fun _ I => I = tableMov F id cut ∨ I = tableInstr F id cut table) (tableUses F id cut) := by
  have hnext : (F.alwaysCallbackTable id cut table).next = F.next + 2 := rfl
  refine ⟨?_, ?_, ?_⟩
  · rintro - I (rfl | rfl) <;> rw [hnext] <;> right <;> dsimp only [tableMov, tableInstr] <;> omega
  · rintro - I (rfl | rfl) hsite
    · cases hsite
    · rfl
  · refine (usesOf_result cut.call id (F.next + 1)).imp_right fun heq => ⟨F.next + 1, heq, ?_⟩
    refine ⟨Nat.le_succ _, Nat.lt_succ_self _, ?_⟩
    rintro - w (heq | heq)
    · cases congrArg Instr.op heq
    · cases congrArg Instr.op heq

theorem splitNew_cases {B : Block} {I : Instr} (h : SplitNew F id cut B I) :
    I ∈ splitChecks F id cut ∨ (∃ incoming, I = ⟨F.next + 9, .phi incoming⟩) ∨
      (∃ c, I = ⟨F.next + 7, .call c⟩ ∨ I = ⟨F.next + 8, .call c⟩) ∨
      ∃ l, I = ⟨F.next + 10, .br l⟩ ∨ I = ⟨F.next + 11, .br l⟩ := by
  rcases h with hI | hI | ⟨-, hI⟩ | ⟨-, hI⟩
  · exact .inl hI
  · rw [mergedCall] at hI
    split at hI
    · cases hI
    · exact .inr (.inl ⟨_, List.mem_singleton.mp hI⟩)
  · simp only [callBlock, List.mem_cons, List.not_mem_nil, or_false] at hI
    rcases hI with rfl | rfl
    · exact .inr (.inr (.inl ⟨_, .inl rfl⟩))
    · exact .inr (.inr (.inr ⟨_, .inl rfl⟩))
  · simp only [skipBlock, List.mem_cons, List.not_mem_nil, or_false] at hI
    rcases hI with rfl | rfl
    · exact .inr (.inr (.inl ⟨_, .inr rfl⟩))
    · exact .inr (.inr (.inr ⟨_, .inr rfl⟩))

theorem splitCall_new :
    NewInstrs F (F.splitCall id cut) id (SplitNew F id cut) (splitUses F id cut) := by
  have hnext : (F.splitCall id cut).next = F.next + 12 := rfl
  refine ⟨fun B I hI => ?_, fun B I hI hsite => ?_, ?_⟩
  · rw [hnext]
    right
    rcases splitNew_cases hI with hI | ⟨_, rfl⟩ | ⟨_, rfl | rfl⟩ | ⟨_, rfl | rfl⟩
    · simp only [splitChecks, checking, List.mem_cons, List.not_mem_nil, or_false] at hI
      rcases hI with rfl | rfl | rfl | rfl <;> dsimp only <;> omega
    all_goals dsimp only; omega
  · rcases splitNew_cases hI with hI | ⟨_, rfl⟩ | ⟨_, rfl | rfl⟩ | ⟨_, rfl | rfl⟩
    · simp only [splitChecks, checking, List.mem_cons, List.not_mem_nil, or_false] at hI
      rcases hI with rfl | rfl | rfl | rfl <;> cases hsite
    · cases hsite
    · rfl
    · rfl
    · cases hsite
    · cases hsite
  · refine (usesOf_result cut.call id (F.next + 9)).imp_right fun heq => ⟨F.next + 9, heq, ?_⟩
    refine ⟨Nat.le_add_right .., Nat.add_lt_add_left (by decide) _, fun B w hI => ?_⟩
    rcases splitNew_cases hI with hI | ⟨_, heq⟩ | ⟨_, heq | heq⟩ | ⟨_, heq | heq⟩
    · simp [splitChecks, checking] at hI
    all_goals cases congrArg Instr.op heq

end Rounds

namespace Analysis

variable (A : Analysis)

theorem rewriteCandidate_kept {F₀ : Func} {st st' : RunState} {id : Nat} {todo : List Nat}
    (hkept : Kept F₀ st.func (id :: todo ++ st.skipped)) (hnodup : (callIds st.func.ops).Nodup)
    (h : A.rewriteCandidate st id = some st') : Kept F₀ st'.func (todo ++ st'.skipped) := by
  rcases A.candidateRound h with ⟨-, rfl⟩ | ⟨cut, hcut, hround⟩
  · exact hkept.mono (List.subset_cons_self ..) (List.nodup_cons.mp hkept.nodup).2
  · have hblocks := cutBlocks_some hcut
    cases hround with
    | table table =>
      exact hkept.rewrites (alwaysCallbackTable_rewrites st.func id cut table hblocks hnodup)
        (alwaysCallbackTable_new table)
    | skipped =>
      have hperm : (todo ++ id :: st.skipped).Perm (id :: todo ++ st.skipped) := List.perm_middle
      exact hkept.mono hperm.subset (hperm.nodup_iff.mpr hkept.nodup)
    | split => exact hkept.rewrites (splitCall_rewrites hblocks hnodup) splitCall_new
    | normal => exact hkept.rewrites (normalCase_rewrites hblocks hnodup) normalCase_new

theorem runFunction_kept {F : Func} {st : RunState} (hproper : F.Proper) (hnum : F.Numbered)
    (hexempt : F.name ∉ exempt) (h : A.runFunction F = some st) : Kept F st.func st.skipped := by
  refine (State.trace_todo (fun st todo => Kept F st.func (todo ++ st.skipped) ∧
    Pending F.next st.func todo st.skipped) ?_ ⟨?_, .start hnum⟩ (A.runFunction_trace hexempt h)).1
  · rintro s id todo s' ⟨hkept, hpending⟩ hround
    exact ⟨A.rewriteCandidate_kept hkept hpending.nodup hround,
      A.rewriteCandidate_pending hpending hround⟩
  · rw [List.append_nil]
    exact .start hproper

theorem mem_skipped_step {i id : Nat} {st st' : RunState} (h : A.rewriteCandidate st id = some st') :
    i ∈ st'.skipped ↔ (i = id ∧ A.SkipsAt st id) ∨ i ∈ st.skipped ∧ ¬False := by
  rw [not_false_eq_true, and_true]
  rcases A.candidateRound h with ⟨hcut, rfl⟩ | ⟨cut, hcut, hround⟩
  · refine (or_iff_right ?_).symm
    rintro ⟨-, cut, hcut', -⟩
    cases hcut.symm.trans hcut'
  · have hkeep (hnot : ¬(A.tableOf st.func = none ∧
        A.reportStructOriginOfIndirCalls st.func cut.call.callee = some .readOnly)) :
        ¬(i = id ∧ A.SkipsAt st id) := by
      rintro ⟨-, cut', hcut', hskips⟩
      cases hcut.symm.trans hcut'
      exact hnot hskips
    cases hround with
    | table table htable =>
      refine (or_iff_right (hkeep ?_)).symm
      rintro ⟨hnone, -⟩
      cases htable.symm.trans hnone
    | skipped htable horigin =>
      rw [List.mem_cons]
      exact or_congr_left (and_iff_left ⟨cut, hcut, htable, horigin⟩).symm
    | split htable rtld_glob horigin hother hsplit =>
      refine (or_iff_right (hkeep ?_)).symm
      rintro ⟨-, hro⟩
      exact hother (Option.some_inj.mp (horigin.symm.trans hro))
    | normal htable rtld_glob horigin hother hsplit =>
      refine (or_iff_right (hkeep ?_)).symm
      rintro ⟨-, hro⟩
      exact hother (Option.some_inj.mp (horigin.symm.trans hro))

theorem mem_skipped_iff {F : Func} {st : RunState}
    (h : State.trace A.rewriteCandidate ⟨F, []⟩ F.candidates = some st) (i : Nat) :
    i ∈ st.skipped ↔ ∃ pre post st₁, F.candidates = pre ++ i :: post ∧
      State.trace A.rewriteCandidate ⟨F, []⟩ pre = some st₁ ∧ A.SkipsAt st₁ i := by
  rw [State.trace_effect (fun _ _ _ => A.mem_skipped_step) h]
  constructor
  · rintro (⟨hmem, -⟩ | ⟨pre, id, post, st₁, st₂, hsplit, hpre, -, ⟨rfl, hskips⟩, -⟩)
    · cases hmem
    · exact ⟨pre, post, st₁, hsplit, hpre, hskips⟩
  · rintro ⟨pre, post, st₁, hsplit, hpre, hskips⟩
    have htail := h
    rw [hsplit, State.trace_append, hpre, Option.bind_some] at htail
    obtain ⟨st₂, hstep, -⟩ := Option.bind_eq_some_iff.mp htail
    exact .inr ⟨pre, i, post, st₁, st₂, hsplit, hpre, hstep, ⟨rfl, hskips⟩,
      fun _ _ _ _ _ _ => not_false⟩

end Analysis

theorem eq_of_id {F : Func} (hproper : F.Proper) {I J : Instr} (hI : I ∈ F.ops) (hJ : J ∈ F.ops)
    (h : I.id = J.id) : I = J :=
  List.inj_on_of_nodup_map hproper.ids_nodup hI hJ h

-- A call site that was not rewritten, and whose target was not loaded from the read-only objects,
-- shows that the function is not instrumented.
theorem not_instrumented {A : Analysis} {F F' : Func} {ids : List Nat} (hproper : F.Proper)
    (hkept : Kept F F' ids) {I : Instr} (hI : I ∈ F.ops) (hids : Untouched ids I) {c : CallBase}
    (hc : I.op.site = some c) (hind : c.isIndirect) (hno : ¬A.FromReadOnly F c.callee) :
    ¬Instrumented A F F' := by
  intro h
  obtain ⟨J, hJ, hdesc⟩ := hkept.stays I hI hids
  obtain ⟨B, hB, hJB⟩ := mem_ops.mp hJ
  obtain ⟨c', hc', hind'⟩ := hdesc.site hc
  have hids' : Untouched ids J := fun i hi => hids i (hdesc.callId_eq.symm.trans hi)
  refine hkept.not_covered hB hJB hids' hc' (h B hB J hJB c' hc' (hind'.trans hind) ?_)
  rintro ⟨I', hI', hid, d, hd, hro⟩
  rw [hdesc.id_eq] at hid
  cases eq_of_id hproper hI' hI hid
  cases hd.symm.trans hc
  exact hno hro

def applyMasked : RunState :=
  ⟨(applyBody (.call throughArgument)).instrumentNormalCase 1
    ⟨[], 0, [], throughArgument, [], [⟨2, []⟩]⟩, []⟩

theorem applyBody_proper : (applyBody (.call throughArgument)).Proper where
  labels_nodup := by decide
  labels_lt := by decide
  ids_nodup := by decide
  ids_lt := by decide
  operands_lt := by simp [applyBody, throughArgument, Func.ops, Op.operands]
  incoming_lt := by simp [applyBody, Func.ops]
  void_unused := by simp [applyBody, throughArgument, Func.ops, Op.operands]
  phis_first := by decide
  branches_last := by decide

end Platypus.Pass.BitMasks
