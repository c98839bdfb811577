import Platypus.Pass.Expand

-- The rewritings keep a function proper.

namespace Platypus.Pass.BitMasks

theorem filterMap_sublist {choose : Instr → Option Nat} (h : ∀ I i, choose I = some i → i = I.id)
    (is : List Instr) : (is.filterMap choose).Sublist (is.map Instr.id) := by
  induction is with
  | nil => exact .slnil
  | cons I is ih =>
    cases hchoose : choose I with
    | none =>
      rw [List.filterMap_cons_none hchoose]
      exact ih.cons _
    | some i =>
      rw [List.filterMap_cons_some hchoose, h I i hchoose]
      exact ih.cons_cons _

theorem Func.Proper.callIds_nodup {F : Func} (h : F.Proper) : (callIds F.ops).Nodup := by
  refine h.ids_nodup.sublist (filterMap_sublist (fun I i hcall => ?_) _)
  unfold callId at hcall
  split at hcall
  · exact (Option.some_inj.mp hcall).symm
  · cases hcall

theorem Func.candidates_sublist (F : Func) : F.candidates.Sublist (callIds F.ops) := by
  unfold Func.candidates callIds
  generalize F.ops = is
  induction is with
  | nil => exact .slnil
  | cons I is ih =>
    obtain ⟨i, op⟩ := I
    cases op with
    | call c =>
      by_cases hc : c.isCandidate
      · simpa [List.filterMap_cons, callId, hc] using ih
      · simpa [List.filterMap_cons, callId, hc] using ih.cons i
    | _ => simpa [List.filterMap_cons, callId] using ih

theorem Func.Proper.candidates_nodup {F : Func} (h : F.Proper) : F.candidates.Nodup :=
  h.callIds_nodup.sublist F.candidates_sublist

theorem mem_dropLast_append {α : Type} {x : α} {xs ys : List α} (h : x ∈ (xs ++ ys).dropLast) :
    x ∈ xs ∨ x ∈ ys.dropLast := by
  cases ys with
  | nil =>
    rw [List.append_nil] at h
    exact .inl (List.mem_of_mem_dropLast h)
  | cons y ys =>
    rw [List.dropLast_append_of_ne_nil (List.cons_ne_nil _ _)] at h
    exact List.mem_append.mp h

section Cut

variable {F : Func} {id : Nat} {cut : Cut}

theorem mem_blocks_of_around (hF : F.blocks = cut.blocks id) {B : Block}
    (hB : B ∈ cut.before ∨ B ∈ cut.after) : B ∈ F.blocks :=
  (mem_blocks_cut hF).mpr (hB.imp_right .inr)

variable (h : F.Proper) (hF : F.blocks = cut.blocks id)
include h hF

theorem others_nodup : (cut.others.map Instr.id).Nodup := by
  have hnodup := ((ops_perm hF).map Instr.id).nodup_iff.mp h.ids_nodup
  rw [List.map_cons, List.nodup_cons] at hnodup
  exact hnodup.2

theorem others_lt {i : Nat} (hi : i ∈ cut.others.map Instr.id) : i < F.next := by
  obtain ⟨I, hI, rfl⟩ := List.mem_map.mp hi
  exact h.ids_lt I (mem_ops_of_others hF hI)

-- Old numbers with fresh ones are given once.
theorem nodup_of_perm {ids new : List Nat} (hperm : ids.Perm (new ++ cut.others.map Instr.id))
    (hnew : new.Nodup) (hfresh : ∀ i ∈ new, i = id ∨ F.next ≤ i) : ids.Nodup := by
  rw [hperm.nodup_iff, List.nodup_append]
  refine ⟨hnew, others_nodup h hF, fun i hi j hj heq => ?_⟩
  subst heq
  rcases hfresh i hi with rfl | hle
  · obtain ⟨I, hI, heq⟩ := List.mem_map.mp hj
    exact others_ne h hF hI heq
  · exact absurd (others_lt h hF hj) (Nat.not_lt.mpr hle)

theorem post_not_phi {I : Instr} (hI : I ∈ cut.post) : I.op.isPhi = false := by
  refine h.phis_first _ (site_mem hF) I ?_
  rw [Cut.site, (Expands.phis_append _ (Expands.call_not_phi id cut)).1]
  exact List.mem_append_right _ (List.mem_cons_of_mem _ hI)

theorem pre_not_phi {I : Instr} (hI : I ∈ cut.pre.dropWhile (·.op.isPhi)) : I.op.isPhi = false := by
  refine h.phis_first _ (site_mem hF) I ?_
  rw [Cut.site, (Expands.phis_append _ (Expands.call_not_phi id cut)).1]
  exact List.mem_append_left _ hI

theorem post_targets {I : Instr} (hI : I ∈ cut.post.dropLast) : I.op.targets = [] := by
  refine h.branches_last _ (site_mem hF) I ?_
  have hne : cut.post ≠ [] := by
    rintro hnil
    rw [hnil] at hI
    cases hI
  rw [Cut.site, List.dropLast_append_of_ne_nil (List.cons_ne_nil _ _),
    List.dropLast_cons_of_ne_nil hne]
  exact List.mem_append_right _ (List.mem_cons_of_mem _ hI)

end Cut

section Blocks

variable {F : Func} {f : Value → Value} {g : Label → Label} {B : Block}

theorem map_phis_first (h : ∀ I ∈ B.body.dropWhile (·.op.isPhi), I.op.isPhi = false) :
    ∀ I ∈ (B.map f g).body.dropWhile (·.op.isPhi), I.op.isPhi = false := by
  intro I' hI'
  rw [Block.map, Expands.dropWhile_phis] at hI'
  obtain ⟨I, hI, rfl⟩ := List.mem_map.mp hI'
  exact (Op.isPhi_map f g I.op).trans (h I hI)

theorem map_branches_last (h : ∀ I ∈ B.body.dropLast, I.op.targets = []) :
    ∀ I ∈ (B.map f g).body.dropLast, I.op.targets = [] := by
  intro I' hI'
  rw [Block.map, ← List.map_dropLast] at hI'
  obtain ⟨I, hI, rfl⟩ := List.mem_map.mp hI'
  exact (targets_map f g I.op).trans (h I hI)

end Blocks

section Split

variable {F : Func} {id : Nat} {cut : Cut}

-- The operands of the new instructions: those of the call, and results of new instructions.
theorem splitNew_operands {B : Block} {I : Instr} (h : SplitNew F id cut B I) {k : Nat}
    (hk : .reg k ∈ I.op.operands) :
    (∃ v ∈ (Op.call cut.call).operands, splitUses F id cut v = .reg k) ∨
      k = F.next + 1 ∨ k = F.next + 2 ∨
        (k = F.next + 7 ∨ k = F.next + 8) ∧ cut.call.isVoid = false := by
  have hcallee (heq : .reg k = splitUses F id cut cut.call.callee) :
      ∃ v ∈ (Op.call cut.call).operands, splitUses F id cut v = .reg k :=
    ⟨_, List.mem_cons_self, heq.symm⟩
  have hargs (hk : .reg k ∈ (cut.call.args.map (splitUses F id cut))) :
      ∃ v ∈ (Op.call cut.call).operands, splitUses F id cut v = .reg k := by
    obtain ⟨v, hv, heq⟩ := List.mem_map.mp hk
    exact ⟨v, List.mem_cons_of_mem _ hv, heq⟩
  rcases h with hI | hI | ⟨-, hI⟩ | ⟨-, hI⟩
  · simp only [splitChecks, checking, List.mem_cons, List.not_mem_nil, or_false] at hI
    rcases hI with rfl | rfl | rfl | rfl
    · exact .inl (hcallee (List.mem_singleton.mp hk))
    · exact .inl (hcallee (List.mem_singleton.mp hk))
    · rcases List.mem_cons.mp hk with hk | hk
      · exact .inl (hcallee hk)
      · cases List.mem_singleton.mp hk
        exact .inr (.inl rfl)
    · cases List.mem_singleton.mp hk
      exact .inr (.inr (.inl rfl))
  · rw [mergedCall] at hI
    split at hI
    · cases hI
    · rename_i hvoid
      have hvoid' : cut.call.isVoid = false := Bool.not_eq_true _ ▸ hvoid
      cases List.mem_singleton.mp hI
      simp only [Op.operands, List.map_cons, List.map_nil, List.mem_cons, List.not_mem_nil,
        or_false] at hk
      rcases hk with hk | hk
      · cases hk
        exact .inr (.inr (.inr ⟨.inl rfl, hvoid'⟩))
      · cases hk
        exact .inr (.inr (.inr ⟨.inr rfl, hvoid'⟩))
  · simp only [callBlock, List.mem_cons, List.not_mem_nil, or_false] at hI
    rcases hI with rfl | rfl
    · rcases List.mem_cons.mp hk with hk | hk
      · exact .inl (hcallee hk)
      · exact .inl (hargs hk)
    · cases hk
  · simp only [skipBlock, List.mem_cons, List.not_mem_nil, or_false] at hI
    rcases hI with rfl | rfl
    · rcases List.mem_cons.mp hk with hk | hk
      · cases hk
      · exact .inl (hargs hk)
    · cases hk

theorem splitCall_operands (h : F.Proper) (hF : F.blocks = cut.blocks id) {I' : Instr}
    (hI' : I' ∈ (F.splitCall id cut).ops) {k : Nat} (hk : .reg k ∈ I'.op.operands) :
    (∃ I ∈ F.ops, .reg k ∈ I.op.operands) ∨ k = F.next + 1 ∨ k = F.next + 2 ∨
      (k = F.next + 7 ∨ k = F.next + 8 ∨ k = F.next + 9) ∧ cut.call.isVoid = false := by
  -- an operand of the old function, or the merged result in its place
  have hold {I : Instr} (hI : I ∈ F.ops) {v : Value} (hv : v ∈ I.op.operands)
      (heq : splitUses F id cut v = .reg k) :
      (∃ I ∈ F.ops, .reg k ∈ I.op.operands) ∨ k = F.next + 1 ∨ k = F.next + 2 ∨
        (k = F.next + 7 ∨ k = F.next + 8 ∨ k = F.next + 9) ∧ cut.call.isVoid = false := by
    rcases usesOf_eq_reg heq with rfl | ⟨hphi, hvoid⟩
    · exact .inl ⟨I, hI, hv⟩
    · exact .inr (.inr (.inr ⟨.inr (.inr hphi), hvoid⟩))
  rcases (splitCall_rewrites hF h.callIds_nodup).mem_ops_inv hI' with ⟨B, hnew⟩ | ⟨I, hI, rfl⟩
  · rcases splitNew_operands hnew hk with ⟨v, hv, heq⟩ | hk | hk | ⟨hk | hk, hvoid⟩
    · exact hold (call_mem hF) hv heq
    · exact .inr (.inl hk)
    · exact .inr (.inr (.inl hk))
    · exact .inr (.inr (.inr ⟨.inl hk, hvoid⟩))
    · exact .inr (.inr (.inr ⟨.inr (.inl hk), hvoid⟩))
  · change .reg k ∈ (I.op.map _ _).operands at hk
    rw [Op.operands_map] at hk
    obtain ⟨v, hv, heq⟩ := List.mem_map.mp hk
    exact hold hI hv heq

theorem splitCall_labels (hF : F.blocks = cut.blocks id) :
    ((F.splitCall id cut).blocks.map Block.label).Perm
      ([F.next + 4, F.next + 5, F.next + 6] ++ F.blocks.map Block.label) := by
  have hmap (f : Value → Value) (g : Label → Label) (Bs : List Block) :
      (Bs.map (Block.map f g)).map Block.label = Bs.map Block.label := by
    rw [List.map_map]
    rfl
  rw [splitCall_blocks, hF, Cut.blocks]
  simp only [List.map_append, List.map_cons, List.map_nil, hmap]
  change (_ ++ cut.label :: (F.next + 6) :: _ ++ [F.next + 4, F.next + 5]).Perm
    ([F.next + 4, F.next + 5, F.next + 6] ++ (_ ++ cut.label :: _))
  rw [List.perm_iff_count]
  intro a
  simp only [List.count_append, List.count_cons, List.count_nil]
  omega

def splitIds (n : Nat) (isVoid : Bool) : List Nat :=
  [n, n + 1, n + 2, n + 3] ++ (if isVoid then [] else [n + 9]) ++ [n + 7, n + 10, n + 8, n + 11]

theorem splitCall_ids :
    ((F.splitCall id cut).ops.map Instr.id).Perm
      (splitIds F.next cut.call.isVoid ++ cut.others.map Instr.id) := by
  have hmap (f : Value → Value) (g : Label → Label) (is : List Instr) :
      (is.map (Instr.map f g)).map Instr.id = is.map Instr.id := by
    rw [List.map_map]
    rfl
  have hmerged : (mergedCall (splitCallee F id cut) (fresh F.next)).map Instr.id =
      if cut.call.isVoid then [] else [F.next + 9] := by
    have hvoid : (splitCallee F id cut).isVoid = cut.call.isVoid := rfl
    rw [mergedCall, hvoid]
    split
    · rfl
    · rfl
  have hchecks : (splitChecks F id cut).map Instr.id =
      [F.next, F.next + 1, F.next + 2, F.next + 3] := rfl
  have htail : (opsOf [callBlock F id cut, skipBlock F id cut]).map Instr.id =
      [F.next + 7, F.next + 10, F.next + 8, F.next + 11] := rfl
  change ((opsOf (F.splitCall id cut).blocks).map Instr.id).Perm _
  rw [splitCall_blocks, opsOf_append, List.map_append, htail]
  simp only [opsOf_append, opsOf_cons, opsOf_map, origBlock, afterBlock, splitMap, List.map_append,
    hmap, hmerged, hchecks, splitIds, Cut.others]
  rw [List.perm_iff_count]
  intro a
  simp only [List.count_append]
  omega

theorem splitCall_calls (h : F.Proper) (hF : F.blocks = cut.blocks id) {i : Nat} {c : CallBase}
    (hcall : (⟨i, .call c⟩ : Instr) ∈ (F.splitCall id cut).ops) :
    (∃ c₀, (⟨i, .call c₀⟩ : Instr) ∈ F.ops ∧ c.isVoid = c₀.isVoid ∧ c.abi = c₀.abi ∧
        c.argTypes = c₀.argTypes) ∨
      (i = F.next + 7 ∨ i = F.next + 8) ∧ c.isVoid = cut.call.isVoid := by
  rcases (splitCall_rewrites hF h.callIds_nodup).mem_ops_inv hcall with
    ⟨B, hJ | hJ | ⟨-, hJ⟩ | ⟨-, hJ⟩⟩ | ⟨J, hJ, heq⟩
  · simp [splitChecks, checking] at hJ
  · have hid : i ∈ callIds (mergedCall (splitCallee F id cut) (fresh F.next)) :=
      mem_callIds.mpr ⟨_, hJ, rfl⟩
    rw [callIds_mergedCall] at hid
    cases hid
  · simp only [callBlock, fresh, List.mem_cons, List.not_mem_nil, or_false, Instr.mk.injEq,
      Op.call.injEq, reduceCtorEq, and_false] at hJ
    obtain ⟨rfl, rfl⟩ := hJ
    exact .inr ⟨.inl rfl, rfl⟩
  · simp only [skipBlock, tableCall, fresh, List.mem_cons, List.not_mem_nil, or_false,
      Instr.mk.injEq, Op.call.injEq, reduceCtorEq, and_false] at hJ
    obtain ⟨rfl, rfl⟩ := hJ
    exact .inr ⟨.inr rfl, rfl⟩
  · obtain ⟨j, op⟩ := J
    cases op with
    | call c₀ =>
      simp only [Instr.map, Op.map, Instr.mk.injEq, Op.call.injEq] at heq
      obtain ⟨rfl, rfl⟩ := heq
      exact .inl ⟨c₀, hJ, rfl, rfl, rfl⟩
    | _ => simp [Instr.map, Op.map] at heq

theorem splitChecks_starts (F : Func) (id : Nat) (cut : Cut) :
    ∃ I rest, splitChecks F id cut = I :: rest ∧ I.op.isPhi = false := ⟨_, _, rfl, rfl⟩

-- Behind the call, only the phi of its results is one.
theorem afterBlock_phis (h : F.Proper) (hF : F.blocks = cut.blocks id) :
    (afterBlock F id cut).body.dropWhile (·.op.isPhi) = cut.post.map (splitMap F id cut) ∧
      (afterBlock F id cut).body.takeWhile (·.op.isPhi) =
        mergedCall (splitCallee F id cut) (fresh F.next) := by
  have hpost : ∀ I' ∈ cut.post.map (splitMap F id cut), I'.op.isPhi = false := by
    intro I' hI'
    obtain ⟨I, hI, rfl⟩ := List.mem_map.mp hI'
    exact (Op.isPhi_map _ _ I.op).trans (post_not_phi h hF hI)
  have hrest : (cut.post.map (splitMap F id cut)).dropWhile (·.op.isPhi) =
      cut.post.map (splitMap F id cut) ∧
      (cut.post.map (splitMap F id cut)).takeWhile (·.op.isPhi) = [] := by
    cases hbody : cut.post.map (splitMap F id cut) with
    | nil => exact ⟨rfl, rfl⟩
    | cons I' rest =>
      rw [hbody] at hpost
      have hI' := hpost I' List.mem_cons_self
      rw [List.dropWhile_cons, List.takeWhile_cons, hI']
      exact ⟨rfl, rfl⟩
  rw [afterBlock, mergedCall]
  split
  · exact hrest
  · exact ⟨hrest.1, congrArg _ hrest.2⟩

theorem mem_splitCall_blocks {B : Block} :
    B ∈ (F.splitCall id cut).blocks ↔
      (∃ B₀, (B₀ ∈ cut.before ∨ B₀ ∈ cut.after) ∧
        B = B₀.map (splitUses F id cut) (cut.relabel (fresh F.next))) ∨
      B = origBlock F id cut ∨ B = afterBlock F id cut ∨ B = callBlock F id cut ∨
      B = skipBlock F id cut := by
  rw [splitCall_blocks]
  simp only [List.mem_append, List.mem_cons, List.mem_map, List.not_mem_nil, or_false]
  constructor
  · rintro ((⟨B₀, hB₀, rfl⟩ | rfl | rfl | ⟨B₀, hB₀, rfl⟩) | rfl | rfl)
    · exact .inl ⟨B₀, .inl hB₀, rfl⟩
    · exact .inr (.inl rfl)
    · exact .inr (.inr (.inl rfl))
    · exact .inl ⟨B₀, .inr hB₀, rfl⟩
    · exact .inr (.inr (.inr (.inl rfl)))
    · exact .inr (.inr (.inr (.inr rfl)))
  · rintro (⟨B₀, hB₀ | hB₀, rfl⟩ | rfl | rfl | rfl | rfl)
    · exact .inl (.inl ⟨B₀, hB₀, rfl⟩)
    · exact .inl (.inr (.inr (.inr ⟨B₀, hB₀, rfl⟩)))
    · exact .inl (.inr (.inl rfl))
    · exact .inl (.inr (.inr (.inl rfl)))
    · exact .inr (.inl rfl)
    · exact .inr (.inr rfl)

theorem splitIds_fresh {n i : Nat} {isVoid : Bool} (hi : i ∈ splitIds n isVoid) :
    n ≤ i ∧ i < n + 12 := by
  simp only [splitIds, List.mem_append, List.mem_cons, List.not_mem_nil, or_false] at hi
  rcases hi with (hi | hi) | hi
  · omega
  · split at hi
    · cases hi
    · rw [List.mem_singleton] at hi
      omega
  · omega

theorem splitIds_nodup (n : Nat) (isVoid : Bool) : (splitIds n isVoid).Nodup := by
  cases isVoid with
  | false => simp [splitIds]
  | true => simp [splitIds]

variable (h : F.Proper) (hF : F.blocks = cut.blocks id)
include h hF

theorem splitCall_labels_nodup : ((F.splitCall id cut).blocks.map Block.label).Nodup := by
  rw [(splitCall_labels hF).nodup_iff, List.nodup_append]
  refine ⟨by simp, h.labels_nodup, fun l hl l' hl' heq => ?_⟩
  subst heq
  obtain ⟨B, hB, rfl⟩ := List.mem_map.mp hl'
  have hlt := h.labels_lt B hB
  simp only [List.mem_cons, List.not_mem_nil, or_false] at hl
  rcases hl with hl | hl | hl
  · exact absurd (hl ▸ hlt) (Nat.not_lt.mpr (Nat.le_add_right _ _))
  · exact absurd (hl ▸ hlt) (Nat.not_lt.mpr (Nat.le_add_right _ _))
  · exact absurd (hl ▸ hlt) (Nat.not_lt.mpr (Nat.le_add_right _ _))

theorem splitCall_labels_lt {B' : Block} (hB' : B' ∈ (F.splitCall id cut).blocks) :
    B'.label < F.next + 12 := by
  rcases List.mem_append.mp ((splitCall_labels hF).mem_iff.mp (List.mem_map_of_mem hB')) with hl | hl
  · simp only [List.mem_cons, List.not_mem_nil, or_false] at hl
    rcases hl with hl | hl | hl
    · exact hl ▸ Nat.add_lt_add_left (by decide) _
    · exact hl ▸ Nat.add_lt_add_left (by decide) _
    · exact hl ▸ Nat.add_lt_add_left (by decide) _
  · obtain ⟨B, hB, heq⟩ := List.mem_map.mp hl
    exact heq ▸ Nat.lt_add_right 12 (h.labels_lt B hB)

theorem splitCall_incoming_lt {I' : Instr} (hI' : I' ∈ (F.splitCall id cut).ops)
    {incoming : List (Value × Label)} (hop : I'.op = .phi incoming) {p : Value × Label}
    (hp : p ∈ incoming) : p.2 < F.next + 12 := by
  rcases (splitCall_rewrites hF h.callIds_nodup).mem_ops_inv hI' with
    ⟨B, hI | hI | ⟨-, hI⟩ | ⟨-, hI⟩⟩ | ⟨I, hI, rfl⟩
  · simp only [splitChecks, checking, List.mem_cons, List.not_mem_nil, or_false] at hI
    rcases hI with rfl | rfl | rfl | rfl <;> cases hop
  · rw [mergedCall] at hI
    split at hI
    · cases hI
    · cases List.mem_singleton.mp hI
      cases hop
      simp only [List.mem_cons, List.not_mem_nil, or_false] at hp
      rcases hp with rfl | rfl
      · exact Nat.add_lt_add_left (by decide) _
      · exact Nat.add_lt_add_left (by decide) _
  · simp only [callBlock, List.mem_cons, List.not_mem_nil, or_false] at hI
    rcases hI with rfl | rfl <;> cases hop
  · simp only [skipBlock, List.mem_cons, List.not_mem_nil, or_false] at hI
    rcases hI with rfl | rfl <;> cases hop
  · cases hop' : I.op with
    | phi inc =>
      simp only [Instr.map, hop', Op.map, Op.phi.injEq] at hop
      subst hop
      obtain ⟨p', hp', rfl⟩ := List.mem_map.mp hp
      have hlt := h.incoming_lt I hI inc hop' p' hp'
      simp only [Cut.relabel]
      split
      · exact Nat.add_lt_add_left (by decide) _
      · exact Nat.lt_add_right 12 hlt
    | _ => simp only [Instr.map, hop', Op.map, reduceCtorEq] at hop

theorem splitCall_void_unused {i : Nat} {c : CallBase}
    (hcall : (⟨i, .call c⟩ : Instr) ∈ (F.splitCall id cut).ops) (hvoid : c.isVoid = true)
    {I' : Instr} (hI' : I' ∈ (F.splitCall id cut).ops) : .reg i ∉ I'.op.operands := by
  intro hk
  rcases splitCall_calls h hF hcall with ⟨c₀, hc₀, heq, -⟩ | ⟨hi, heq⟩
  · have hlt : i < F.next := h.ids_lt _ hc₀
    rcases splitCall_operands h hF hI' hk with ⟨I, hI, hk⟩ | hk
    · exact h.void_unused i c₀ hc₀ (heq ▸ hvoid) I hI hk
    · omega
  · rcases splitCall_operands h hF hI' hk with ⟨I, hI, hk⟩ | hk | hk | ⟨-, hresult⟩
    · have hlt := h.operands_lt I hI i hk
      omega
    · omega
    · omega
    · rw [heq, hresult] at hvoid
      cases hvoid

theorem splitCall_phis_first {B' : Block} (hB' : B' ∈ (F.splitCall id cut).blocks) {I' : Instr}
    (hI' : I' ∈ B'.body.dropWhile (·.op.isPhi)) : I'.op.isPhi = false := by
  rcases mem_splitCall_blocks.mp hB' with ⟨B, hB, rfl⟩ | rfl | rfl | rfl | rfl
  · exact map_phis_first (h.phis_first B (mem_blocks_of_around hF hB)) I' hI'
  · have hphis := (Expands.phis_append (cut.pre.map (splitMap F id cut))
      (splitChecks_starts F id cut)).1
    change I' ∈ (cut.pre.map (splitMap F id cut) ++ splitChecks F id cut).dropWhile _ at hI'
    rw [hphis] at hI'
    rcases List.mem_append.mp hI' with hI' | hI'
    · rw [splitMap, Expands.dropWhile_phis] at hI'
      obtain ⟨I, hI, rfl⟩ := List.mem_map.mp hI'
      exact (Op.isPhi_map _ _ I.op).trans (pre_not_phi h hF hI)
    · simp only [splitChecks, checking, List.mem_cons, List.not_mem_nil, or_false] at hI'
      rcases hI' with rfl | rfl | rfl | rfl <;> rfl
  · rw [(afterBlock_phis h hF).1] at hI'
    obtain ⟨I, hI, rfl⟩ := List.mem_map.mp hI'
    exact (Op.isPhi_map _ _ I.op).trans (post_not_phi h hF hI)
  · have hmem := (List.dropWhile_sublist _).subset hI'
    simp only [callBlock, List.mem_cons, List.not_mem_nil, or_false] at hmem
    rcases hmem with rfl | rfl <;> rfl
  · have hmem := (List.dropWhile_sublist _).subset hI'
    simp only [skipBlock, List.mem_cons, List.not_mem_nil, or_false] at hmem
    rcases hmem with rfl | rfl <;> rfl

theorem splitCall_branches_last {B' : Block} (hB' : B' ∈ (F.splitCall id cut).blocks) {I' : Instr}
    (hI' : I' ∈ B'.body.dropLast) : I'.op.targets = [] := by
  rcases mem_splitCall_blocks.mp hB' with ⟨B, hB, rfl⟩ | rfl | rfl | rfl | rfl
  · exact map_branches_last (h.branches_last B (mem_blocks_of_around hF hB)) I' hI'
  · rcases mem_dropLast_append hI' with hI' | hI'
    · obtain ⟨I, hI, rfl⟩ := List.mem_map.mp hI'
      exact (targets_map _ _ I.op).trans (pre_targets h hF hI)
    · simp only [splitChecks, checking, List.dropLast, List.mem_cons, List.not_mem_nil,
        or_false] at hI'
      rcases hI' with rfl | rfl | rfl <;> rfl
  · rcases mem_dropLast_append hI' with hI' | hI'
    · exact targets_mergedCall hI'
    · rw [← List.map_dropLast] at hI'
      obtain ⟨I, hI, rfl⟩ := List.mem_map.mp hI'
      exact (targets_map _ _ I.op).trans (post_targets h hF hI)
  · simp only [callBlock, List.dropLast, List.mem_cons, List.not_mem_nil, or_false] at hI'
    cases hI'
    rfl
  · simp only [skipBlock, List.dropLast, List.mem_cons, List.not_mem_nil, or_false] at hI'
    cases hI'
    rfl

theorem splitCall_proper : (F.splitCall id cut).Proper where
  labels_nodup := splitCall_labels_nodup h hF
  labels_lt _ hB' := splitCall_labels_lt h hF hB'
  ids_nodup := nodup_of_perm h hF splitCall_ids (splitIds_nodup _ _)
    fun _ hi => .inr (splitIds_fresh hi).1
  ids_lt I' hI' := by
    change I'.id < F.next + 12
    rcases List.mem_append.mp (splitCall_ids.mem_iff.mp (List.mem_map_of_mem hI')) with hi | hi
    · exact (splitIds_fresh hi).2
    · exact Nat.lt_add_right 12 (others_lt h hF hi)
  operands_lt I' hI' k hk := by
    change k < F.next + 12
    rcases splitCall_operands h hF hI' hk with ⟨I, hI, hk⟩ | hk
    · exact Nat.lt_add_right 12 (h.operands_lt I hI k hk)
    · omega
  incoming_lt _ hI' _ hop _ hp := splitCall_incoming_lt h hF hI' hop hp
  void_unused _ _ hcall hvoid _ hI' := splitCall_void_unused h hF hcall hvoid hI'
  phis_first _ hB' _ hI' := splitCall_phis_first h hF hB' hI'
  branches_last _ hB' _ hI' := splitCall_branches_last h hF hB' hI'

end Split

section Normal

variable {F : Func} {id : Nat} {cut : Cut}

def maskedCode (F : Func) (id : Nat) (cut : Cut) : List Instr :=
  masking F.next cut.call.callee ++ maskedCall F id cut :: cut.post

def maskedBlock (F : Func) (id : Nat) (cut : Cut) : Block :=
  ⟨cut.label, cut.pre ++ maskedCode F id cut⟩

theorem normalCase_blocks : (F.instrumentNormalCase id cut).blocks =
    cut.before ++ maskedBlock F id cut :: cut.after := by
  rw [maskedBlock, maskedCode, ← List.append_assoc]
  rfl

theorem normalCase_ops : (F.instrumentNormalCase id cut).ops.Perm
    (masking F.next cut.call.callee ++ [maskedCall F id cut] ++ cut.others) := by
  change (opsOf (F.instrumentNormalCase id cut).blocks).Perm _
  rw [normalCase_blocks, opsOf_append, opsOf_cons, maskedBlock, maskedCode, Cut.others]
  rw [List.perm_iff_count]
  intro a
  simp only [List.count_append, List.count_cons, List.count_nil]
  omega

theorem mem_normalCase_ops {I : Instr} (hI : I ∈ (F.instrumentNormalCase id cut).ops) :
    I ∈ masking F.next cut.call.callee ∨ I = maskedCall F id cut ∨ I ∈ cut.others := by
  have hmem := normalCase_ops.mem_iff.mp hI
  rw [List.mem_append, List.mem_append, List.mem_singleton, or_assoc] at hmem
  exact hmem

theorem normalCase_operands (hF : F.blocks = cut.blocks id) {I' : Instr}
    (hI' : I' ∈ (F.instrumentNormalCase id cut).ops) {k : Nat} (hk : .reg k ∈ I'.op.operands) :
    (∃ I ∈ F.ops, .reg k ∈ I.op.operands) ∨ F.next ≤ k ∧ k < F.next + 4 := by
  have hcall := call_mem hF
  rcases mem_normalCase_ops hI' with hI | rfl | hI
  · simp only [masking, List.mem_cons, List.not_mem_nil, or_false] at hI
    rcases hI with rfl | rfl | rfl | rfl
    · have hcallee := List.mem_singleton.mp hk
      exact .inl ⟨_, hcall, hcallee ▸ List.mem_cons_self⟩
    · simp only [Op.operands, orMask, List.mem_cons, List.not_mem_nil, or_false, Value.reg.injEq,
        reduceCtorEq] at hk
      omega
    · simp only [Op.operands, andMask, List.mem_cons, List.not_mem_nil, or_false, Value.reg.injEq,
        reduceCtorEq] at hk
      omega
    · simp only [Op.operands, List.mem_cons, List.not_mem_nil, or_false, Value.reg.injEq] at hk
      omega
  · rcases List.mem_cons.mp hk with hk | hk
    · cases hk
      omega
    · exact .inl ⟨_, hcall, List.mem_cons_of_mem _ hk⟩
  · exact .inl ⟨I', mem_ops_of_others hF hI, hk⟩

theorem masking_plain {n : Nat} {v : Value} {I : Instr} (hI : I ∈ masking n v) :
    I.op.isPhi = false ∧ I.op.targets = [] ∧ ∀ c, I.op ≠ .call c := by
  simp only [masking, List.mem_cons, List.not_mem_nil, or_false] at hI
  rcases hI with rfl | rfl | rfl | rfl
  · exact ⟨rfl, rfl, fun _ h => by cases h⟩
  · exact ⟨rfl, rfl, fun _ h => by cases h⟩
  · exact ⟨rfl, rfl, fun _ h => by cases h⟩
  · exact ⟨rfl, rfl, fun _ h => by cases h⟩

theorem maskedCode_starts (F : Func) (id : Nat) (cut : Cut) :
    ∃ I rest, maskedCode F id cut = I :: rest ∧ I.op.isPhi = false := ⟨_, _, rfl, rfl⟩

theorem normalCase_labels (hF : F.blocks = cut.blocks id) :
    (F.instrumentNormalCase id cut).blocks.map Block.label = F.blocks.map Block.label := by
  rw [normalCase_blocks, hF, Cut.blocks, List.map_append, List.map_append]
  rfl

theorem mem_normalCase_blocks (hF : F.blocks = cut.blocks id) {B' : Block}
    (hB' : B' ∈ (F.instrumentNormalCase id cut).blocks) :
    B' ∈ F.blocks ∨ B' = maskedBlock F id cut := by
  rw [normalCase_blocks, List.mem_append, List.mem_cons] at hB'
  rcases hB' with hB' | hB' | hB'
  · exact .inl (mem_blocks_of_around hF (.inl hB'))
  · exact .inr hB'
  · exact .inl (mem_blocks_of_around hF (.inr hB'))

def maskedIds (n id : Nat) : List Nat := [n, n + 1, n + 2, n + 3, id]

theorem normalCase_ids : ((F.instrumentNormalCase id cut).ops.map Instr.id).Perm
    (maskedIds F.next id ++ cut.others.map Instr.id) := by
  have hperm : (F.instrumentNormalCase id cut).ops.Perm
      (masking F.next cut.call.callee ++ [maskedCall F id cut] ++ cut.others) := normalCase_ops
  have hids := hperm.map Instr.id
  rw [List.map_append] at hids
  exact hids

theorem maskedIds_fresh {n id i : Nat} (hi : i ∈ maskedIds n id) : i = id ∨ n ≤ i ∧ i < n + 4 := by
  simp only [maskedIds, List.mem_cons, List.not_mem_nil, or_false] at hi
  omega

theorem maskedIds_nodup {n id : Nat} (h : id < n) : (maskedIds n id).Nodup := by
  simp [maskedIds]
  omega

variable (h : F.Proper) (hF : F.blocks = cut.blocks id)
include h hF

theorem normalCase_labels_lt {B' : Block} (hB' : B' ∈ (F.instrumentNormalCase id cut).blocks) :
    B'.label < F.next + 4 := by
  have hmem : B'.label ∈ F.blocks.map Block.label := by
    rw [← normalCase_labels hF]
    exact List.mem_map_of_mem hB'
  obtain ⟨B, hB, heq⟩ := List.mem_map.mp hmem
  rw [← heq]
  exact Nat.lt_add_right 4 (h.labels_lt B hB)

theorem normalCase_ids_lt {I' : Instr} (hI' : I' ∈ (F.instrumentNormalCase id cut).ops) :
    I'.id < F.next + 4 := by
  rcases List.mem_append.mp (normalCase_ids.mem_iff.mp (List.mem_map_of_mem hI')) with hi | hi
  · rcases maskedIds_fresh hi with heq | hlt
    · rw [heq]
      exact Nat.lt_add_right 4 (h.ids_lt _ (call_mem hF))
    · exact hlt.2
  · exact Nat.lt_add_right 4 (others_lt h hF hi)

theorem normalCase_void_unused {i : Nat} {c : CallBase}
    (hmem : (⟨i, .call c⟩ : Instr) ∈ (F.instrumentNormalCase id cut).ops)
    (hvoid : c.isVoid = true) {I' : Instr} (hI' : I' ∈ (F.instrumentNormalCase id cut).ops) :
    .reg i ∉ I'.op.operands := by
  have hold : ∃ c₀, (⟨i, .call c₀⟩ : Instr) ∈ F.ops ∧ c₀.isVoid = true := by
    rcases mem_normalCase_ops hmem with hI | heq | hI
    · exact absurd rfl ((masking_plain hI).2.2 c)
    · cases heq
      exact ⟨_, call_mem hF, hvoid⟩
    · exact ⟨c, mem_ops_of_others hF hI, hvoid⟩
  obtain ⟨c₀, hc₀, hvoid₀⟩ := hold
  intro hk
  rcases normalCase_operands hF hI' hk with ⟨I, hI, hk⟩ | hk
  · exact h.void_unused i c₀ hc₀ hvoid₀ I hI hk
  · exact absurd (h.ids_lt _ hc₀) (Nat.not_lt.mpr hk.1)

theorem normalCase_phis_first {B' : Block} (hB' : B' ∈ (F.instrumentNormalCase id cut).blocks)
    {I : Instr} (hI : I ∈ B'.body.dropWhile (·.op.isPhi)) : I.op.isPhi = false := by
  rcases mem_normalCase_blocks hF hB' with hB | rfl
  · exact h.phis_first B' hB I hI
  · have hphis := (Expands.phis_append cut.pre (maskedCode_starts F id cut)).1
    change I ∈ (cut.pre ++ maskedCode F id cut).dropWhile _ at hI
    rw [hphis, maskedCode, List.mem_append, List.mem_append, List.mem_cons] at hI
    rcases hI with hI | hI | rfl | hI
    · exact pre_not_phi h hF hI
    · exact (masking_plain hI).1
    · rfl
    · exact post_not_phi h hF hI

theorem normalCase_branches_last {B' : Block} (hB' : B' ∈ (F.instrumentNormalCase id cut).blocks)
    {I : Instr} (hI : I ∈ B'.body.dropLast) : I.op.targets = [] := by
  rcases mem_normalCase_blocks hF hB' with hB | rfl
  · exact h.branches_last B' hB I hI
  · rcases mem_dropLast_append hI with hI | hI
    · exact pre_targets h hF hI
    · rw [maskedCode, List.append_cons] at hI
      rcases mem_dropLast_append hI with hI | hI
      · rcases List.mem_append.mp hI with hI | hI
        · exact (masking_plain hI).2.1
        · cases List.mem_singleton.mp hI
          rfl
      · exact post_targets h hF hI

theorem normalCase_proper : (F.instrumentNormalCase id cut).Proper where
  labels_nodup := by
    rw [normalCase_labels hF]
    exact h.labels_nodup
  labels_lt _ hB' := normalCase_labels_lt h hF hB'
  ids_nodup := nodup_of_perm h hF normalCase_ids (maskedIds_nodup (h.ids_lt _ (call_mem hF)))
    fun _ hi => (maskedIds_fresh hi).imp_right And.left
  ids_lt _ hI' := normalCase_ids_lt h hF hI'
  operands_lt I' hI' k hk := by
    rcases normalCase_operands hF hI' hk with ⟨I, hI, hk⟩ | hk
    · exact Nat.lt_add_right 4 (h.operands_lt I hI k hk)
    · exact hk.2
  incoming_lt I' hI' incoming hop p hp := by
    rcases mem_normalCase_ops hI' with hI | rfl | hI
    · have hphi := (masking_plain hI).1
      rw [hop] at hphi
      cases hphi
    · cases hop
    · exact Nat.lt_add_right 4 (h.incoming_lt I' (mem_ops_of_others hF hI) incoming hop p hp)
  void_unused _ _ hmem hvoid _ hI' := normalCase_void_unused h hF hmem hvoid hI'
  phis_first _ hB' _ hI := normalCase_phis_first h hF hB' hI
  branches_last _ hB' _ hI := normalCase_branches_last h hF hB' hI

end Normal

end Platypus.Pass.BitMasks
