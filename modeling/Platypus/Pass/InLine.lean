import Platypus.Pass.Proper
import Platypus.Pass.ReplacedCalls

-- The checks of a call stand right before it, or right before the branch to its block.

namespace Platypus.Pass.BitMasks

def Func.HasLine (F : Func) (is : List Instr) : Prop := ∃ B ∈ F.blocks, is <:+: B.body

theorem infix_of_not_mem {α : Type} {s xs ys : List α} {a : α} (h : s <:+: xs ++ a :: ys)
    (ha : a ∉ s) : s <:+: xs ∨ s <:+: ys := by
  obtain ⟨p, q, hpq⟩ := h
  rw [List.append_assoc, List.append_eq_append_iff] at hpq
  rcases hpq with ⟨t, rfl, ht⟩ | ⟨t, rfl, ht⟩
  · -- the piece starts in `xs`, and ends there, since `a` is not in it
    rcases List.append_eq_append_iff.mp ht with ⟨u, rfl, -⟩ | ⟨u, rfl, hu⟩
    · exact .inl ⟨p, u, by rw [List.append_assoc]⟩
    · cases u with
      | nil => exact .inl ⟨p, [], by simp⟩
      | cons b u =>
        rw [List.cons_append, List.cons.injEq] at hu
        rw [hu.1] at ha
        exact absurd (List.mem_append_right _ List.mem_cons_self) ha
  · cases t with
    | nil =>
      rw [List.nil_append] at ht
      cases s with
      | nil => exact .inl List.nil_infix
      | cons b s =>
        rw [List.cons_append, List.cons.injEq] at ht
        rw [ht.1] at ha
        exact absurd List.mem_cons_self ha
    | cons b t =>
      rw [List.cons_append, List.cons.injEq] at ht
      exact .inr ⟨t, q, by rw [ht.2, List.append_assoc]⟩

-- How a call is checked: its target is masked in the instructions before it, or its block is
-- entered by a branch, behind a comparison, that nothing else takes.
inductive InLine (F : Func) (lo i : Nat) (c : CallBase) : Prop
  | masked (k : Nat) (x : Value) (lo_le : lo ≤ k) (callee : c.callee = .reg (k + 3))
      (line : F.HasLine (masking k x ++ [⟨i, .call c⟩])) : InLine F lo i c
  | guarded (k l skip join b : Nat) (lo_le : lo ≤ k ∧ lo ≤ i ∧ lo ≤ l)
      (next_le : k + 4 ≤ F.next) (callee : ∀ j, c.callee = .reg j → j < k ∨ k + 4 ≤ j)
      (block : ⟨l, [⟨i, .call c⟩, ⟨b, .br join⟩]⟩ ∈ F.blocks)
      (line : F.HasLine (checking k c.callee l skip)) (ne : skip ≠ l)
      (entered : ∀ I ∈ F.ops, l ∈ I.op.targets → I = ⟨k + 3, .condBr (.reg (k + 2)) l skip⟩) :
      InLine F lo i c

-- What a rewrite of the call `id` does to pieces of blocks that do not have it.
structure KeepsLines (F F' : Func) (id : Nat) (f : Value → Value) (g : Label → Label) : Prop where
  line : ∀ is, F.HasLine is → id ∉ callIds is → F'.HasLine (is.map (Instr.map f g))
  head : F'.blocks.head?.map Block.label = F.blocks.head?.map Block.label
  uses : ∀ j, f (.reg id) = .reg j → j = id ∨ F.next ≤ j

theorem Rewrites.reg_of_map {F F' : Func} {id j : Nat} {New : Block → Instr → Prop}
    {f : Value → Value} {g : Label → Label} (h : Rewrites F F' id New f g) {v : Value}
    (hv : f v = .reg j) : j ≠ id ∧ v = .reg j ∨ v = .reg id ∧ f (.reg id) = .reg j := by
  cases v with
  | reg k =>
    by_cases hk : k = id
    · subst hk
      exact .inr ⟨rfl, hv⟩
    · rw [h.reg k hk] at hv
      cases hv
      exact .inl ⟨hk, rfl⟩
  | _ =>
    rw [h.fixed _ (by simp)] at hv
    cases hv

namespace InLine

variable {F F' : Func} {id lo i : Nat} {New : Block → Instr → Prop} {f : Value → Value}
  {g : Label → Label} {c : CallBase}

theorem rewrites (hc : InLine F lo i c) (h : Rewrites F F' id New f g)
    (hlines : KeepsLines F F' id f g) (hid : id < lo) (hi : i ≠ id)
    (htargets : ∀ I ∈ F.ops, ∀ l ∈ I.op.targets, l < F.next) : InLine F' lo i (c.map f) := by
  cases hc with
  | masked k x hk hcallee hline =>
    refine .masked k (f x) hk ?_ ?_
    · rw [CallBase.map, hcallee]
      exact h.reg (k + 3) (by omega)
    · have hmap := hlines.line _ hline (by simpa [callIds, callId, masking, eq_comm] using hi)
      rw [List.map_append, h.map_masking hid hk] at hmap
      exact hmap
  | guarded k l skip join b hlo hnext hcallee hblock hline hne hentered =>
    have hbranch : (⟨k + 3, .condBr (.reg (k + 2)) l skip⟩ : Instr) ∈ F.ops := by
      obtain ⟨B, hB, hsub⟩ := hline
      exact mem_ops.mpr ⟨B, hB, hsub.subset (by simp [checking])⟩
    have hl : l < F.next := htargets _ hbranch l (by simp [Op.targets])
    refine .guarded k l skip join b hlo (hnext.trans h.next_le) ?_ ?_ ?_ hne ?_
    · intro j hj
      rcases h.reg_of_map hj with ⟨-, hv⟩ | ⟨-, hv⟩
      · exact hcallee j hv
      · have := hlines.uses j hv
        omega
    · have hkeep := h.keepsBlock _ hblock (by
        simp only [callIds, List.filterMap_cons, callId, List.filterMap_nil, List.mem_singleton]
        omega)
      exact hkeep
    · have hmap := hlines.line _ hline (by simp [callIds, callId, checking])
      rw [h.map_checking hid hlo.1] at hmap
      exact hmap
    · intro I' hI' hmem
      rcases h.mem_ops_inv hI' with ⟨B', hnew⟩ | ⟨I, hI, rfl⟩
      · exact absurd hl (Nat.not_lt.mpr (h.targets B' I' hnew _ hmem).1)
      · rw [Instr.map, targets_map] at hmem
        rw [hentered I hI hmem, Instr.map, Op.map, h.reg (k + 2) (by omega)]

end InLine

-- What holds between two candidates.
structure Lined (lo : Nat) (F : Func) (todo skipped : List Nat) : Prop where
  proper : F.Proper
  head : ∀ B, F.blocks.head? = some B → B.label < lo
  calls : ∀ i c, (⟨i, .call c⟩ : Instr) ∈ F.ops → c.isIndirect →
    i ∈ todo ∨ i ∈ skipped ∨ InLine F lo i c

theorem Lined.rewrites {lo id : Nat} {F F' : Func} {todo skipped : List Nat}
    {New : Block → Instr → Prop} {f : Value → Value} {g : Label → Label}
    (hlined : Lined lo F (id :: todo) skipped) (hinv : Pending lo F (id :: todo) skipped)
    (h : Rewrites F F' id New f g) (hlines : KeepsLines F F' id f g)
    (hproper : F'.Proper)
    (hnew : ∀ B i c, New B ⟨i, .call c⟩ → c.isIndirect → InLine F' lo i c) :
    Lined lo F' todo skipped := by
  have hid : id < lo := hinv.todo_lt id List.mem_cons_self
  refine ⟨hproper, fun B hB => ?_, fun i c' hmem hc' => ?_⟩
  · have hhead := hlines.head
    rw [hB, Option.map_some] at hhead
    obtain ⟨B₀, hB₀, hlabel⟩ := Option.map_eq_some_iff.mp hhead.symm
    rw [← hlabel]
    exact hlined.head B₀ hB₀
  · -- a call that was there before
    have hold {I : Instr} (hI : I ∈ F.ops) (heq : ⟨i, .call c'⟩ = I.map f g) (hne : i ≠ id) :
        i ∈ todo ∨ i ∈ skipped ∨ InLine F' lo i c' := by
      obtain ⟨c, rfl, rfl⟩ := Instr.eq_call_of_map heq
      rcases hlined.calls i c hI (h.isIndirect_of_map hc') with htodo | hskip | hline
      · exact .inl (List.mem_of_ne_of_mem hne htodo)
      · exact .inr (.inl hskip)
      · exact .inr (.inr (hline.rewrites h hlines hid hne hinv.targets))
    obtain ⟨B', hB', hI'⟩ := mem_ops.mp hmem
    rcases h.inv B' hB' with ⟨B, hB, rfl, hnot⟩ | hall
    · obtain ⟨I, hI, heq⟩ := List.mem_map.mp hI'
      refine hold (mem_ops.mpr ⟨B, hB, hI⟩) heq.symm ?_
      rintro rfl
      obtain ⟨c, rfl, -⟩ := Instr.eq_call_of_map heq.symm
      exact hnot (mem_callIds.mpr ⟨_, hI, rfl⟩)
    · rcases hall _ hI' with hn | ⟨B, hB, -, I, hI, hnot, heq⟩
      · exact .inr (.inr (hnew B' i c' hn hc'))
      · refine hold (mem_ops.mpr ⟨B, hB, hI⟩) heq ?_
        rintro rfl
        obtain ⟨c, rfl, -⟩ := Instr.eq_call_of_map heq
        exact hnot rfl

theorem Lined.tail {lo id : Nat} {F : Func} {todo skipped skipped' : List Nat}
    (hlined : Lined lo F (id :: todo) skipped) (hsub : skipped ⊆ skipped')
    (hid : id ∈ callIds F.ops → id ∈ skipped') : Lined lo F todo skipped' := by
  refine ⟨hlined.proper, hlined.head, fun i c hI hc => ?_⟩
  rcases hlined.calls i c hI hc with htodo | hskip | hline
  · rcases List.mem_cons.mp htodo with rfl | htodo
    · exact .inr (.inl (hid (mem_callIds.mpr ⟨_, hI, rfl⟩)))
    · exact .inl htodo
  · exact .inr (.inl (hsub hskip))
  · exact .inr (.inr hline)

section Table

variable {F : Func} {id : Nat} {cut : Cut} {table : Table}

theorem table_ops : (F.alwaysCallbackTable id cut table).ops.Perm
    ([tableMov F id cut, tableInstr F id cut table] ++
      cut.others.map (Instr.map (tableUses F id cut) fun l => l)) := by
  change (opsOf (F.alwaysCallbackTable id cut table).blocks).Perm _
  rw [alwaysCallbackTable_blocks, opsOf_append, opsOf_cons, opsOf_map, opsOf_map, tableBlock,
    Cut.others, List.perm_iff_count]
  intro a
  simp only [List.map_append, List.count_append, List.count_cons, List.count_nil]
  omega

theorem table_ids : ((F.alwaysCallbackTable id cut table).ops.map Instr.id).Perm
    ([F.next, F.next + 1] ++ cut.others.map Instr.id) := by
  have hperm : (F.alwaysCallbackTable id cut table).ops.Perm
      ([tableMov F id cut, tableInstr F id cut table] ++
        cut.others.map (Instr.map (tableUses F id cut) fun l => l)) := table_ops
  have hids := hperm.map Instr.id
  rw [List.map_append, List.map_map] at hids
  exact hids

theorem mem_table_ops (hF : F.blocks = cut.blocks id) {I' : Instr}
    (hI' : I' ∈ (F.alwaysCallbackTable id cut table).ops) :
    I' = tableMov F id cut ∨ I' = tableInstr F id cut table ∨
      ∃ I ∈ F.ops, I' = I.map (tableUses F id cut) fun l => l := by
  have hmem := table_ops.mem_iff.mp hI'
  rw [List.mem_append, List.mem_cons, List.mem_singleton, or_assoc] at hmem
  refine hmem.imp_right (Or.imp_right fun h => ?_)
  obtain ⟨I, hI, heq⟩ := List.mem_map.mp h
  exact ⟨I, mem_ops_of_others hF hI, heq.symm⟩

theorem table_operands (hF : F.blocks = cut.blocks id) {I' : Instr}
    (hI' : I' ∈ (F.alwaysCallbackTable id cut table).ops) {k : Nat}
    (hk : .reg k ∈ I'.op.operands) :
    (∃ I ∈ F.ops, .reg k ∈ I.op.operands) ∨ k = F.next + 1 ∧ cut.call.isVoid = false := by
  have hold {I : Instr} (hI : I ∈ F.ops) {v : Value} (hv : v ∈ I.op.operands)
      (heq : tableUses F id cut v = .reg k) :
      (∃ I ∈ F.ops, .reg k ∈ I.op.operands) ∨ k = F.next + 1 ∧ cut.call.isVoid = false := by
    rcases usesOf_eq_reg heq with rfl | hnew
    · exact .inl ⟨I, hI, hv⟩
    · exact .inr hnew
  rcases mem_table_ops hF hI' with rfl | rfl | ⟨I, hI, rfl⟩
  · exact hold (call_mem hF) List.mem_cons_self (List.mem_singleton.mp hk).symm
  · rcases List.mem_cons.mp hk with hk | hk
    · cases hk
    · obtain ⟨v, hv, heq⟩ := List.mem_map.mp hk
      exact hold (call_mem hF) (List.mem_cons_of_mem _ hv) heq
  · rw [Instr.map, Op.operands_map] at hk
    obtain ⟨v, hv, heq⟩ := List.mem_map.mp hk
    exact hold hI hv heq

theorem table_labels (hF : F.blocks = cut.blocks id) :
    (F.alwaysCallbackTable id cut table).blocks.map Block.label = F.blocks.map Block.label := by
  rw [alwaysCallbackTable_blocks, hF, Cut.blocks, List.map_append, List.map_append, List.map_cons,
    List.map_cons, List.map_map, List.map_map]
  rfl

theorem mem_table_blocks {B' : Block} (hB' : B' ∈ (F.alwaysCallbackTable id cut table).blocks) :
    (∃ B, (B ∈ cut.before ∨ B ∈ cut.after) ∧ B' = B.map (tableUses F id cut) fun l => l) ∨
      B' = tableBlock F id cut table := by
  rw [alwaysCallbackTable_blocks, List.mem_append, List.mem_cons] at hB'
  rcases hB' with hB' | rfl | hB'
  · obtain ⟨B, hB, rfl⟩ := List.mem_map.mp hB'
    exact .inl ⟨B, .inl hB, rfl⟩
  · exact .inr rfl
  · obtain ⟨B, hB, rfl⟩ := List.mem_map.mp hB'
    exact .inl ⟨B, .inr hB, rfl⟩

variable (h : F.Proper) (hF : F.blocks = cut.blocks id)
include h hF

theorem table_void_unused {i : Nat} {c : CallBase}
    (hcall : (⟨i, .call c⟩ : Instr) ∈ (F.alwaysCallbackTable id cut table).ops)
    (hvoid : c.isVoid = true) {I' : Instr} (hI' : I' ∈ (F.alwaysCallbackTable id cut table).ops) :
    .reg i ∉ I'.op.operands := by
  intro hk
  rcases mem_table_ops hF hcall with heq | heq | ⟨I₀, hI₀, heq⟩
  · cases heq
  · cases heq
    rcases table_operands hF hI' hk with ⟨I, hI, hk⟩ | ⟨-, hresult⟩
    · exact absurd (h.operands_lt I hI _ hk) (Nat.not_lt.mpr (Nat.le_succ _))
    · rw [CallBase.isVoid] at hresult hvoid
      exact absurd (hvoid.symm.trans hresult) (by decide)
  · obtain ⟨c₀, rfl, rfl⟩ := Instr.eq_call_of_map heq
    rcases table_operands hF hI' hk with ⟨I, hI, hk⟩ | ⟨rfl, -⟩
    · exact h.void_unused i c₀ hI₀ hvoid I hI hk
    · exact absurd (h.ids_lt _ hI₀) (Nat.not_lt.mpr (Nat.le_succ _))

theorem table_phis_first {B' : Block} (hB' : B' ∈ (F.alwaysCallbackTable id cut table).blocks)
    {I' : Instr} (hI' : I' ∈ B'.body.dropWhile (·.op.isPhi)) : I'.op.isPhi = false := by
  rcases mem_table_blocks hB' with ⟨B, hB, rfl⟩ | rfl
  · exact map_phis_first (h.phis_first B (mem_blocks_of_around hF hB)) I' hI'
  · rw [tableBlock, (Expands.phis_append _ ⟨_, _, rfl, rfl⟩).1, List.mem_append, List.mem_cons,
      List.mem_cons] at hI'
    rcases hI' with hI' | rfl | rfl | hI'
    · rw [Expands.dropWhile_phis] at hI'
      obtain ⟨I, hI, rfl⟩ := List.mem_map.mp hI'
      exact (Op.isPhi_map (tableUses F id cut) (fun l => l) I.op).trans (pre_not_phi h hF hI)
    · rfl
    · rfl
    · obtain ⟨I, hI, rfl⟩ := List.mem_map.mp hI'
      exact (Op.isPhi_map (tableUses F id cut) (fun l => l) I.op).trans (post_not_phi h hF hI)

theorem table_branches_last {B' : Block} (hB' : B' ∈ (F.alwaysCallbackTable id cut table).blocks)
    {I' : Instr} (hI' : I' ∈ B'.body.dropLast) : I'.op.targets = [] := by
  rcases mem_table_blocks hB' with ⟨B, hB, rfl⟩ | rfl
  · exact map_branches_last (h.branches_last B (mem_blocks_of_around hF hB)) I' hI'
  · rw [tableBlock, List.append_cons, List.append_cons] at hI'
    rcases mem_dropLast_append hI' with hI' | hI'
    · rw [List.mem_append, List.mem_append, List.mem_singleton, List.mem_singleton] at hI'
      rcases hI' with (hI' | rfl) | rfl
      · obtain ⟨I, hI, rfl⟩ := List.mem_map.mp hI'
        exact (targets_map (tableUses F id cut) (fun l => l) I.op).trans (pre_targets h hF hI)
      · rfl
      · rfl
    · rw [← List.map_dropLast] at hI'
      obtain ⟨I, hI, rfl⟩ := List.mem_map.mp hI'
      exact (targets_map (tableUses F id cut) (fun l => l) I.op).trans (post_targets h hF hI)

theorem alwaysCallbackTable_proper : (F.alwaysCallbackTable id cut table).Proper where
  labels_nodup := by
    rw [table_labels hF]
    exact h.labels_nodup
  labels_lt B' hB' := by
    have hmem : B'.label ∈ F.blocks.map Block.label := by
      rw [← table_labels hF]
      exact List.mem_map_of_mem hB'
    obtain ⟨B, hB, heq⟩ := List.mem_map.mp hmem
    rw [← heq]
    exact Nat.lt_add_right 2 (h.labels_lt B hB)
  ids_nodup := by
    refine nodup_of_perm h hF table_ids (by simp) fun i hi => .inr ?_
    simp only [List.mem_cons, List.not_mem_nil, or_false] at hi
    omega
  ids_lt I' hI' := by
    change I'.id < F.next + 2
    rcases List.mem_append.mp (table_ids.mem_iff.mp (List.mem_map_of_mem hI')) with hi | hi
    · simp only [List.mem_cons, List.not_mem_nil, or_false] at hi
      omega
    · exact Nat.lt_add_right 2 (others_lt h hF hi)
  operands_lt I' hI' k hk := by
    rcases table_operands hF hI' hk with ⟨I, hI, hk⟩ | ⟨rfl, -⟩
    · exact Nat.lt_add_right 2 (h.operands_lt I hI k hk)
    · exact Nat.lt_succ_self _
  incoming_lt I' hI' incoming hop p hp := by
    rcases mem_table_ops hF hI' with rfl | rfl | ⟨I, hI, rfl⟩
    · cases hop
    · cases hop
    · obtain ⟨i, op⟩ := I
      cases op with
      | phi inc =>
        cases hop
        obtain ⟨p', hp', rfl⟩ := List.mem_map.mp hp
        exact Nat.lt_add_right 2 (h.incoming_lt _ hI inc rfl p' hp')
      | _ => simp only [Instr.map, Op.map, reduceCtorEq] at hop
  void_unused _ _ hcall hvoid _ hI' := table_void_unused h hF hcall hvoid hI'
  phis_first _ hB' _ hI' := table_phis_first h hF hB' hI'
  branches_last _ hB' _ hI' := table_branches_last h hF hB' hI'

end Table

section Cut

variable {F F' : Func} {id : Nat} {cut : Cut} {f : Value → Value} {g : Label → Label}

-- A piece of a block without the call lies on one side of it.
theorem hasLine_of_cut (hF : F.blocks = cut.blocks id) {is : List Instr} (h : F.HasLine is)
    (hid : id ∉ callIds is) :
    (∃ B, (B ∈ cut.before ∨ B ∈ cut.after) ∧ is <:+: B.body) ∨ is <:+: cut.pre ∨ is <:+: cut.post := by
  obtain ⟨B, hB, hsub⟩ := h
  rcases (mem_blocks_cut hF).mp hB with hB | rfl | hB
  · exact .inl ⟨B, .inl hB, hsub⟩
  · refine .inr (infix_of_not_mem hsub fun hmem => hid ?_)
    exact mem_callIds.mpr ⟨_, hmem, rfl⟩
  · exact .inl ⟨B, .inr hB, hsub⟩

theorem keepsLines_of_cut (hF : F.blocks = cut.blocks id)
    (haround : ∀ B, B ∈ cut.before ∨ B ∈ cut.after → B.map f g ∈ F'.blocks)
    (hpre : F'.HasLine (cut.pre.map (Instr.map f g)))
    (hpost : F'.HasLine (cut.post.map (Instr.map f g)))
    (hhead : F'.blocks.head?.map Block.label = F.blocks.head?.map Block.label)
    (huses : ∀ j, f (.reg id) = .reg j → j = id ∨ F.next ≤ j) :
    KeepsLines F F' id f g := by
  refine ⟨fun is his hid => ?_, hhead, huses⟩
  rcases hasLine_of_cut hF his hid with ⟨B, hB, hsub⟩ | hsub | hsub
  · exact ⟨_, haround B hB, hsub.map _⟩
  · obtain ⟨B, hB, hB'⟩ := hpre
    exact ⟨B, hB, (hsub.map _).trans hB'⟩
  · obtain ⟨B, hB, hB'⟩ := hpost
    exact ⟨B, hB, (hsub.map _).trans hB'⟩

theorem head_label {before after mids : List Block} {l : Label} {body body' : List Instr}
    (hF : F.blocks = before ++ ⟨l, body⟩ :: after)
    (hF' : F'.blocks = before.map (Block.map f g) ++ ⟨l, body'⟩ :: mids) :
    F'.blocks.head?.map Block.label = F.blocks.head?.map Block.label := by
  rw [hF, hF']
  cases before with
  | nil => rfl
  | cons B before => rfl

variable {lo : Nat} {todo skipped : List Nat}

theorem Lined.instrumentNormalCase (hlined : Lined lo F (id :: todo) skipped)
    (hinv : Pending lo F (id :: todo) skipped) (hF : F.blocks = cut.blocks id) :
    Lined lo (F.instrumentNormalCase id cut) todo skipped := by
  have hblocks : (F.instrumentNormalCase id cut).blocks =
      cut.before ++ maskedBlock F id cut :: cut.after := normalCase_blocks
  have hmid : maskedBlock F id cut ∈ (F.instrumentNormalCase id cut).blocks := by
    rw [hblocks]
    exact List.mem_append_right _ List.mem_cons_self
  have hkeeps : KeepsLines F (F.instrumentNormalCase id cut) id (fun v => v) fun l => l := by
    refine keepsLines_of_cut hF (fun B hB => ?_) ⟨_, hmid, ?_⟩ ⟨_, hmid, ?_⟩ ?_ ?_
    · rw [Block.map_id, hblocks, List.mem_append, List.mem_cons]
      exact hB.imp_right .inr
    · rw [List.map_id'' Instr.map_id]
      exact (List.prefix_append _ _).isInfix
    · rw [List.map_id'' Instr.map_id]
      exact ⟨cut.pre ++ masking F.next cut.call.callee ++ [maskedCall F id cut], [], by
        simp [maskedBlock, maskedCode]⟩
    · have hsame : cut.before.map (Block.map (fun v => v) fun l => l) = cut.before :=
        List.map_id'' Block.map_id _
      rw [← hsame] at hblocks
      exact head_label hF hblocks
    · intro j hj
      cases hj
      exact .inl rfl
  refine hlined.rewrites hinv (normalCase_rewrites hF hinv.nodup) hkeeps
    (normalCase_proper hlined.proper hF) ?_
  rintro B i c (hI | heq) -
  · simp [masking] at hI
  · cases heq
    refine .masked F.next cut.call.callee hinv.lo_le rfl ⟨_, hmid, cut.pre, cut.post, ?_⟩
    simp [maskedBlock, maskedCode, maskedCall]

theorem Lined.alwaysCallbackTable (hlined : Lined lo F (id :: todo) skipped)
    (hinv : Pending lo F (id :: todo) skipped) (hF : F.blocks = cut.blocks id) (table : Table) :
    Lined lo (F.alwaysCallbackTable id cut table) todo skipped := by
  have hblocks := alwaysCallbackTable_blocks F id cut table
  have hmid : tableBlock F id cut table ∈ (F.alwaysCallbackTable id cut table).blocks := by
    rw [hblocks]
    exact List.mem_append_right _ List.mem_cons_self
  have hkeeps : KeepsLines F (F.alwaysCallbackTable id cut table) id (tableUses F id cut)
      fun l => l := by
    refine keepsLines_of_cut hF (fun B hB => ?_) ⟨_, hmid, ?_⟩ ⟨_, hmid, ?_⟩ ?_ ?_
    · rw [hblocks, List.mem_append, List.mem_cons]
      exact hB.imp List.mem_map_of_mem fun h => .inr (List.mem_map_of_mem h)
    · exact (List.prefix_append _ _).isInfix
    · exact ⟨cut.pre.map (Instr.map (tableUses F id cut) fun l => l) ++
        [tableMov F id cut, tableInstr F id cut table], [], by simp [tableBlock]⟩
    · exact head_label hF hblocks
    · intro j hj
      rcases usesOf_eq_reg hj with heq | ⟨rfl, -⟩
      · exact .inl (Value.reg.inj heq).symm
      · exact .inr (Nat.le_succ _)
  refine hlined.rewrites hinv (alwaysCallbackTable_rewrites F id cut table hF hinv.nodup) hkeeps
    (alwaysCallbackTable_proper hlined.proper hF) ?_
  rintro B i c (heq | heq) hc
  · simp [tableMov] at heq
  · rw [tableCall_not_isIndirect (congrArg Instr.op heq)] at hc
    cases hc

-- The target of the split call is a register from before, or the phi.
theorem splitCallee_reg (hproper : F.Proper) (hF : F.blocks = cut.blocks id) {j : Nat}
    (hj : (splitCallee F id cut).callee = .reg j) : j < F.next ∨ j = F.next + 9 := by
  change splitUses F id cut cut.call.callee = .reg j at hj
  rcases usesOf_eq_reg hj with hv | ⟨hphi, -⟩
  · refine .inl (hproper.operands_lt _ (call_mem hF) j ?_)
    rw [Op.operands, hv]
    exact List.mem_cons_self
  · exact .inr hphi

theorem splitCall_inLine (hproper : F.Proper)
    (hinv : Pending lo F (id :: todo) skipped) (hF : F.blocks = cut.blocks id) :
    InLine (F.splitCall id cut) lo (F.next + 7) (splitCallee F id cut) := by
  have hlo (j : Nat) : lo ≤ F.next + j := hinv.lo_le.trans (Nat.le_add_right ..)
  refine .guarded F.next (F.next + 4) (F.next + 5) (F.next + 6) (F.next + 10)
    ⟨hinv.lo_le, hlo 7, hlo 4⟩ (Nat.add_le_add_left (by decide) _) ?_ ?_ ?_ (by omega) ?_
  · intro j hj
    have := splitCallee_reg hproper hF hj
    omega
  · exact mem_splitCall_blocks.mpr (.inr (.inr (.inr (.inl rfl))))
  · refine ⟨origBlock F id cut, mem_splitCall_blocks.mpr (.inr (.inl rfl)), ?_⟩
    exact (List.suffix_append _ _).isInfix
  · intro I hI hl
    rcases (splitCall_rewrites hF hinv.nodup).mem_ops_inv hI with ⟨B, hnew⟩ | ⟨J, hJ, rfl⟩
    · rcases hnew with hI | hI | ⟨-, hI⟩ | ⟨-, hI⟩
      · simp only [splitChecks, checking, List.mem_cons, List.not_mem_nil, or_false] at hI
        rcases hI with rfl | rfl | rfl | rfl
        · cases hl
        · cases hl
        · cases hl
        · rfl
      · rw [targets_mergedCall hI] at hl
        cases hl
      · have hne : (F.next + 4 : Nat) = F.next + 6 := targets_callBlock F id cut hI hl
        omega
      · have hne : (F.next + 4 : Nat) = F.next + 6 := targets_skipBlock F id cut hI hl
        omega
    · rw [Instr.map, targets_map] at hl
      exact absurd (hinv.targets J hJ _ hl) (Nat.not_lt.mpr (Nat.le_add_right _ 4))

theorem Lined.splitCall (hlined : Lined lo F (id :: todo) skipped)
    (hinv : Pending lo F (id :: todo) skipped) (hF : F.blocks = cut.blocks id) :
    Lined lo (F.splitCall id cut) todo skipped := by
  have hkeeps : KeepsLines F (F.splitCall id cut) id (splitUses F id cut)
      (cut.relabel (fresh F.next)) := by
    refine keepsLines_of_cut hF (fun B hB => ?_)
      ⟨origBlock F id cut, mem_splitCall_blocks.mpr (.inr (.inl rfl)), ?_⟩
      ⟨afterBlock F id cut, mem_splitCall_blocks.mpr (.inr (.inr (.inl rfl))), ?_⟩ ?_ ?_
    · exact mem_splitCall_blocks.mpr (.inl ⟨B, hB, rfl⟩)
    · exact (List.prefix_append _ _).isInfix
    · exact (List.suffix_append _ _).isInfix
    · have hblocks := splitCall_blocks F id cut
      rw [List.append_assoc] at hblocks
      exact head_label hF hblocks
    · intro j hj
      rcases usesOf_eq_reg hj with heq | ⟨rfl, -⟩
      · exact .inl (Value.reg.inj heq).symm
      · exact .inr (Nat.le_add_right _ 9)
  refine hlined.rewrites hinv (splitCall_rewrites hF hinv.nodup) hkeeps
    (splitCall_proper hlined.proper hF) ?_
  intro B i c hnew hind
  rcases splitNew_call hnew with ⟨rfl, rfl⟩ | ⟨-, rfl⟩
  · exact splitCall_inLine hlined.proper hinv hF
  · cases hind

theorem Lined.start (h : F.Proper) : Lined F.next F F.candidates [] where
  proper := h
  head B hB := h.labels_lt B (List.mem_of_head? hB)
  calls _ c hI hc := .inl (mem_candidates.mpr ⟨c, hI, c.isCandidate_of_isIndirect hc⟩)

end Cut

namespace Analysis

variable (A : Analysis)

theorem rewriteCandidate_lined {lo id : Nat} {todo : List Nat} {st st' : RunState}
    (hlined : Lined lo st.func (id :: todo) st.skipped)
    (hinv : Pending lo st.func (id :: todo) st.skipped) (h : A.rewriteCandidate st id = some st') :
    Lined lo st'.func todo st'.skipped := by
  rcases A.candidateRound h with ⟨hcut, rfl⟩ | ⟨cut, hcut, hround⟩
  · exact hlined.tail (fun _ hi => hi) fun hmem => absurd hmem (cutBlocks_none hcut)
  · have hblocks := cutBlocks_some hcut
    cases hround with
    | table table => exact hlined.alwaysCallbackTable hinv hblocks table
    | skipped => exact hlined.tail (List.subset_cons_self ..) fun _ => List.mem_cons_self
    | split => exact hlined.splitCall hinv hblocks
    | normal => exact hlined.instrumentNormalCase hinv hblocks

theorem runFunction_lined {F : Func} {st : RunState} (hproper : F.Proper)
    (hnumbered : F.Numbered) (hexempt : F.name ∉ exempt) (h : A.runFunction F = some st) :
    Lined F.next st.func [] st.skipped := by
  refine (State.trace_todo (fun st todo => Lined F.next st.func todo st.skipped ∧
    Pending F.next st.func todo st.skipped) ?_ ⟨.start hproper, .start hnumbered⟩
    (A.runFunction_trace hexempt h)).1
  rintro s id todo s' ⟨hlined, hinv⟩ hround
  exact ⟨A.rewriteCandidate_lined hlined hinv hround, A.rewriteCandidate_pending hinv hround⟩

end Analysis

end Platypus.Pass.BitMasks
