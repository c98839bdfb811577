import Platypus.Pass.BitMasks
import Platypus.State.Trace

-- Which indirect calls the pass `BitMasks` leaves without masks.

namespace Platypus.Pass.BitMasks

def callId (I : Instr) : Option Nat :=
  match I.op with
  | .call _ => some I.id
  | _ => none

-- The numbers of the calls among the instructions.
def callIds (is : List Instr) : List Nat := is.filterMap callId

def IsCall (id : Nat) (I : Instr) : Prop := callId I = some id

@[simp]
theorem callIds_append (is js : List Instr) : callIds (is ++ js) = callIds is ++ callIds js :=
  List.filterMap_append

@[simp]
theorem callIds_cons_call (id : Nat) (c : CallBase) (is : List Instr) :
    callIds (⟨id, .call c⟩ :: is) = id :: callIds is := rfl

theorem mem_callIds {id : Nat} {is : List Instr} :
    id ∈ callIds is ↔ ∃ I ∈ is, IsCall id I := List.mem_filterMap

theorem callId_map (f : Value → Value) (g : Label → Label) (I : Instr) :
    callId (I.map f g) = callId I := by
  obtain ⟨id, op⟩ := I
  cases op <;> rfl

@[simp]
theorem callIds_map (f : Value → Value) (g : Label → Label) (is : List Instr) :
    callIds (is.map (Instr.map f g)) = callIds is := by
  rw [callIds, List.filterMap_map]
  exact List.filterMap_congr fun I _ => callId_map f g I

theorem targets_map (f : Value → Value) (g : Label → Label) (op : Op) :
    (op.map f g).targets = op.targets := by
  cases op <;> rfl

def opsOf (Bs : List Block) : List Instr := Bs.flatMap Block.body

@[simp]
theorem opsOf_append (Bs Cs : List Block) : opsOf (Bs ++ Cs) = opsOf Bs ++ opsOf Cs :=
  List.flatMap_append

@[simp]
theorem opsOf_cons (B : Block) (Bs : List Block) : opsOf (B :: Bs) = B.body ++ opsOf Bs := rfl

@[simp]
theorem opsOf_map (f : Value → Value) (g : Label → Label) (Bs : List Block) :
    opsOf (Bs.map (Block.map f g)) = (opsOf Bs).map (Instr.map f g) := by
  induction Bs with
  | nil => rfl
  | cons B Bs ih => rw [List.map_cons, opsOf_cons, ih, opsOf_cons, List.map_append, Block.map]

-- Where the cut is.

theorem cutBody_some {id : Nat} {is pre post : List Instr} {c : CallBase}
    (h : cutBody id is = some (pre, c, post)) : is = pre ++ ⟨id, .call c⟩ :: post := by
  induction is generalizing pre with
  | nil => cases h
  | cons I rest ih =>
    have later : ∀ {pre'}, (cutBody id rest).map (fun cut => (I :: cut.1, cut.2)) =
        some (pre', c, post) → I :: rest = pre' ++ ⟨id, .call c⟩ :: post := by
      intro pre' h'
      obtain ⟨⟨p, d, q⟩, hcut, heq⟩ := Option.map_eq_some_iff.mp h'
      cases heq
      rw [ih hcut, List.cons_append]
    obtain ⟨i, op⟩ := I
    cases op with
    | call d =>
      rw [cutBody] at h
      dsimp only at h
      by_cases hid : i = id
      · rw [if_pos hid] at h
        cases h
        rw [hid, List.nil_append]
      · rw [if_neg hid] at h
        exact later h
    | _ => exact later h

theorem cutBody_none {id : Nat} {is : List Instr} (h : cutBody id is = none) : id ∉ callIds is := by
  induction is with
  | nil => simp [callIds]
  | cons I rest ih =>
    have later : (cutBody id rest).map (fun cut => (I :: cut.1, cut.2)) = none →
        id ∉ callIds rest := fun h' => ih (Option.map_eq_none_iff.mp h')
    obtain ⟨i, op⟩ := I
    cases op with
    | call d =>
      rw [cutBody] at h
      dsimp only at h
      by_cases hid : i = id
      · rw [if_pos hid] at h
        cases h
      · rw [if_neg hid] at h
        rw [callIds_cons_call, List.mem_cons, not_or]
        exact ⟨Ne.symm hid, later h⟩
    | _ => exact later h

def Cut.blocks (cut : Cut) (id : Nat) : List Block :=
  cut.before ++ ⟨cut.label, cut.pre ++ ⟨id, .call cut.call⟩ :: cut.post⟩ :: cut.after

theorem cutBlocks_some {id : Nat} {Bs : List Block} {cut : Cut} (h : cutBlocks id Bs = some cut) :
    Bs = cut.blocks id := by
  induction Bs generalizing cut with
  | nil => cases h
  | cons B rest ih =>
    rw [cutBlocks] at h
    cases hbody : cutBody id B.body with
    | some p =>
      obtain ⟨pre, c, post⟩ := p
      rw [hbody] at h
      cases h
      obtain ⟨label, body⟩ := B
      have heq : body = pre ++ ⟨id, .call c⟩ :: post := cutBody_some hbody
      rw [heq]
      rfl
    | none =>
      rw [hbody] at h
      obtain ⟨d, hd, rfl⟩ := Option.map_eq_some_iff.mp h
      rw [ih hd]
      rfl

theorem cutBlocks_none {id : Nat} {Bs : List Block} (h : cutBlocks id Bs = none) :
    id ∉ callIds (opsOf Bs) := by
  induction Bs with
  | nil => simp [opsOf, callIds]
  | cons B rest ih =>
    rw [cutBlocks] at h
    cases hbody : cutBody id B.body with
    | some p =>
      rw [hbody] at h
      cases h
    | none =>
      rw [hbody] at h
      rw [opsOf_cons, callIds_append, List.mem_append, not_or]
      exact ⟨cutBody_none hbody, ih (Option.map_eq_none_iff.mp h)⟩

-- The instructions that put the masks on a target.
def Masked (F : Func) (lo : Nat) (v : Value) : Prop :=
  ∃ k x, lo ≤ k ∧ v = .reg (k + 3) ∧ masking k x ⊆ F.ops

-- The block of a call is entered only when the masks do not change the target; otherwise the
-- dispatcher is called with the same arguments.
structure Guarded (F : Func) (lo : Nat) (B : Block) (c : CallBase) (k : Nat) (skip : Block) : Prop where
  lo_le : lo ≤ k
  body : ∃ i b join, lo ≤ i ∧ B.body = [⟨i, .call c⟩, ⟨b, .br join⟩]
  skip_mem : skip ∈ F.blocks
  skip_body : ∃ i b join, lo ≤ i ∧ skip.body =
    [⟨i, tableCall (c.withType c.argsType) .callback⟩, ⟨b, .br join⟩]
  checked : checking k c.callee B.label skip.label ⊆ F.ops
  entered : ∀ I ∈ F.ops, B.label ∈ I.op.targets → I.op = .condBr (.reg (k + 2)) B.label skip.label

def Covered (F : Func) (lo : Nat) (B : Block) (c : CallBase) : Prop :=
  Masked F lo c.callee ∨ ∃ k skip, Guarded F lo B c k skip

-- What a rewrite of the call `id` does: `New` are the instructions it adds to a block, and `f` and
-- `g` say how the operands of the others change.
structure Rewrites (F F' : Func) (id : Nat) (New : Block → Instr → Prop) (f : Value → Value)
    (g : Label → Label) : Prop where
  reg : ∀ k, k ≠ id → f (.reg k) = .reg k
  fixed : ∀ v, (∀ k, v ≠ .reg k) → f v = v
  next_le : F.next ≤ F'.next
  targets : ∀ B I, New B I → ∀ l ∈ I.op.targets, F.next ≤ l ∧ l < F'.next
  keepsBlock : ∀ B ∈ F.blocks, id ∉ callIds B.body → B.map f g ∈ F'.blocks
  keepsOp : ∀ I ∈ F.ops, ¬ IsCall id I → I.map f g ∈ F'.ops
  inv : ∀ B' ∈ F'.blocks, (∃ B ∈ F.blocks, B' = B.map f g ∧ id ∉ callIds B.body) ∨
    ∀ I' ∈ B'.body, New B' I' ∨
      ∃ B ∈ F.blocks, id ∈ callIds B.body ∧ ∃ I ∈ B.body, ¬ IsCall id I ∧ I' = I.map f g

theorem mem_ops {F : Func} {I : Instr} : I ∈ F.ops ↔ ∃ B ∈ F.blocks, I ∈ B.body :=
  List.mem_flatMap

namespace Rewrites

variable {F F' : Func} {id lo : Nat} {New : Block → Instr → Prop} {f : Value → Value}
  {g : Label → Label}

theorem mem_ops_inv (h : Rewrites F F' id New f g) {I' : Instr} (hI : I' ∈ F'.ops) :
    (∃ B, New B I') ∨ ∃ I ∈ F.ops, I' = I.map f g := by
  obtain ⟨B', hB', hI'⟩ := mem_ops.mp hI
  rcases h.inv B' hB' with ⟨B, hB, rfl, -⟩ | hall
  · obtain ⟨I, hIB, rfl⟩ := List.mem_map.mp hI'
    exact .inr ⟨I, mem_ops.mpr ⟨B, hB, hIB⟩, rfl⟩
  · rcases hall I' hI' with hnew | ⟨B, hB, -, I, hIB, -, rfl⟩
    · exact .inl ⟨B', hnew⟩
    · exact .inr ⟨I, mem_ops.mpr ⟨B, hB, hIB⟩, rfl⟩

-- The instructions of a sequence without calls stay, with other operands.
theorem map_subset (h : Rewrites F F' id New f g) {is : List Instr} (hcalls : callIds is = [])
    (his : is ⊆ F.ops) : is.map (Instr.map f g) ⊆ F'.ops := by
  intro I' hI'
  obtain ⟨I, hI, rfl⟩ := List.mem_map.mp hI'
  refine h.keepsOp I (his hI) fun hcall => ?_
  have hmem : id ∈ callIds is := mem_callIds.mpr ⟨I, hI, hcall⟩
  rw [hcalls] at hmem
  cases hmem

theorem map_masking (h : Rewrites F F' id New f g) (hid : id < lo) {k : Nat} (hk : lo ≤ k)
    (x : Value) : (masking k x).map (Instr.map f g) = masking k (f x) := by
  have h0 := h.reg k (by omega)
  have h1 := h.reg (k + 1) (by omega)
  have h2 := h.reg (k + 2) (by omega)
  have hor : f orMask = orMask := h.fixed orMask (by simp [orMask])
  have hand : f andMask = andMask := h.fixed andMask (by simp [andMask])
  simp [masking, Instr.map, Op.map, h0, h1, h2, hor, hand]

theorem masked (h : Rewrites F F' id New f g) (hid : id < lo) {v : Value} (hv : Masked F lo v) :
    Masked F' lo (f v) := by
  obtain ⟨k, x, hk, rfl, hops⟩ := hv
  refine ⟨k, f x, hk, h.reg (k + 3) (by omega), ?_⟩
  rw [← h.map_masking hid hk]
  exact h.map_subset rfl hops

theorem map_checking (h : Rewrites F F' id New f g) (hid : id < lo) {k : Nat} (hk : lo ≤ k)
    (x : Value) (l l' : Label) :
    (checking k x l l').map (Instr.map f g) = checking k (f x) l l' := by
  have h1 := h.reg (k + 1) (by omega)
  have h2 := h.reg (k + 2) (by omega)
  simp [checking, Instr.map, Op.map, h1, h2]

theorem map_tableCall (h : Rewrites F F' id New f g) (c : CallBase) (table : Table) :
    (tableCall c table).map f g = tableCall (c.map f) table := by
  have hname := h.fixed (.function table.name) (by simp)
  simp [tableCall, CallBase.withType, Op.map, CallBase.map, hname]

theorem guarded (h : Rewrites F F' id New f g) (hid : id < lo)
    (htargets : ∀ I ∈ F.ops, ∀ l ∈ I.op.targets, l < F.next) {B skip : Block} {c : CallBase}
    {k : Nat} (hG : Guarded F lo B c k skip) :
    Guarded F' lo (B.map f g) (c.map f) k (skip.map f g) := by
  obtain ⟨hk, ⟨i, b, join, hi, hbody⟩, hskip, ⟨i', b', join', hi', hskipBody⟩, hchecked, hentered⟩ :=
    hG
  have hbranch : (⟨k + 3, .condBr (.reg (k + 2)) B.label skip.label⟩ : Instr) ∈ F.ops :=
    hchecked (by simp [checking])
  have hlabel : B.label < F.next := htargets _ hbranch B.label (by simp [Op.targets])
  refine ⟨hk, ⟨i, b, join, hi, ?_⟩, ?_, ⟨i', b', join', hi', ?_⟩, ?_, ?_⟩
  · simp [Block.map, hbody, Instr.map, Op.map]
  · refine h.keepsBlock skip hskip ?_
    rw [hskipBody]
    simp only [callIds, List.filterMap_cons, callId, tableCall, List.filterMap_nil,
      List.mem_singleton]
    omega
  · simp only [Block.map, hskipBody, List.map_cons, List.map_nil, Instr.map, h.map_tableCall]
    rfl
  · have hmap := h.map_subset rfl hchecked
    rw [h.map_checking hid hk] at hmap
    exact hmap
  · intro I' hI' hl
    rcases h.mem_ops_inv hI' with ⟨B', hnew⟩ | ⟨I, hI, rfl⟩
    · have := (h.targets B' I' hnew _ hl).1
      exact absurd hlabel (Nat.not_lt.mpr this)
    · rw [Instr.map, targets_map] at hl
      have hop := hentered I hI hl
      rw [Instr.map, hop]
      exact congrArg (Op.condBr · B.label skip.label) (h.reg (k + 2) (by omega))

theorem covered (h : Rewrites F F' id New f g) (hid : id < lo)
    (htargets : ∀ I ∈ F.ops, ∀ l ∈ I.op.targets, l < F.next) {B : Block} {c : CallBase}
    (hc : Covered F lo B c) : Covered F' lo (B.map f g) (c.map f) := by
  rcases hc with hm | ⟨k, skip, hG⟩
  · exact .inl (h.masked hid hm)
  · exact .inr ⟨k, skip.map f g, h.guarded hid htargets hG⟩

theorem isIndirect_of_map (h : Rewrites F F' id New f g) {c : CallBase}
    (hc : (c.map f).isIndirect) : c.isIndirect := by
  obtain ⟨callee, args, m, v⟩ := c
  cases callee with
  | function name => rw [CallBase.map, CallBase.isIndirect, h.fixed _ (by simp)] at hc; exact hc
  | inlineAsm => rw [CallBase.map, CallBase.isIndirect, h.fixed _ (by simp)] at hc; exact hc
  | _ => rfl

end Rewrites

-- The block of a guarded call has no other call.
theorem Guarded.not_mem_callIds {F : Func} {lo k id : Nat} {B skip : Block} {c : CallBase}
    (h : Guarded F lo B c k skip) (hid : id < lo) : id ∉ callIds B.body := by
  obtain ⟨i, b, join, hi, hbody⟩ := h.body
  rw [hbody]
  simp only [callIds, List.filterMap_cons, callId, List.filterMap_nil, List.mem_singleton]
  omega

-- What holds between two candidates: the calls still to do, and those that were skipped, are the
-- only ones without masks.
structure Pending (lo : Nat) (F : Func) (todo skipped : List Nat) : Prop where
  lo_le : lo ≤ F.next
  targets : ∀ I ∈ F.ops, ∀ l ∈ I.op.targets, l < F.next
  nodup : (callIds F.ops).Nodup
  ids : ∀ i ∈ callIds F.ops, i < F.next
  todo_lt : ∀ i ∈ todo, i < lo
  covered : ∀ B ∈ F.blocks, ∀ i c, (⟨i, .call c⟩ : Instr) ∈ B.body → c.isIndirect →
    i ∈ todo ∨ i ∈ skipped ∨ Covered F lo B c

-- An instruction that is a call after a change of operands was the same call before.
theorem Instr.eq_call_of_map {f : Value → Value} {g : Label → Label} {I : Instr} {i : Nat}
    {c' : CallBase} (h : ⟨i, .call c'⟩ = I.map f g) : ∃ c, I = ⟨i, .call c⟩ ∧ c' = c.map f := by
  obtain ⟨j, op⟩ := I
  cases op with
  | call c =>
    cases h
    exact ⟨c, rfl, rfl⟩
  | _ => cases h

-- What is left of the alternatives for a call that is not the next one.
theorem Pending.covered_of_ne {lo id : Nat} {F : Func} {todo skipped : List Nat}
    (hinv : Pending lo F (id :: todo) skipped) {B : Block} (hB : B ∈ F.blocks) {i : Nat}
    {c : CallBase} (hI : (⟨i, .call c⟩ : Instr) ∈ B.body) (hc : c.isIndirect) (hne : i ≠ id) :
    i ∈ todo ∨ i ∈ skipped ∨ Covered F lo B c := by
  rcases hinv.covered B hB i c hI hc with htodo | hrest
  · exact .inl (List.mem_of_ne_of_mem hne htodo)
  · exact .inr hrest

theorem Pending.rewrites {lo id : Nat} {F F' : Func} {todo skipped : List Nat}
    {New : Block → Instr → Prop} {f : Value → Value} {g : Label → Label}
    (hinv : Pending lo F (id :: todo) skipped) (h : Rewrites F F' id New f g)
    (hnodup : (callIds F'.ops).Nodup) (hids : ∀ i ∈ callIds F'.ops, i < F'.next)
    (hnew : ∀ B i c, B ∈ F'.blocks → New B ⟨i, .call c⟩ → c.isIndirect → Covered F' lo B c) :
    Pending lo F' todo skipped := by
  have hid : id < lo := hinv.todo_lt id (List.mem_cons_self ..)
  refine ⟨hinv.lo_le.trans h.next_le, ?_, hnodup, hids,
    fun i hi => hinv.todo_lt i (List.mem_cons_of_mem _ hi), ?_⟩
  · intro I' hI' l hl
    rcases h.mem_ops_inv hI' with ⟨B, hB⟩ | ⟨I, hI, rfl⟩
    · exact (h.targets B I' hB l hl).2
    · rw [Instr.map, targets_map] at hl
      exact (hinv.targets I hI l hl).trans_le h.next_le
  · intro B' hB' i c' hmem hc'
    rcases h.inv B' hB' with ⟨B, hB, rfl, hnot⟩ | hall
    · obtain ⟨I, hI, heq⟩ := List.mem_map.mp hmem
      obtain ⟨c, rfl, rfl⟩ := Instr.eq_call_of_map heq.symm
      have hne : i ≠ id := by
        rintro rfl
        exact hnot (mem_callIds.mpr ⟨_, hI, rfl⟩)
      rcases hinv.covered_of_ne hB hI (h.isIndirect_of_map hc') hne with htodo | hskip | hcov
      · exact .inl htodo
      · exact .inr (.inl hskip)
      · exact .inr (.inr (h.covered hid hinv.targets hcov))
    · rcases hall _ hmem with hn | ⟨B, hB, hmemid, I, hI, hnot, heq⟩
      · exact .inr (.inr (hnew B' i c' hB' hn hc'))
      · obtain ⟨c, rfl, rfl⟩ := Instr.eq_call_of_map heq
        have hne : i ≠ id := by
          rintro rfl
          exact hnot rfl
        rcases hinv.covered_of_ne hB hI (h.isIndirect_of_map hc') hne with htodo | hskip | hcov
        · exact .inl htodo
        · exact .inr (.inl hskip)
        · rcases hcov with hm | ⟨k, skip, hG⟩
          · exact .inr (.inr (.inl (h.masked hid hm)))
          · exact absurd hmemid (hG.not_mem_callIds hid)

-- A candidate is done when it is skipped, or is no call of the function.
theorem Pending.tail {lo id : Nat} {F : Func} {todo skipped skipped' : List Nat}
    (hinv : Pending lo F (id :: todo) skipped) (hsub : skipped ⊆ skipped')
    (hid : id ∈ callIds F.ops → id ∈ skipped') : Pending lo F todo skipped' := by
  refine ⟨hinv.lo_le, hinv.targets, hinv.nodup, hinv.ids,
    fun i hi => hinv.todo_lt i (List.mem_cons_of_mem _ hi), fun B hB i c hI hc => ?_⟩
  rcases hinv.covered B hB i c hI hc with htodo | hskip | hcov
  · rcases List.mem_cons.mp htodo with rfl | htodo
    · exact .inr (.inl (hid (mem_callIds.mpr ⟨_, mem_ops.mpr ⟨B, hB, hI⟩, rfl⟩)))
    · exact .inl htodo
  · exact .inr (.inl (hsub hskip))
  · exact .inr (.inr hcov)

-- The numbers of the calls other than the one at the cut.
def Cut.otherIds (cut : Cut) : List Nat :=
  callIds (opsOf cut.before) ++ callIds cut.pre ++ (callIds cut.post ++ callIds (opsOf cut.after))

theorem callIds_cut {F : Func} {id : Nat} {cut : Cut} (hF : F.blocks = cut.blocks id) :
    (callIds F.ops).Perm (id :: cut.otherIds) := by
  have heq : callIds F.ops = callIds (opsOf cut.before) ++ callIds cut.pre ++
      id :: (callIds cut.post ++ callIds (opsOf cut.after)) := by
    change callIds (opsOf F.blocks) = _
    rw [hF]
    simp [Cut.blocks]
  rw [heq]
  exact List.perm_middle

theorem not_mem_otherIds {F : Func} {id : Nat} {cut : Cut} (hF : F.blocks = cut.blocks id)
    (hnodup : (callIds F.ops).Nodup) : id ∉ cut.otherIds :=
  (List.nodup_cons.mp ((callIds_cut hF).nodup_iff.mp hnodup)).1

def Cut.site (cut : Cut) (id : Nat) : Block :=
  ⟨cut.label, cut.pre ++ ⟨id, .call cut.call⟩ :: cut.post⟩

theorem mem_blocks_cut {F : Func} {id : Nat} {cut : Cut} (hF : F.blocks = cut.blocks id)
    {B : Block} : B ∈ F.blocks ↔ B ∈ cut.before ∨ B = cut.site id ∨ B ∈ cut.after := by
  rw [hF, Cut.blocks, List.mem_append, List.mem_cons]
  rfl

-- The blocks around the cut have no call with its number.
theorem not_mem_callIds_around {id : Nat} {cut : Cut} (h : id ∉ cut.otherIds) {B : Block}
    (hB : B ∈ cut.before ∨ B ∈ cut.after) : id ∉ callIds B.body := by
  simp only [Cut.otherIds, List.mem_append, not_or] at h
  obtain ⟨⟨hbefore, -⟩, -, hafter⟩ := h
  intro hmem
  obtain ⟨I, hI, hcall⟩ := mem_callIds.mp hmem
  rcases hB with hB | hB
  · exact hbefore (mem_callIds.mpr ⟨I, List.mem_flatMap.mpr ⟨B, hB, hI⟩, hcall⟩)
  · exact hafter (mem_callIds.mpr ⟨I, List.mem_flatMap.mpr ⟨B, hB, hI⟩, hcall⟩)

-- A rewrite puts the blocks `mids` in the place of the block of the call.
theorem Rewrites.of_mids {F F' : Func} {id : Nat} {cut : Cut} (mids : List Block)
    {New : Block → Instr → Prop} {f : Value → Value} {g : Label → Label}
    (hF : F.blocks = cut.blocks id) (hnodup : (callIds F.ops).Nodup)
    (hreg : ∀ k, k ≠ id → f (.reg k) = .reg k) (hfixed : ∀ v, (∀ k, v ≠ .reg k) → f v = v)
    (hnext : F.next ≤ F'.next)
    (htargets : ∀ B I, New B I → ∀ l ∈ I.op.targets, F.next ≤ l ∧ l < F'.next)
    (hblocks : ∀ B', B' ∈ F'.blocks ↔ B' ∈ cut.before.map (Block.map f g) ∨ B' ∈ mids ∨
      B' ∈ cut.after.map (Block.map f g))
    (hkeeps : ∀ I, I ∈ cut.pre ∨ I ∈ cut.post → I.map f g ∈ opsOf mids)
    (hmids : ∀ B' ∈ mids, ∀ I' ∈ B'.body, New B' I' ∨
      ∃ I, (I ∈ cut.pre ∨ I ∈ cut.post) ∧ I' = I.map f g) :
    Rewrites F F' id New f g := by
  have hother := not_mem_otherIds hF hnodup
  have hout {B : Block} (hB : B ∈ cut.before ∨ B ∈ cut.after) : id ∉ callIds B.body :=
    not_mem_callIds_around hother hB
  simp only [Cut.otherIds, List.mem_append, not_or] at hother
  obtain ⟨⟨-, hpre⟩, hpost, -⟩ := hother
  have hcutId : id ∈ callIds (cut.site id).body := by simp [Cut.site]
  refine ⟨hreg, hfixed, hnext, htargets, ?_, ?_, ?_⟩
  · intro B hB hnot
    rw [hblocks]
    rcases (mem_blocks_cut hF).mp hB with hB | rfl | hB
    · exact .inl (List.mem_map_of_mem hB)
    · exact absurd hcutId hnot
    · exact .inr (.inr (List.mem_map_of_mem hB))
  · intro I hI hnot
    obtain ⟨B, hB, hIB⟩ := mem_ops.mp hI
    rcases (mem_blocks_cut hF).mp hB with hB | rfl | hB
    · exact mem_ops.mpr ⟨_, (hblocks _).mpr (.inl (List.mem_map_of_mem hB)), List.mem_map_of_mem hIB⟩
    · have hor : I ∈ cut.pre ∨ I ∈ cut.post := by
        rcases List.mem_append.mp hIB with h | h
        · exact .inl h
        · rcases List.mem_cons.mp h with rfl | h
          · exact absurd rfl hnot
          · exact .inr h
      obtain ⟨B', hB', hI'⟩ := List.mem_flatMap.mp (hkeeps I hor)
      exact mem_ops.mpr ⟨B', (hblocks _).mpr (.inr (.inl hB')), hI'⟩
    · exact mem_ops.mpr
        ⟨_, (hblocks _).mpr (.inr (.inr (List.mem_map_of_mem hB))), List.mem_map_of_mem hIB⟩
  · intro B' hB'
    rcases (hblocks B').mp hB' with hB' | hB' | hB'
    · obtain ⟨B, hB, rfl⟩ := List.mem_map.mp hB'
      exact .inl ⟨B, (mem_blocks_cut hF).mpr (.inl hB), rfl, hout (.inl hB)⟩
    · refine .inr fun I' hI' => ?_
      rcases hmids B' hB' I' hI' with hnew | ⟨I, hor, rfl⟩
      · exact .inl hnew
      · refine .inr ⟨_, (mem_blocks_cut hF).mpr (.inr (.inl rfl)), hcutId, I, ?_, ?_, rfl⟩
        · rcases hor with h | h
          · exact List.mem_append_left _ h
          · exact List.mem_append_right _ (List.mem_cons_of_mem _ h)
        · intro hcall
          rcases hor with h | h
          · exact hpre (mem_callIds.mpr ⟨I, h, hcall⟩)
          · exact hpost (mem_callIds.mpr ⟨I, h, hcall⟩)
    · obtain ⟨B, hB, rfl⟩ := List.mem_map.mp hB'
      exact .inl ⟨B, (mem_blocks_cut hF).mpr (.inr (.inr hB)), rfl, hout (.inr hB)⟩

-- The numbers of the calls after a rewrite: those of the new calls and of the others.
theorem Pending.ids_of_perm {lo id : Nat} {F F' : Func} {todo skipped : List Nat} {cut : Cut}
    (hinv : Pending lo F todo skipped) (hF : F.blocks = cut.blocks id) {extra : List Nat}
    (hperm : (callIds F'.ops).Perm (extra ++ cut.otherIds)) (hextra : extra.Nodup)
    (hnext : F.next ≤ F'.next) (hfresh : ∀ i ∈ extra, i = id ∨ F.next ≤ i ∧ i < F'.next) :
    (callIds F'.ops).Nodup ∧ ∀ i ∈ callIds F'.ops, i < F'.next := by
  have hcut := List.nodup_cons.mp ((callIds_cut hF).nodup_iff.mp hinv.nodup)
  have hlt : ∀ i ∈ id :: cut.otherIds, i < F.next := fun i hi =>
    hinv.ids i ((callIds_cut hF).mem_iff.mpr hi)
  constructor
  · rw [hperm.nodup_iff, List.nodup_append]
    refine ⟨hextra, hcut.2, fun i hi j hj heq => ?_⟩
    subst heq
    rcases hfresh i hi with rfl | ⟨hle, -⟩
    · exact hcut.1 hj
    · exact absurd (hlt i (List.mem_cons_of_mem _ hj)) (Nat.not_lt.mpr hle)
  · intro i hi
    rcases List.mem_append.mp (hperm.mem_iff.mp hi) with h | h
    · rcases hfresh i h with rfl | ⟨-, h⟩
      · exact (hlt i (List.mem_cons_self ..)).trans_le hnext
      · exact h
    · exact (hlt i (List.mem_cons_of_mem _ h)).trans_le hnext

-- The change of the operands when all uses of a call are replaced.
def usesOf (c : CallBase) (id : Nat) (v : Value) : Value → Value :=
  if c.isVoid then fun w => w else Value.replace id v

theorem usesOf_reg (c : CallBase) (id : Nat) (v : Value) (k : Nat) (h : k ≠ id) :
    usesOf c id v (.reg k) = .reg k := by
  rw [usesOf]
  split
  · rfl
  · exact if_neg h

-- A result among the new operands was one before, or takes the place of the call's.
theorem usesOf_eq_reg {c : CallBase} {id r k : Nat} {v : Value}
    (h : usesOf c id (.reg r) v = .reg k) : v = .reg k ∨ k = r ∧ c.isVoid = false := by
  rw [usesOf] at h
  split at h
  · exact .inl h
  · rename_i hvoid
    cases v with
    | reg i =>
      rw [Value.replace] at h
      split at h
      · cases h
        exact .inr ⟨rfl, Bool.not_eq_true _ ▸ hvoid⟩
      · exact .inl h
    | _ => exact .inl h

theorem usesOf_fixed (c : CallBase) (id : Nat) (v w : Value) (h : ∀ k, w ≠ .reg k) :
    usesOf c id v w = w := by
  rw [usesOf]
  split
  · rfl
  · cases w with
    | reg k => exact absurd rfl (h k)
    | _ => rfl

theorem Instr.map_id (I : Instr) : I.map (fun v => v) (fun l => l) = I := by
  obtain ⟨i, op⟩ := I
  cases op <;> simp [Instr.map, Op.map, CallBase.map]

theorem Block.map_id (B : Block) : B.map (fun v => v) (fun l => l) = B := by
  obtain ⟨label, body⟩ := B
  rw [Block.map, Block.mk.injEq]
  exact ⟨rfl, List.map_id'' Instr.map_id body⟩

section Normal

variable {F : Func} {id : Nat} {cut : Cut}

-- The call with the masked target.
def maskedCall (F : Func) (id : Nat) (cut : Cut) : Instr :=
  ⟨id, .call { cut.call with callee := .reg (F.next + 3) }⟩

theorem normalCase_rewrites (hF : F.blocks = cut.blocks id) (hnodup : (callIds F.ops).Nodup) :
    Rewrites F (F.instrumentNormalCase id cut) id
      (fun _ I => I ∈ masking F.next cut.call.callee ∨ I = maskedCall F id cut) (fun v => v)
      fun l => l := by
  refine Rewrites.of_mids
    [⟨cut.label, cut.pre ++ masking F.next cut.call.callee ++ maskedCall F id cut :: cut.post⟩] hF
    hnodup (fun _ _ => rfl) (fun _ _ => rfl) (Nat.le_add_right ..) ?_ ?_ ?_ ?_
  · rintro - I (hI | rfl) l hl
    · simp only [masking, List.mem_cons, List.not_mem_nil, or_false] at hI
      rcases hI with rfl | rfl | rfl | rfl <;> cases hl
    · cases hl
  · intro B'
    rw [List.map_id'' Block.map_id, List.map_id'' Block.map_id, List.mem_singleton]
    exact List.mem_append.trans (or_congr_right List.mem_cons)
  · intro I hI
    rw [Instr.map_id]
    simp only [opsOf_cons, List.mem_append, List.mem_cons]
    tauto
  · intro B' hB' I' hI'
    cases List.mem_singleton.mp hB'
    simp only [List.mem_append, List.mem_cons] at hI'
    rcases hI' with (hI' | hI') | hI' | hI'
    · exact .inr ⟨I', .inl hI', (Instr.map_id I').symm⟩
    · exact .inl (.inl hI')
    · exact .inl (.inr hI')
    · exact .inr ⟨I', .inr hI', (Instr.map_id I').symm⟩

theorem callIds_normalCase :
    (callIds (F.instrumentNormalCase id cut).ops).Perm ([id] ++ cut.otherIds) := by
  have heq : callIds (F.instrumentNormalCase id cut).ops =
      callIds (opsOf cut.before) ++ callIds cut.pre ++
        id :: (callIds cut.post ++ callIds (opsOf cut.after)) := by
    change callIds (opsOf (cut.before ++ _ :: cut.after)) = _
    have hnone : callIds (masking F.next cut.call.callee) = [] := rfl
    simp [hnone]
  rw [heq]
  exact List.perm_middle

end Normal

theorem Pending.instrumentNormalCase {lo id : Nat} {F : Func} {todo skipped : List Nat} {cut : Cut}
    (hinv : Pending lo F (id :: todo) skipped) (hF : F.blocks = cut.blocks id) :
    Pending lo (F.instrumentNormalCase id cut) todo skipped := by
  have hmasks : masking F.next cut.call.callee ⊆ (F.instrumentNormalCase id cut).ops := by
    intro I hI
    refine mem_ops.mpr ⟨_, List.mem_append_right _ (List.mem_cons_self ..), ?_⟩
    exact List.mem_append_left _ (List.mem_append_right _ hI)
  obtain ⟨hnodup, hids⟩ := hinv.ids_of_perm hF callIds_normalCase (List.nodup_singleton id)
    (Nat.le_add_right ..) fun i hi => .inl (List.mem_singleton.mp hi)
  refine hinv.rewrites (normalCase_rewrites hF hinv.nodup) hnodup hids ?_
  rintro B i c - (hI | heq) -
  · simp [masking] at hI
  · have hc := Op.call.inj (congrArg Instr.op heq)
    subst hc
    exact .inl ⟨F.next, cut.call.callee, hinv.lo_le, rfl, hmasks⟩

theorem tableCall_not_isIndirect {c d : CallBase} {table : Table} (h : .call d = tableCall c table) :
    d.isIndirect = false := by
  cases h
  rfl

section Table

variable (F : Func) (id : Nat) (cut : Cut) (table : Table)

-- The instructions in the place of a call that goes to a dispatcher.

def tableUses : Value → Value := usesOf cut.call id (.reg (F.next + 1))

def tableMov : Instr := ⟨F.next, .movR11 (tableUses F id cut cut.call.callee)⟩

def tableInstr : Instr := ⟨F.next + 1, tableCall (cut.call.map (tableUses F id cut)) table⟩

def tableBlock : Block :=
  ⟨cut.label, cut.pre.map (Instr.map (tableUses F id cut) fun l => l) ++ tableMov F id cut ::
    tableInstr F id cut table :: cut.post.map (Instr.map (tableUses F id cut) fun l => l)⟩

theorem alwaysCallbackTable_blocks :
    (F.alwaysCallbackTable id cut table).blocks =
      cut.before.map (Block.map (tableUses F id cut) fun l => l) ++ tableBlock F id cut table ::
        cut.after.map (Block.map (tableUses F id cut) fun l => l) := rfl

theorem alwaysCallbackTable_rewrites (hF : F.blocks = cut.blocks id)
    (hnodup : (callIds F.ops).Nodup) :
    Rewrites F (F.alwaysCallbackTable id cut table) id
      (fun _ I => I = tableMov F id cut ∨ I = tableInstr F id cut table) (tableUses F id cut)
      fun l => l := by
  refine Rewrites.of_mids [tableBlock F id cut table] hF hnodup
    (usesOf_reg cut.call id _) (usesOf_fixed cut.call id _) (Nat.le_add_right ..) ?_ ?_ ?_ ?_
  · rintro - I (rfl | rfl) l hl <;> cases hl
  · intro B'
    rw [alwaysCallbackTable_blocks, List.mem_singleton]
    exact List.mem_append.trans (or_congr_right List.mem_cons)
  · intro I hI
    simp only [opsOf_cons, tableBlock, List.mem_append, List.mem_cons]
    rcases hI with hI | hI
    · exact .inl (.inl (List.mem_map_of_mem hI))
    · exact .inl (.inr (.inr (.inr (List.mem_map_of_mem hI))))
  · intro B' hB' I' hI'
    cases List.mem_singleton.mp hB'
    simp only [tableBlock, List.mem_append, List.mem_cons] at hI'
    rcases hI' with hI' | hI' | hI' | hI'
    · obtain ⟨I, hI, rfl⟩ := List.mem_map.mp hI'
      exact .inr ⟨I, .inl hI, rfl⟩
    · exact .inl (.inl hI')
    · exact .inl (.inr hI')
    · obtain ⟨I, hI, rfl⟩ := List.mem_map.mp hI'
      exact .inr ⟨I, .inr hI, rfl⟩

theorem callIds_alwaysCallbackTable :
    (callIds (F.alwaysCallbackTable id cut table).ops).Perm ([F.next + 1] ++ cut.otherIds) := by
  have heq : callIds (F.alwaysCallbackTable id cut table).ops =
      callIds (opsOf cut.before) ++ callIds cut.pre ++
        (F.next + 1) :: (callIds cut.post ++ callIds (opsOf cut.after)) := by
    change callIds (opsOf (F.alwaysCallbackTable id cut table).blocks) = _
    have hnew (is : List Instr) : callIds (tableMov F id cut :: tableInstr F id cut table :: is) =
        (F.next + 1) :: callIds is := rfl
    simp [alwaysCallbackTable_blocks, tableBlock, hnew]
  rw [heq]
  exact List.perm_middle

end Table

theorem Pending.alwaysCallbackTable {lo id : Nat} {F : Func} {todo skipped : List Nat} {cut : Cut}
    (hinv : Pending lo F (id :: todo) skipped) (hF : F.blocks = cut.blocks id) (table : Table) :
    Pending lo (F.alwaysCallbackTable id cut table) todo skipped := by
  obtain ⟨hnodup, hids⟩ := hinv.ids_of_perm hF (callIds_alwaysCallbackTable F id cut table)
    (List.nodup_singleton _) (Nat.le_add_right ..) fun i hi => by
      cases List.mem_singleton.mp hi
      exact .inr ⟨Nat.le_succ _, Nat.lt_succ_self _⟩
  refine hinv.rewrites (alwaysCallbackTable_rewrites F id cut table hF hinv.nodup) hnodup hids ?_
  rintro B i c - (heq | heq) hc
  · simp [tableMov] at heq
  · rw [tableCall_not_isIndirect (congrArg Instr.op heq)] at hc
    cases hc

-- The instructions of a split.

theorem targets_checking {n : Nat} {v : Value} {callBlock skipBlock l : Label} {I : Instr}
    (hI : I ∈ checking n v callBlock skipBlock) (hl : l ∈ I.op.targets) :
    l = callBlock ∧ I.op = .condBr (.reg (n + 2)) callBlock skipBlock ∨ l = skipBlock := by
  simp only [checking, List.mem_cons, List.not_mem_nil, or_false] at hI
  rcases hI with rfl | rfl | rfl | rfl
  · cases hl
  · cases hl
  · cases hl
  · simp only [Op.targets, List.mem_cons, List.not_mem_nil, or_false] at hl
    rcases hl with rfl | rfl
    · exact .inl ⟨rfl, rfl⟩
    · exact .inr rfl

theorem targets_mergedCall {c : CallBase} {N : Fresh} {I : Instr} (hI : I ∈ mergedCall c N) :
    I.op.targets = [] := by
  rw [mergedCall] at hI
  split at hI
  · cases hI
  · cases List.mem_singleton.mp hI
    rfl

theorem callIds_mergedCall (c : CallBase) (N : Fresh) : callIds (mergedCall c N) = [] := by
  rw [mergedCall]
  split
  · rfl
  · rfl

section Split

variable (F : Func) (id : Nat) (cut : Cut)

-- The parts of the function after a split.

def splitUses : Value → Value := usesOf cut.call id (.reg (fresh F.next).phi)

def splitCallee : CallBase :=
  (cut.call.map (splitUses F id cut)).withType cut.call.abi.functionType

def splitChecks : List Instr :=
  checking F.next (splitCallee F id cut).callee (fresh F.next).callBlock (fresh F.next).skipBlock

def splitMap : Instr → Instr := Instr.map (splitUses F id cut) (cut.relabel (fresh F.next))

def origBlock : Block := ⟨cut.label, cut.pre.map (splitMap F id cut) ++ splitChecks F id cut⟩

def afterBlock : Block :=
  ⟨(fresh F.next).afterCall,
    mergedCall (splitCallee F id cut) (fresh F.next) ++ cut.post.map (splitMap F id cut)⟩

def callBlock : Block :=
  let N := fresh F.next
  ⟨N.callBlock, [⟨N.callInCallBlock, .call (splitCallee F id cut)⟩, ⟨N.brCall, .br N.afterCall⟩]⟩

def skipBlock : Block :=
  let N := fresh F.next
  ⟨N.skipBlock,
    [⟨N.callInSkipBlock,
        tableCall ((splitCallee F id cut).withType (splitCallee F id cut).argsType) .callback⟩,
      ⟨N.brSkip, .br N.afterCall⟩]⟩

theorem splitCall_blocks :
    (F.splitCall id cut).blocks =
      cut.before.map (Block.map (splitUses F id cut) (cut.relabel (fresh F.next))) ++
        origBlock F id cut :: afterBlock F id cut ::
        cut.after.map (Block.map (splitUses F id cut) (cut.relabel (fresh F.next))) ++
        [callBlock F id cut, skipBlock F id cut] := rfl

-- What is new in a block.
def SplitNew (B : Block) (I : Instr) : Prop :=
  I ∈ splitChecks F id cut ∨ I ∈ mergedCall (splitCallee F id cut) (fresh F.next) ∨
    B = callBlock F id cut ∧ I ∈ (callBlock F id cut).body ∨
    B = skipBlock F id cut ∧ I ∈ (skipBlock F id cut).body

theorem targets_callBlock {I : Instr} (hI : I ∈ (callBlock F id cut).body) {l : Label}
    (hl : l ∈ I.op.targets) : l = F.next + 6 := by
  simp only [callBlock, List.mem_cons, List.not_mem_nil, or_false] at hI
  rcases hI with rfl | rfl
  · cases hl
  · exact List.mem_singleton.mp hl

theorem targets_skipBlock {I : Instr} (hI : I ∈ (skipBlock F id cut).body) {l : Label}
    (hl : l ∈ I.op.targets) : l = F.next + 6 := by
  simp only [skipBlock, List.mem_cons, List.not_mem_nil, or_false] at hI
  rcases hI with rfl | rfl
  · cases hl
  · exact List.mem_singleton.mp hl

variable {F id cut}

theorem targets_splitNew {B : Block} {I : Instr} (hnew : SplitNew F id cut B I) {l : Label}
    (hl : l ∈ I.op.targets) :
    l = F.next + 4 ∧ I.op = .condBr (.reg (F.next + 2)) (F.next + 4) (F.next + 5) ∨
      l = F.next + 5 ∨ l = F.next + 6 := by
  rcases hnew with hI | hI | ⟨-, hI⟩ | ⟨-, hI⟩
  · exact (targets_checking hI hl).imp_right .inl
  · rw [targets_mergedCall hI] at hl
    cases hl
  · exact .inr (.inr (targets_callBlock F id cut hI hl))
  · exact .inr (.inr (targets_skipBlock F id cut hI hl))

theorem callIds_splitCall :
    (callIds (F.splitCall id cut).ops).Perm ([F.next + 7, F.next + 8] ++ cut.otherIds) := by
  have heq : callIds (F.splitCall id cut).ops = cut.otherIds ++ [F.next + 7, F.next + 8] := by
    change callIds (opsOf (F.splitCall id cut).blocks) = _
    have hchecks : callIds (splitChecks F id cut) = [] := rfl
    have htail : callIds (opsOf [callBlock F id cut, skipBlock F id cut]) =
        [F.next + 7, F.next + 8] := rfl
    rw [splitCall_blocks, opsOf_append, callIds_append, htail]
    simp [origBlock, afterBlock, splitMap, hchecks, callIds_mergedCall, Cut.otherIds]
  rw [heq]
  exact List.perm_append_comm

theorem splitCall_rewrites (hF : F.blocks = cut.blocks id) (hnodup : (callIds F.ops).Nodup) :
    Rewrites F (F.splitCall id cut) id (SplitNew F id cut) (splitUses F id cut)
      (cut.relabel (fresh F.next)) := by
  refine Rewrites.of_mids
    [origBlock F id cut, afterBlock F id cut, callBlock F id cut, skipBlock F id cut] hF hnodup
    (usesOf_reg cut.call id _) (usesOf_fixed cut.call id _) (Nat.le_add_right ..) ?_ ?_ ?_ ?_
  · intro B I hnew l hl
    have hfresh (j : Nat) (hj : j < 12) : F.next ≤ F.next + j ∧ F.next + j < F.next + 12 :=
      ⟨Nat.le_add_right .., Nat.add_lt_add_left hj _⟩
    rcases targets_splitNew hnew hl with ⟨rfl, -⟩ | rfl | rfl
    · exact hfresh 4 (by decide)
    · exact hfresh 5 (by decide)
    · exact hfresh 6 (by decide)
  · intro B'
    rw [splitCall_blocks]
    simp only [List.mem_append, List.mem_cons, List.not_mem_nil, or_false]
    tauto
  · intro I hI
    simp only [opsOf_cons, List.mem_append]
    rcases hI with hI | hI
    · exact .inl (List.mem_append_left _ (List.mem_map_of_mem hI))
    · exact .inr (.inl (List.mem_append_right _ (List.mem_map_of_mem hI)))
  · intro B' hB' I' hI'
    simp only [List.mem_cons, List.not_mem_nil, or_false] at hB'
    rcases hB' with rfl | rfl | rfl | rfl
    · rcases List.mem_append.mp hI' with hI' | hI'
      · obtain ⟨I, hI, rfl⟩ := List.mem_map.mp hI'
        exact .inr ⟨I, .inl hI, rfl⟩
      · exact .inl (.inl hI')
    · rcases List.mem_append.mp hI' with hI' | hI'
      · exact .inl (.inr (.inl hI'))
      · obtain ⟨I, hI, rfl⟩ := List.mem_map.mp hI'
        exact .inr ⟨I, .inr hI, rfl⟩
    · exact .inl (.inr (.inr (.inl ⟨rfl, hI'⟩)))
    · exact .inl (.inr (.inr (.inr ⟨rfl, hI'⟩)))

-- Only the comparison leads to the block of the call.
theorem splitCall_guarded {lo : Nat} {todo skipped : List Nat}
    (hinv : Pending lo F (id :: todo) skipped) (hF : F.blocks = cut.blocks id) :
    Covered (F.splitCall id cut) lo (callBlock F id cut) (splitCallee F id cut) := by
  have hlo (j : Nat) : lo ≤ F.next + j := hinv.lo_le.trans (Nat.le_add_right ..)
  refine .inr ⟨F.next, skipBlock F id cut, hinv.lo_le, ⟨_, _, _, hlo 7, rfl⟩, ?_,
    ⟨_, _, _, hlo 8, rfl⟩, ?_, ?_⟩
  · rw [splitCall_blocks]
    exact List.mem_append_right _ (List.mem_cons_of_mem _ (List.mem_cons_self ..))
  · intro I hI
    refine mem_ops.mpr ⟨origBlock F id cut, ?_, List.mem_append_right _ hI⟩
    rw [splitCall_blocks]
    exact List.mem_append_left _ (List.mem_append_right _ (List.mem_cons_self ..))
  · intro I hI hl
    have hcall : (callBlock F id cut).label = F.next + 4 := rfl
    rw [hcall] at hl
    rcases (splitCall_rewrites hF hinv.nodup).mem_ops_inv hI with ⟨B, hnew⟩ | ⟨J, hJ, rfl⟩
    · rcases targets_splitNew hnew hl with ⟨-, hop⟩ | h | h
      · exact hop
      · exact absurd (Nat.add_left_cancel h) (by decide)
      · exact absurd (Nat.add_left_cancel h) (by decide)
    · rw [Instr.map, targets_map] at hl
      have hlt : F.next + 4 < F.next := hinv.targets J hJ _ hl
      omega

end Split

theorem Pending.splitCall {lo id : Nat} {F : Func} {todo skipped : List Nat} {cut : Cut}
    (hinv : Pending lo F (id :: todo) skipped) (hF : F.blocks = cut.blocks id) :
    Pending lo (F.splitCall id cut) todo skipped := by
  obtain ⟨hnodup, hids⟩ := hinv.ids_of_perm hF callIds_splitCall (by simp) (Nat.le_add_right ..)
    fun i hi => by
      right
      change F.next ≤ i ∧ i < F.next + 12
      simp only [List.mem_cons, List.not_mem_nil, or_false] at hi
      omega
  refine hinv.rewrites (splitCall_rewrites hF hinv.nodup) hnodup hids ?_
  rintro B i d - (hI | hI | ⟨rfl, hI⟩ | ⟨rfl, hI⟩) hd
  · simp [splitChecks, checking] at hI
  · have hmem : i ∈ callIds (mergedCall (splitCallee F id cut) (fresh F.next)) :=
      mem_callIds.mpr ⟨_, hI, rfl⟩
    rw [callIds_mergedCall] at hmem
    cases hmem
  · have hcall : d = splitCallee F id cut := by
      simp only [callBlock, List.mem_cons, List.not_mem_nil, or_false, Instr.mk.injEq, Op.call.injEq,
        reduceCtorEq, and_false] at hI
      exact hI.2
    subst hcall
    exact splitCall_guarded hinv hF
  · have hop : .call d =
        tableCall ((splitCallee F id cut).withType (splitCallee F id cut).argsType) .callback := by
      simp only [skipBlock, List.mem_cons, List.not_mem_nil, or_false, Instr.mk.injEq,
        reduceCtorEq, and_false] at hI
      exact hI.2
    rw [tableCall_not_isIndirect hop] at hd
    cases hd

-- The numbers of a function as the pass finds it.
structure Func.Numbered (F : Func) : Prop where
  targets : ∀ I ∈ F.ops, ∀ l ∈ I.op.targets, l < F.next
  nodup : (callIds F.ops).Nodup
  ids : ∀ i ∈ callIds F.ops, i < F.next

theorem CallBase.isCandidate_of_isIndirect {c : CallBase} (h : c.isIndirect) : c.isCandidate := by
  obtain ⟨callee, args, m, v⟩ := c
  cases callee with
  | function name => cases h
  | inlineAsm => cases h
  | _ => rfl

theorem mem_candidates {F : Func} {i : Nat} :
    i ∈ F.candidates ↔ ∃ c, (⟨i, .call c⟩ : Instr) ∈ F.ops ∧ c.isCandidate := by
  rw [Func.candidates, List.mem_filterMap]
  constructor
  · rintro ⟨⟨j, op⟩, hI, h⟩
    cases op with
    | call c =>
      dsimp only at h
      split at h
      · rename_i hc
        cases h
        exact ⟨c, hI, hc⟩
      · cases h
    | _ => cases h
  · rintro ⟨c, hI, hc⟩
    exact ⟨_, hI, by simp [hc]⟩

theorem Pending.start {F : Func} (h : F.Numbered) : Pending F.next F F.candidates [] := by
  refine ⟨le_rfl, h.targets, h.nodup, h.ids, fun i hi => ?_, fun B hB i c hI hc => .inl ?_⟩
  · obtain ⟨c, hI, -⟩ := mem_candidates.mp hi
    exact h.ids i (mem_callIds.mpr ⟨_, hI, rfl⟩)
  · exact mem_candidates.mpr ⟨c, mem_ops.mpr ⟨B, hB, hI⟩, c.isCandidate_of_isIndirect hc⟩

namespace Analysis

variable (A : Analysis)

-- The ways in which one call is rewritten.
inductive CallRound (st : RunState) (id : Nat) (cut : Cut) : RunState → Prop
  | table (table : Table) (htable : A.tableOf st.func = some table) :
      CallRound st id cut { st with func := st.func.alwaysCallbackTable id cut table }
  | skipped (htable : A.tableOf st.func = none)
      (horigin : A.reportStructOriginOfIndirCalls st.func cut.call.callee = some .readOnly) :
      CallRound st id cut { st with skipped := id :: st.skipped }
  | split (htable : A.tableOf st.func = none) (rtld_glob : Origin)
      (horigin : A.reportStructOriginOfIndirCalls st.func cut.call.callee = some rtld_glob)
      (hother : rtld_glob ≠ .readOnly)
      (hsplit : A.needsSplit st.func cut.call.callee rtld_glob = true) :
      CallRound st id cut { st with func := st.func.splitCall id cut }
  | normal (htable : A.tableOf st.func = none) (rtld_glob : Origin)
      (horigin : A.reportStructOriginOfIndirCalls st.func cut.call.callee = some rtld_glob)
      (hother : rtld_glob ≠ .readOnly)
      (hsplit : A.needsSplit st.func cut.call.callee rtld_glob = false) :
      CallRound st id cut { st with func := st.func.instrumentNormalCase id cut }

theorem callRound {st st' : RunState} {id : Nat} {cut : Cut}
    (h : A.rewriteCall st id cut = some st') : A.CallRound st id cut st' := by
  rw [rewriteCall] at h
  cases htable : A.tableOf st.func with
  | some table =>
    rw [htable] at h
    cases h
    exact .table table htable
  | none =>
    rw [htable] at h
    cases horigin : A.reportStructOriginOfIndirCalls st.func cut.call.callee with
    | none =>
      rw [horigin] at h
      cases h
    | some rtld_glob =>
      rw [horigin] at h
      have hother (hne : rtld_glob ≠ .readOnly)
          (h : (if A.needsSplit st.func cut.call.callee rtld_glob then
            some { st with func := st.func.splitCall id cut }
            else some { st with func := st.func.instrumentNormalCase id cut }) = some st') :
          A.CallRound st id cut st' := by
        split at h
        · rename_i hsplit
          cases h
          exact .split htable rtld_glob horigin hne hsplit
        · rename_i hsplit
          cases h
          exact .normal htable rtld_glob horigin hne (Bool.eq_false_iff.mpr hsplit)
      cases rtld_glob with
      | unknown => exact hother (by decide) h
      | struct => exact hother (by decide) h
      | readOnly =>
        cases h
        exact .skipped htable horigin

-- One turn of the loop: the call is no longer there, or it is rewritten.
theorem candidateRound {st st' : RunState} {id : Nat} (h : A.rewriteCandidate st id = some st') :
    (cutBlocks id st.func.blocks = none ∧ st' = st) ∨
      ∃ cut, cutBlocks id st.func.blocks = some cut ∧ A.CallRound st id cut st' := by
  rw [rewriteCandidate] at h
  cases hcut : cutBlocks id st.func.blocks with
  | none =>
    rw [hcut] at h
    exact .inl ⟨rfl, (Option.some_inj.mp h).symm⟩
  | some cut =>
    rw [hcut] at h
    exact .inr ⟨cut, rfl, A.callRound h⟩

theorem rewriteCandidate_pending {lo id : Nat} {todo : List Nat} {st st' : RunState}
    (hinv : Pending lo st.func (id :: todo) st.skipped) (h : A.rewriteCandidate st id = some st') :
    Pending lo st'.func todo st'.skipped := by
  rcases A.candidateRound h with ⟨hcut, rfl⟩ | ⟨cut, hcut, hround⟩
  · exact hinv.tail (fun _ hi => hi) fun hmem => absurd hmem (cutBlocks_none hcut)
  · have hblocks := cutBlocks_some hcut
    cases hround with
    | table table => exact hinv.alwaysCallbackTable hblocks table
    | skipped => exact hinv.tail (List.subset_cons_self ..) fun _ => List.mem_cons_self ..
    | split => exact hinv.splitCall hblocks
    | normal => exact hinv.instrumentNormalCase hblocks

theorem runFunction_trace {F : Func} {st : RunState} (hexempt : F.name ∉ exempt)
    (h : A.runFunction F = some st) :
    State.trace A.rewriteCandidate ⟨F, []⟩ F.candidates = some st := by
  rwa [runFunction, if_neg hexempt, State.foldlM_eq_trace] at h

theorem runFunction_pending {F : Func} {st : RunState} (hF : F.Numbered) (hexempt : F.name ∉ exempt)
    (h : A.runFunction F = some st) : Pending F.next st.func [] st.skipped := by
  exact State.trace_todo (fun st todo => Pending F.next st.func todo st.skipped)
    (fun _ _ _ _ => A.rewriteCandidate_pending) (Pending.start hF) (A.runFunction_trace hexempt h)

end Analysis

theorem getElem?_mapM {α β : Type} (f : α → Option β) {xs : List α} {ys : List β} (i : Nat)
    (h : xs.mapM f = some ys) {x : α} {y : β} (hx : xs[i]? = some x) (hy : ys[i]? = some y) :
    f x = some y := by
  induction xs generalizing ys i with
  | nil => simp at hx
  | cons a xs ih =>
    rw [List.mapM_cons] at h
    obtain ⟨b, hb, h⟩ := Option.bind_eq_some_iff.mp h
    obtain ⟨bs, hbs, h⟩ := Option.bind_eq_some_iff.mp h
    cases h
    cases i with
    | zero =>
      cases hx
      cases hy
      exact hb
    | succ i => exact ih i hbs hx hy

-- Nothing is known about structs and globals.
def plainAnalysis : Analysis where
  struct_names := []
  global_names := []
  loader := false
  collectCallbackMaybeFunctions := []
  valueType := fun _ => .other
  stripPointerCasts := fun _ v => v
  printStructArgTypes := fun _ => []
  useLists := programOrder
  nestedMatch := fun _ _ => false
  fieldMatch := fun _ _ => false
  isValuePointerToAllowedStruct_ViaDbgRecord := fun _ _ => false
  resolveStructDIType := fun _ _ => none
  fieldIdx := fun _ _ => 0
  debugVariableTypes := fun _ => []

def applyBody (op : Op) : Func where
  name := "apply".toList
  blocks := [⟨0, [⟨1, op⟩]⟩, ⟨2, []⟩]
  next := 3

def applyModule (op : Op) : Module where
  identifier := "apply.cpp".toList
  sourceFileName := "apply.cpp".toList
  functions := [applyBody op]

-- A function that calls its argument.
def throughArgument : CallBase where
  callee := .argument 0
  args := []
  argTypes := []
  abi := ⟨⟨1, [], false⟩, 0, []⟩

theorem applyBody_numbered (op : Op) (hop : ∀ l ∈ op.targets, l < 3) : (applyBody op).Numbered := by
  have hops : (applyBody op).ops = [⟨1, op⟩] := rfl
  have hids : callIds [⟨1, op⟩] = [1] ∨ callIds [⟨1, op⟩] = [] := by
    cases op <;> simp [callIds, callId]
  refine ⟨?_, ?_, ?_⟩
  · rw [hops]
    intro I hI
    cases List.mem_singleton.mp hI
    exact hop
  · rw [hops]
    rcases hids with h | h <;> simp [h]
  · rw [hops]
    intro i hi
    rcases hids with h | h
    · rw [h] at hi
      cases List.mem_singleton.mp hi
      exact Nat.lt_of_sub_eq_succ rfl
    · rw [h] at hi
      cases hi

end Platypus.Pass.BitMasks
