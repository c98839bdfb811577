import Platypus.Pass.InLine
import Platypus.Pass.Sites

-- Where the calls of an instrumented function go, in every run of it.

namespace Platypus.Pass.BitMasks

abbrev Block.code (B : Block) : List Instr := B.body.dropWhile (·.op.isPhi)

variable {σ : Type} {T : Machine σ} {modes : Nat → Mode} {F : Func} {w : σ} {c : Config σ}

theorem Machine.mask_mask (T : Machine σ) (x : Word) : T.mask (T.mask x) = T.mask x := by
  ext i hi
  simp only [mask, BitVec.getElem_and, BitVec.getElem_or]
  cases x[i] <;> cases T.or_mask[i] <;> cases T.and_mask[i] <;> rfl

namespace Machine

-- How a configuration is left: to the next instruction, or to the start of a block.
inductive StepTo (T : Machine σ) (modes : Nat → Mode) (F : Func) (c₁ c : Config σ) : Prop
  | next (I : Instr) (rest : List Instr) (body : c₁.body = I :: rest) (label : c.label = c₁.label)
      (left : c.body = rest)
      (env : c.env =
        Function.update c₁.env I.id (T.effect (modes I.id) I.op c₁.env c₁.r11 c₁.world).value)
  | jump (I : Instr) (rest : List Instr) (B : Block) (body : c₁.body = I :: rest)
      (target : (T.effect (modes I.id) I.op c₁.env c₁.r11 c₁.world).jump = some c.label)
      (mem : B ∈ F.blocks) (label : B.label = c.label) (code : c.body = B.code)
      (env : c.env = T.assign
        (Function.update c₁.env I.id (T.effect (modes I.id) I.op c₁.env c₁.r11 c₁.world).value)
        c₁.label (B.body.takeWhile (·.op.isPhi))
        (Function.update c₁.env I.id (T.effect (modes I.id) I.op c₁.env c₁.r11 c₁.world).value))

theorem stepTo {c₁ : Config σ} (h : T.step modes F c₁ = some c) : T.StepTo modes F c₁ c := by
  obtain ⟨label, body, ρ, r11, w⟩ := c₁
  cases body with
  | nil => cases h
  | cons I rest =>
    have hphi := not_phi_of_step h
    cases hjump : (T.effect (modes I.id) I.op ρ r11 w).jump with
    | none =>
      rw [step_next hphi hjump] at h
      cases h
      exact .next I rest rfl rfl rfl rfl
    | some l =>
      rw [step_jump hphi hjump, enter] at h
      obtain ⟨B, hfind, rfl⟩ := Option.map_eq_some_iff.mp h
      exact .jump I rest B rfl hjump (List.mem_of_find?_eq_some hfind) (label_of_find hfind) rfl rfl

-- A run stands behind some of the code of a block.
theorem Reachable.position (h : T.Reachable modes F w c) :
    ∃ B ∈ F.blocks, B.label = c.label ∧ c.body <:+ B.code := by
  obtain ⟨c₀, hentry, hsteps⟩ := h
  induction hsteps with
  | refl =>
    obtain ⟨B, hB, rfl⟩ := Option.map_eq_some_iff.mp hentry
    exact ⟨B, List.mem_of_head? hB, rfl, List.suffix_refl _⟩
  | tail _ hstep ih =>
    obtain ⟨B, hB, hlabel, hsuffix⟩ := ih
    cases stepTo hstep with
    | next I rest hbody hl hleft _ =>
      rw [hbody] at hsuffix
      rw [hl, hleft]
      exact ⟨B, hB, hlabel, (List.suffix_cons I rest).trans hsuffix⟩
    | jump I rest B' _ _ hB' hl' hcode _ =>
      rw [hcode]
      exact ⟨B', hB', hl', List.suffix_refl _⟩

-- The last step of a run: none, to the next instruction, or to the start of a block.
theorem Reachable.cases_last (h : T.Reachable modes F w c) :
    (∃ B, F.blocks.head? = some B ∧ B.label = c.label ∧ c.body = B.code) ∨
      ∃ c₁, T.Reachable modes F w c₁ ∧ T.StepTo modes F c₁ c := by
  obtain ⟨c₀, hentry, hsteps⟩ := h
  cases hsteps with
  | refl =>
    obtain ⟨B, hB, rfl⟩ := Option.map_eq_some_iff.mp hentry
    exact .inl ⟨B, hB, rfl, rfl⟩
  | tail hbefore hstep => exact .inr ⟨_, ⟨c₀, hentry, hbefore⟩, stepTo hstep⟩

theorem block_of_label (hlabels : (F.blocks.map Block.label).Nodup) {B B' : Block}
    (hB : B ∈ F.blocks) (hB' : B' ∈ F.blocks) (h : B.label = B'.label) : B = B' :=
  List.inj_on_of_nodup_map hlabels hB hB' h

-- Behind an instruction, the last step was this instruction.
theorem Reachable.back (hlabels : (F.blocks.map Block.label).Nodup) (h : T.Reachable modes F w c)
    {B : Block} (hB : B ∈ F.blocks) (hlabel : B.label = c.label) {q : List Instr} {I : Instr}
    (hcode : B.code = q ++ I :: c.body) :
    ∃ c₁, T.Reachable modes F w c₁ ∧ c₁.label = c.label ∧ c₁.body = I :: c.body ∧
      c.env =
        Function.update c₁.env I.id (T.effect (modes I.id) I.op c₁.env c₁.r11 c₁.world).value := by
  have hlength := congrArg List.length hcode
  rw [List.length_append, List.length_cons] at hlength
  -- at the start of the block nothing is behind
  have hstart {B' : Block} (hB' : B' ∈ F.blocks) (hl : B'.label = c.label)
      (hbody : c.body = B'.code) : False := by
    cases block_of_label hlabels hB hB' (hlabel.trans hl.symm)
    rw [← hbody] at hlength
    omega
  rcases h.cases_last with ⟨B', hhead, hl, hbody⟩ | ⟨c₁, hc₁, hstep⟩
  · exact (hstart (List.mem_of_head? hhead) hl hbody).elim
  · cases hstep with
    | jump J rest B' _ _ hB' hl' hbody _ => exact (hstart hB' hl' hbody).elim
    | next J rest hbody hl hleft henv =>
      obtain ⟨B₁, hB₁, hlabel₁, p, hp⟩ := hc₁.position
      cases block_of_label hlabels hB hB₁ (hlabel.trans (hl.trans hlabel₁.symm))
      rw [hbody, hcode, hleft] at hp
      have hlength' : p.length = q.length := by
        have := congrArg List.length hp
        simp only [List.length_append, List.length_cons] at this
        omega
      obtain ⟨-, heq⟩ := List.append_inj hp hlength'
      cases heq
      exact ⟨c₁, hc₁, hl.symm, by rw [hbody, hleft], henv⟩

end Machine

section Position

variable {I : Instr}

-- An instruction is at one place of one block.
theorem place_unique (hproper : F.Proper) {B B' : Block} (hB : B ∈ F.blocks) (hB' : B' ∈ F.blocks)
    {p q p' q' : List Instr} (h : B.body = p ++ I :: q) (h' : B'.body = p' ++ I :: q') :
    B = B' ∧ p = p' ∧ q = q' := by
  have hids := hproper.ids_nodup
  obtain ⟨xs, ys, hsplit⟩ := List.append_of_mem hB
  have hsame : B = B' := by
    rw [Func.ops, hsplit, List.flatMap_append, List.flatMap_cons, List.map_append, List.map_append,
      List.nodup_append, List.nodup_append] at hids
    obtain ⟨-, ⟨-, -, hafter⟩, hbefore⟩ := hids
    have hI : I.id ∈ B.body.map Instr.id := List.mem_map_of_mem (by rw [h]; simp)
    have hI' : I ∈ B'.body := by rw [h']; simp
    rw [hsplit, List.mem_append, List.mem_cons] at hB'
    rcases hB' with hB' | rfl | hB'
    · refine absurd rfl (hbefore I.id ?_ I.id (List.mem_append_left _ hI))
      exact List.mem_map_of_mem (List.mem_flatMap.mpr ⟨B', hB', hI'⟩)
    · rfl
    · refine absurd rfl (hafter I.id hI I.id ?_)
      exact List.mem_map_of_mem (List.mem_flatMap.mpr ⟨B', hB', hI'⟩)
  subst hsame
  have hbody : (B.body.map Instr.id).Nodup := by
    rw [Func.ops, hsplit, List.flatMap_append, List.flatMap_cons, List.map_append, List.map_append,
      List.nodup_append, List.nodup_append] at hids
    exact hids.2.1.1
  have hnot {p q : List Instr} (h : B.body = p ++ I :: q) : I ∉ p ∧ I ∉ q := by
    rw [h, List.map_append, List.map_cons, List.nodup_append, List.nodup_cons] at hbody
    obtain ⟨-, ⟨hq, -⟩, hp⟩ := hbody
    exact ⟨fun hmem => hp _ (List.mem_map_of_mem hmem) _ List.mem_cons_self rfl,
      fun hmem => hq (List.mem_map_of_mem hmem)⟩
  have heq := h.symm.trans h'
  obtain ⟨hp, -, hq⟩ := (List.append_cons_inj_of_notMem (hnot h).1 (hnot h).2).mp heq
  exact ⟨rfl, hp, hq⟩

-- The code of a block has all of it from an instruction on that is not a phi.
theorem code_append {B : Block} {p q : List Instr} (h : B.body = p ++ I :: q)
    (hphi : I.op.isPhi = false) : B.code = p.dropWhile (·.op.isPhi) ++ I :: q := by
  rw [Block.code, h]
  exact (Expands.phis_append p ⟨I, q, rfl, hphi⟩).1

-- A run at an instruction has the piece before it behind itself.
theorem Machine.Reachable.line (hproper : F.Proper) (h : T.Reachable modes F w c) {is : List Instr}
    {rest : List Instr} (hbody : c.body = I :: rest) (hline : F.HasLine (is ++ [I]))
    (hphi : ∀ J ∈ is, J.op.isPhi = false) :
    ∃ B ∈ F.blocks, ∃ q, B.label = c.label ∧ B.code = q ++ is ++ c.body := by
  obtain ⟨B, hB, hlabel, hsuffix⟩ := h.position
  obtain ⟨B', hB', p, q, hpq⟩ := hline
  obtain ⟨u, hu⟩ := hsuffix.trans (List.dropWhile_suffix _)
  rw [hbody] at hu
  obtain ⟨rfl, hp, hq⟩ := place_unique hproper hB hB' hu.symm
    (show B'.body = (p ++ is) ++ I :: q by rw [← hpq]; simp)
  subst hq
  cases is with
  | nil =>
    obtain ⟨v, hv⟩ := hsuffix
    exact ⟨B, hB, v, hlabel, by rw [List.append_nil, hv]⟩
  | cons J is =>
    have hbody' : B.body = p ++ J :: (is ++ I :: rest) := by rw [← hpq]; simp
    refine ⟨B, hB, p.dropWhile (·.op.isPhi), hlabel, ?_⟩
    rw [code_append hbody' (hphi J List.mem_cons_self), hbody]
    simp

end Position

section Lines

variable {cb : CallBase} {rest : List Instr} {i k : Nat}

-- Behind the masking of a value, its register has a masked value.
theorem masked_line (hproper : F.Proper) (hor : T.const orMask = T.or_mask)
    (hand : T.const andMask = T.and_mask) (h : T.Reachable modes F w c) {I : Instr} {x : Value}
    (hbody : c.body = I :: rest) (hline : F.HasLine (masking k x ++ [I])) :
    ∃ y, c.env (k + 3) = T.mask y := by
  obtain ⟨B, hB, q, hlabel, hcode⟩ := h.line hproper hbody hline fun J hJ => (masking_plain hJ).1
  have hlabels := hproper.labels_nodup
  obtain ⟨c₁, hc₁, hl₁, hbody₁, henv₁⟩ := h.back hlabels hB hlabel
    (q := q ++ (masking k x).take 3) (I := ⟨k + 3, .intToPtr (.reg (k + 2))⟩) (by
      rw [hcode]
      simp [masking])
  obtain ⟨c₂, hc₂, hl₂, hbody₂, henv₂⟩ := hc₁.back hlabels hB (hlabel.trans hl₁.symm)
    (q := q ++ (masking k x).take 2) (I := ⟨k + 2, .and (.reg (k + 1)) andMask⟩) (by
      rw [hcode, hbody₁]
      simp [masking])
  obtain ⟨c₃, hc₃, hl₃, hbody₃, henv₃⟩ := hc₂.back hlabels hB (hlabel.trans (hl₂.trans hl₁).symm)
    (q := q ++ (masking k x).take 1) (I := ⟨k + 1, .or (.reg k) orMask⟩) (by
      rw [hcode, hbody₂, hbody₁]
      simp [masking])
  refine ⟨c₃.env k, ?_⟩
  rw [henv₁, Function.update_self]
  change c₁.env (k + 2) = _
  rw [henv₂, Function.update_self]
  change c₂.env (k + 1) &&& T.const andMask = _
  rw [henv₃, Function.update_self, hand]
  change (c₃.env k ||| T.const orMask) &&& T.and_mask = _
  rw [hor]
  rfl

theorem eval_update {ρ : Nat → Word} {v : Value} {j : Nat} (hv : v ≠ .reg j) (x : Word) :
    T.eval (Function.update ρ j x) v = T.eval ρ v := by
  cases v with
  | reg n => exact Function.update_of_ne (fun heq => hv (congrArg Value.reg heq)) _ _
  | _ => rfl

-- Where the branch of a check is taken to the call, the masks do not change the target.
theorem checked_line (hproper : F.Proper) (h : T.Reachable modes F w c) {x : Value}
    {l skip : Label} (hx : ∀ j, x = .reg j → j < k ∨ k + 4 ≤ j)
    (hbody : c.body = ⟨k + 3, .condBr (.reg (k + 2)) l skip⟩ :: rest)
    (hline : F.HasLine (checking k x l skip)) (htaken : c.env (k + 2) = 1) :
    T.mask (T.eval c.env x) = T.eval c.env x := by
  have hpieces : checking k x l skip =
      (checking k x l skip).take 3 ++ [⟨k + 3, .condBr (.reg (k + 2)) l skip⟩] := rfl
  rw [hpieces] at hline
  have hreg (j : Nat) (hj : j < 4) : x ≠ .reg (k + j) := by
    intro heq
    have := hx _ heq
    omega
  obtain ⟨B, hB, q, hlabel, hcode⟩ := h.line hproper hbody hline (by simp [checking, Op.isPhi])
  have hlabels := hproper.labels_nodup
  obtain ⟨c₁, hc₁, hl₁, hbody₁, henv₁⟩ := h.back hlabels hB hlabel
    (q := q ++ (checking k x l skip).take 2) (I := ⟨k + 2, .icmpEq x (.reg (k + 1))⟩) (by
      rw [hcode]
      simp [checking])
  obtain ⟨c₂, -, -, -, henv₂⟩ := hc₁.back hlabels hB (hlabel.trans hl₁.symm)
    (q := q ++ (checking k x l skip).take 1) (I := ⟨k + 1, .orAnd x⟩) (by
      rw [hcode, hbody₁]
      simp [checking])
  have hflag : (if T.eval c₁.env x = c₁.env (k + 1) then (1 : Word) else 0) = 1 := by
    rw [henv₁, Function.update_self] at htaken
    exact htaken
  have heq : T.eval c₁.env x = c₁.env (k + 1) := by
    by_contra hne
    rw [if_neg hne] at hflag
    exact absurd hflag (by decide)
  have hmask : c₁.env (k + 1) = T.mask (T.eval c₂.env x) := by
    rw [henv₂, Function.update_self]
    rfl
  rw [henv₁, eval_update (hreg 2 (by decide)), heq, hmask, T.mask_mask]

theorem InLine.confined {lo : Nat} (hproper : F.Proper)
    (hhead : ∀ B, F.blocks.head? = some B → B.label < lo) (hor : T.const orMask = T.or_mask)
    (hand : T.const andMask = T.and_mask) (hcall : InLine F lo i cb) (h : T.Reachable modes F w c)
    (hbody : c.body = ⟨i, .call cb⟩ :: rest) :
    T.mask (T.eval c.env cb.callee) = T.eval c.env cb.callee := by
  cases hcall with
  | masked k x _ hcallee hline =>
    obtain ⟨y, hy⟩ := masked_line hproper hor hand h hbody hline
    rw [hcallee]
    change T.mask (c.env (k + 3)) = c.env (k + 3)
    rw [hy, T.mask_mask]
  | guarded k l skip join b hlo _ hcallee hblock hline hne hentered =>
    -- the call is the first instruction of its block, so the run has just entered it
    obtain ⟨B, hB, hlabel, hsuffix⟩ := h.position
    obtain ⟨u, hu⟩ := hsuffix.trans (List.dropWhile_suffix _)
    rw [hbody] at hu
    obtain ⟨hBl, -, -⟩ := place_unique hproper hB hblock hu.symm
      (show _ = [] ++ _ from rfl)
    have hl : c.label = l := by rw [← hlabel, hBl]
    rcases h.cases_last with ⟨B', hB', hl', -⟩ | ⟨c₁, hc₁, hstep⟩
    · have := hhead B' hB'
      rw [hl', hl] at this
      exact absurd this (Nat.not_lt.mpr hlo.2.2)
    · cases hstep with
      | next J rest' hbody₁ hlabel₁ hleft _ =>
        obtain ⟨B₁, hB₁, hl₁, hsuffix₁⟩ := hc₁.position
        obtain ⟨v, hv⟩ := hsuffix₁.trans (List.dropWhile_suffix _)
        rw [hbody₁, ← hleft, hbody, List.append_cons] at hv
        obtain ⟨-, hp, -⟩ := place_unique hproper hB₁ hblock hv.symm
          (show _ = [] ++ _ from rfl)
        simp at hp
      | jump J rest' B' hbody₁ htarget hB' hl' hcode henv =>
        have hJ : J ∈ F.ops := by
          obtain ⟨B₁, hB₁, -, hsuffix₁⟩ := hc₁.position
          refine mem_ops.mpr ⟨B₁, hB₁, (hsuffix₁.trans (List.dropWhile_suffix _)).subset ?_⟩
          rw [hbody₁]
          exact List.mem_cons_self
        rw [hl] at htarget
        cases hentered J hJ (Machine.jump_mem htarget)
        have htaken : c₁.env (k + 2) = 1 := by
          by_contra hnot
          have hskip : skip = l := by
            have hif : (if c₁.env (k + 2) = 1 then l else skip) = l :=
              Option.some_inj.mp htarget
            rw [if_neg hnot] at hif
            exact hif
          exact hne hskip
        have hchecked := checked_line hproper hc₁ hcallee hbody₁ hline htaken
        have hcb : cb.callee ≠ .reg (k + 3) := by
          intro heq
          have := hcallee _ heq
          omega
        cases Machine.block_of_label hproper.labels_nodup hblock hB' (hl.symm.trans hl'.symm)
        have henv' : c.env = Function.update c₁.env (k + 3) 0 := henv
        rw [henv', eval_update hcb]
        exact hchecked

end Lines

namespace Analysis

theorem runFunction_confined {A : Analysis} {F : Func} {st : RunState} (hproper : F.Proper)
    (hnumbered : F.Numbered) (hexempt : F.name ∉ exempt) (hrun : A.runFunction F = some st)
    (hor : T.const orMask = T.or_mask) (hand : T.const andMask = T.and_mask)
    (hc : T.Reachable (fun _ => .plain) st.func w c) {i : Nat} {cb : CallBase} {rest : List Instr}
    (hbody : c.body = ⟨i, .call cb⟩ :: rest) (hind : cb.isIndirect) (hskipped : i ∉ st.skipped) :
    T.mask (T.eval c.env cb.callee) = T.eval c.env cb.callee := by
  have hlined := A.runFunction_lined hproper hnumbered hexempt hrun
  have hmem : (⟨i, .call cb⟩ : Instr) ∈ st.func.ops := by
    obtain ⟨B, hB, -, hsuffix⟩ := hc.position
    refine mem_ops.mpr ⟨B, hB, (hsuffix.trans (List.dropWhile_suffix _)).subset ?_⟩
    rw [hbody]
    exact List.mem_cons_self
  rcases hlined.calls i cb hmem hind with htodo | hskip | hline
  · cases htodo
  · exact absurd hskip hskipped
  · exact hline.confined hlined.proper hlined.head hor hand hc hbody

theorem runFunction_of_run {A : Analysis} {m : Module} {sts : List RunState}
    (hskips : A.skips m = false) (hrun : A.run m = some sts) {n : Nat} {F : Func} {st : RunState}
    (hF : m.functions[n]? = some F) (hst : sts[n]? = some st) : A.runFunction F = some st := by
  rw [run, if_neg (by rw [hskips]; exact Bool.false_ne_true)] at hrun
  exact getElem?_mapM _ n hrun hF hst

end Analysis

-- In every run of a function that the pass has rewritten, the target of an indirect call is one
-- that the masks do not change.
theorem run_confined (A : Analysis) (m : Module) (sts : List RunState) (hskips : A.skips m = false)
    (hrun : A.run m = some sts) (n : Nat) (F : Func) (st : RunState)
    (hF : m.functions[n]? = some F) (hst : sts[n]? = some st) (hexempt : F.name ∉ exempt)
    (hproper : F.Proper) (hnumbered : F.Numbered) (σ : Type) (T : Machine σ)
    (hor : T.const orMask = T.or_mask) (hand : T.const andMask = T.and_mask) (w : σ) (c : Config σ)
    (hc : T.Reachable (fun _ => .plain) st.func w c) (i : Nat) (cb : CallBase) (rest : List Instr)
    (hbody : c.body = ⟨i, .call cb⟩ :: rest) (hind : cb.isIndirect) (hskipped : i ∉ st.skipped) :
    T.mask (T.eval c.env cb.callee) = T.eval c.env cb.callee :=
  Analysis.runFunction_confined hproper hnumbered hexempt
    (Analysis.runFunction_of_run hskips hrun hF hst) hor hand hc hbody hind hskipped

def applyCut : Cut := ⟨[], 0, [], throughArgument, [], [⟨2, []⟩]⟩

def applySplit : RunState := ⟨(applyBody (.call throughArgument)).splitCall 1 applyCut, []⟩

-- The masks are read from memory and used as constants.
def maskMachine : Machine CallLog :=
  { logMachine with
    const := fun v =>
      if v = orMask then 0x100 else if v = andMask then 0x1ff
      else if v = .argument 0 then 0x123 else 0 }

theorem Machine.runFor_steps (T : Machine σ) (modes : Nat → Mode) (F : Func) (n : Nat)
    (c : Config σ) : T.Steps modes F c (T.runFor modes F n c) := by
  induction n generalizing c with
  | zero => exact .refl
  | succ n ih =>
    rw [runFor]
    cases hstep : T.step modes F c with
    | none => exact .refl
    | some c' => exact .head hstep (ih c')

def applyCalls : Config CallLog :=
  maskMachine.runFor (fun _ => .plain) applySplit.func 4
    ⟨0, (origBlock (applyBody (.call throughArgument)) 1 applyCut).body, fun _ => 0, 0, []⟩

-- The call behind the comparison is reached, and its target is in the window.
theorem run_confined_apply :
    applyCalls.label = 7 ∧ applyCalls.env 4 = 0x123 ∧
      maskMachine.Reachable (fun _ => .plain) applySplit.func [] applyCalls ∧
      maskMachine.mask (maskMachine.eval applyCalls.env (.argument 0)) =
        maskMachine.eval applyCalls.env (.argument 0) := by
  have hreach : maskMachine.Reachable (fun _ => .plain) applySplit.func [] applyCalls :=
    ⟨_, rfl, maskMachine.runFor_steps _ _ _ _⟩
  refine ⟨by decide, by decide, hreach, ?_⟩
  exact run_confined applyAnalysis (applyModule (.call throughArgument)) [applySplit] (by decide)
    (by decide) 0 _ applySplit rfl rfl (by decide) applyBody_proper
    (applyBody_numbered _ (by simp [Op.targets])) CallLog maskMachine (by decide) (by decide) []
    applyCalls hreach 10 (splitCallee (applyBody (.call throughArgument)) 1 applyCut) [⟨13, .br 9⟩]
    (by decide) (by decide) (by decide)

end Platypus.Pass.BitMasks
