import Platypus.Pass.Proper

-- The rewritten function runs as the original one with its calls guarded or masked.

namespace Platypus.Pass.BitMasks

variable {σ : Type} {T : Machine σ} {F : Func} {id : Nat} {cut : Cut} {modes modes' : Nat → Mode}
  {ρ ρ' : Nat → Word}

section Split

-- The phi has the result of the call.
structure SplitRel (F : Func) (id : Nat) (cut : Cut) (ρ ρ' : Nat → Word) : Prop where
  kept : ∀ k < F.next, k ≠ id → ρ' k = ρ k
  result : cut.call.isVoid = false → ρ' (F.next + 9) = ρ id

theorem SplitRel.fresh (h : SplitRel F id cut ρ ρ') (j : Nat) (hj : j ≠ 9) (x : Word) :
    SplitRel F id cut ρ (Function.update ρ' (F.next + j) x) := by
  refine ⟨fun k hk hid => ?_, fun hvoid => ?_⟩
  · rw [Function.update_of_ne (by omega)]
    exact h.kept k hk hid
  · rw [Function.update_of_ne (by omega)]
    exact h.result hvoid

theorem SplitRel.update (h : SplitRel F id cut ρ ρ') {k : Nat} (hk : k < F.next) (hid : k ≠ id)
    (x : Word) : SplitRel F id cut (Function.update ρ k x) (Function.update ρ' k x) := by
  refine ⟨fun i hi hne => ?_, fun hvoid => ?_⟩
  · by_cases hik : i = k
    · rw [hik, Function.update_self, Function.update_self]
    · rw [Function.update_of_ne hik, Function.update_of_ne hik]
      exact h.kept i hi hne
  · rw [Function.update_of_ne (by omega), Function.update_of_ne (Ne.symm hid)]
    exact h.result hvoid

theorem SplitRel.eval (hR : SplitRel F id cut ρ ρ') (hproper : F.Proper)
    (hF : F.blocks = cut.blocks id) {I : Instr} (hI : I ∈ F.ops) {v : Value}
    (hv : v ∈ I.op.operands) : T.eval ρ' (splitUses F id cut v) = T.eval ρ v := by
  cases v with
  | reg k =>
    have hlt := hproper.operands_lt I hI k hv
    cases hvoid : cut.call.isVoid with
    | true =>
      have hne : k ≠ id := by
        rintro rfl
        exact hproper.void_unused _ _ (call_mem hF) hvoid I hI hv
      rw [splitUses, usesOf, if_pos hvoid]
      exact hR.kept k hlt hne
    | false =>
      rw [splitUses, usesOf, if_neg (by rw [hvoid]; exact Bool.false_ne_true), Value.replace]
      split
      · rename_i heq
        rw [heq]
        exact hR.result hvoid
      · rename_i hne
        exact hR.kept k hlt hne
  | _ =>
    rw [splitUses, usesOf_fixed _ _ _ _ (fun _ h => by cases h)]
    rfl

theorem SplitRel.args (hR : SplitRel F id cut ρ ρ') (hproper : F.Proper)
    (hF : F.blocks = cut.blocks id) :
    (cut.call.args.map (splitUses F id cut)).map (T.eval ρ') = cut.call.args.map (T.eval ρ) := by
  rw [List.map_map]
  exact List.map_congr_left fun v hv =>
    hR.eval hproper hF (call_mem hF) (List.mem_cons_of_mem _ hv)

theorem splitCall_find (hproper : F.Proper) (hF : F.blocks = cut.blocks id) {B : Block}
    (hB : B ∈ (F.splitCall id cut).blocks) :
    (F.splitCall id cut).blocks.find? (fun B' => B'.label = B.label) = some B :=
  find_label (splitCall_proper hproper hF).labels_nodup hB rfl

-- The phi behind the two calls takes the result of the one that was made.
theorem splitRel_merged (hR : SplitRel F id cut ρ ρ') {i : Nat} {l : Label}
    {ρ₂ : Nat → Word} (hcase : i = F.next + 7 ∧ l = F.next + 4 ∨ i = F.next + 8 ∧ l = F.next + 5)
    (hkept : ∀ k < F.next, ρ₂ k = ρ' k) :
    SplitRel F id cut (Function.update ρ id (ρ₂ i))
      (T.assign ρ₂ l (mergedCall (splitCallee F id cut) (fresh F.next)) ρ₂) := by
  have hvoid : (splitCallee F id cut).isVoid = cut.call.isVoid := rfl
  rw [mergedCall, hvoid]
  refine ⟨fun k hk hid => ?_, fun hresult => ?_⟩
  · rw [Function.update_of_ne hid, ← hR.kept k hk hid, ← hkept k hk]
    split
    · rfl
    · exact Function.update_of_ne (by change k ≠ F.next + 9; omega) _ _
  · rw [Function.update_self, if_neg (by rw [hresult]; exact Bool.false_ne_true)]
    have hphi : T.phiValue ρ₂ l (.phi [(.reg (F.next + 7), F.next + 4),
        (.reg (F.next + 8), F.next + 5)]) = ρ₂ i := by
      rcases hcase with ⟨rfl, rfl⟩ | ⟨rfl, rfl⟩
      · simp [Machine.phiValue, Machine.eval]
      · simp [Machine.phiValue, Machine.eval]
    exact (Function.update_self _ _ _).trans hphi

-- From one of the two calls to the code behind them.
theorem steps_branch (hproper : F.Proper) (hF : F.blocks = cut.blocks id)
    (hplain : ∀ k, F.next ≤ k → modes' k = .plain) {i b : Nat} {l : Label} {d : CallBase}
    (hcase : i = F.next + 7 ∧ l = F.next + 4 ∧ b = F.next + 10 ∨
      i = F.next + 8 ∧ l = F.next + 5 ∧ b = F.next + 11)
    (hR : SplitRel F id cut ρ ρ') (x : Word) (w : σ) :
    ∃ ρ₁, T.Steps modes' (F.splitCall id cut)
        ⟨l, [⟨i, .call d⟩, ⟨b, .br (F.next + 6)⟩], ρ', x, w⟩
        ⟨F.next + 6, cut.post.map (splitMap F id cut), ρ₁, 0, (T.callAs .plain d ρ' x w).2⟩ ∧
      SplitRel F id cut (Function.update ρ id (T.callAs .plain d ρ' x w).1) ρ₁ := by
  have hmode : modes' i = .plain := hplain i (by omega)
  let v := (T.callAs .plain d ρ' x w).1
  let ρ₂ := Function.update (Function.update ρ' i v) b 0
  have hcall : T.step modes' (F.splitCall id cut)
      ⟨l, [⟨i, .call d⟩, ⟨b, .br (F.next + 6)⟩], ρ', x, w⟩ =
      some ⟨l, [⟨b, .br (F.next + 6)⟩], Function.update ρ' i v, 0, (T.callAs .plain d ρ' x w).2⟩ := by
    rw [Machine.step_next rfl rfl]
    simp only [hmode]
    rfl
  have hfind := splitCall_find hproper hF
    (mem_splitCall_blocks.mpr (.inr (.inr (.inl rfl))) : afterBlock F id cut ∈ _)
  have hbr : T.step modes' (F.splitCall id cut)
      ⟨l, [⟨b, .br (F.next + 6)⟩], Function.update ρ' i v, 0, (T.callAs .plain d ρ' x w).2⟩ =
      some ⟨F.next + 6, cut.post.map (splitMap F id cut),
        T.assign ρ₂ l (mergedCall (splitCallee F id cut) (fresh F.next)) ρ₂, 0,
        (T.callAs .plain d ρ' x w).2⟩ := by
    rw [Machine.step_jump rfl rfl]
    refine (Machine.enter_of_find hfind _ _ _ _).trans ?_
    rw [(afterBlock_phis hproper hF).1, (afterBlock_phis hproper hF).2]
    rfl
  refine ⟨_, .head hcall (.single hbr), ?_⟩
  have hkept : ∀ k < F.next, ρ₂ k = ρ' k := by
    intro k hk
    exact (Function.update_of_ne (show k ≠ b by omega) _ _).trans
      (Function.update_of_ne (show k ≠ i by omega) _ _)
  have hresult : ρ₂ i = v :=
    (Function.update_of_ne (show i ≠ b by omega) _ _).trans (Function.update_self _ _ _)
  change SplitRel F id cut (Function.update ρ id v) _
  rw [← hresult]
  refine splitRel_merged hR ?_ hkept
  rcases hcase with ⟨hi, hl, -⟩ | ⟨hi, hl, -⟩
  · exact .inl ⟨hi, hl⟩
  · exact .inr ⟨hi, hl⟩

-- From the first check to the branch on their outcome.
theorem steps_compare (hproper : F.Proper) (hF : F.blocks = cut.blocks id)
    (hR : SplitRel F id cut ρ ρ') (r11 : Word) (w : σ) :
    ∃ ρ₁, SplitRel F id cut ρ ρ₁ ∧
      ∀ c, T.enter (F.splitCall id cut) cut.label
          (if T.mask (T.eval ρ cut.call.callee) = T.eval ρ cut.call.callee then F.next + 4
            else F.next + 5) ρ₁ (T.eval ρ cut.call.callee) w = some c →
        T.Steps modes' (F.splitCall id cut) ⟨cut.label, splitChecks F id cut, ρ', r11, w⟩ c := by
  let target := splitUses F id cut cut.call.callee
  let x := T.eval ρ cut.call.callee
  have htarget {ρ' : Nat → Word} (hR : SplitRel F id cut ρ ρ') : T.eval ρ' target = x :=
    hR.eval hproper hF (call_mem hF) List.mem_cons_self
  let ρ₁ := Function.update ρ' F.next 0
  let ρ₂ := Function.update ρ₁ (F.next + 1) (T.mask x)
  let ρ₃ := Function.update ρ₂ (F.next + 2) (if x = T.mask x then 1 else 0)
  let ρ₄ := Function.update ρ₃ (F.next + 3) 0
  have hR₁ : SplitRel F id cut ρ ρ₁ := hR.fresh 0 (by decide) _
  have hR₂ : SplitRel F id cut ρ ρ₂ := hR₁.fresh 1 (by decide) _
  have hR₃ : SplitRel F id cut ρ ρ₃ := hR₂.fresh 2 (by decide) _
  have hmov : T.step modes' (F.splitCall id cut)
      ⟨cut.label, splitChecks F id cut, ρ', r11, w⟩ =
      some ⟨cut.label, (splitChecks F id cut).drop 1, ρ₁, x, w⟩ := by
    rw [← htarget hR]
    exact Machine.step_next rfl rfl
  have hor : T.step modes' (F.splitCall id cut)
      ⟨cut.label, (splitChecks F id cut).drop 1, ρ₁, x, w⟩ =
      some ⟨cut.label, (splitChecks F id cut).drop 2, ρ₂, x, w⟩ := by
    refine (Machine.step_next rfl rfl).trans ?_
    change some (⟨_, _, Function.update ρ₁ (F.next + 1) (T.mask (T.eval ρ₁ target)), x, w⟩ :
      Config σ) = _
    rw [htarget hR₁]
    rfl
  have hcmp : T.step modes' (F.splitCall id cut)
      ⟨cut.label, (splitChecks F id cut).drop 2, ρ₂, x, w⟩ =
      some ⟨cut.label, (splitChecks F id cut).drop 3, ρ₃, x, w⟩ := by
    refine (Machine.step_next rfl rfl).trans ?_
    change some (⟨_, _, Function.update ρ₂ (F.next + 2)
      (if T.eval ρ₂ target = ρ₂ (F.next + 1) then 1 else 0), x, w⟩ : Config σ) = _
    have hmask : ρ₂ (F.next + 1) = T.mask x := Function.update_self _ _ _
    rw [htarget hR₂, hmask]
    rfl
  have hbr : T.step modes' (F.splitCall id cut)
      ⟨cut.label, (splitChecks F id cut).drop 3, ρ₃, x, w⟩ =
      T.enter (F.splitCall id cut) cut.label
        (if T.mask x = x then F.next + 4 else F.next + 5) ρ₄ x w := by
    refine (Machine.step_jump rfl rfl).trans ?_
    change T.enter _ _ (if ρ₃ (F.next + 2) = 1 then F.next + 4 else F.next + 5) ρ₄ x w = _
    have hflag : ρ₃ (F.next + 2) = if x = T.mask x then 1 else 0 := Function.update_self _ _ _
    rw [hflag]
    by_cases hx : T.mask x = x
    · rw [if_pos hx.symm, if_pos rfl, if_pos hx]
    · rw [if_neg (Ne.symm hx), if_neg (by decide), if_neg hx]
  refine ⟨ρ₄, hR₃.fresh 3 (by decide) _, fun c hc => ?_⟩
  exact .head hmov (.head hor (.head hcmp (.single (hbr.trans hc))))

-- The two calls are those of the guarded one.

theorem SplitRel.callAs_taken (hR : SplitRel F id cut ρ ρ') (hproper : F.Proper)
    (hF : F.blocks = cut.blocks id) (habi : cut.call.IsPlain)
    (hx : T.mask (T.eval ρ cut.call.callee) = T.eval ρ cut.call.callee) (r11 : Word) (w : σ) :
    T.callAs .plain (splitCallee F id cut) ρ' (T.eval ρ cut.call.callee) w =
      T.callAs .guarded cut.call ρ r11 w := by
  have htarget : T.eval ρ' (splitUses F id cut cut.call.callee) = T.eval ρ cut.call.callee :=
    hR.eval hproper hF (call_mem hF) List.mem_cons_self
  have hguarded : T.callAs .guarded cut.call ρ r11 w =
      T.call cut.call.abi (T.eval ρ cut.call.callee) (cut.call.args.map (T.eval ρ))
        (T.eval ρ cut.call.callee) w := if_pos hx
  have htype : cut.call.abi.functionType = cut.call.argsType := congrArg Abi.functionType habi
  have hcallee : (splitCallee F id cut).abi = cut.call.abi := by
    change (⟨cut.call.abi.functionType, 0, []⟩ : Abi) = _
    rw [htype]
    exact habi.symm
  rw [hguarded, ← hcallee, ← hR.args hproper hF]
  exact congrArg (fun x => T.call _ x _ _ w) htarget

-- The call that the split makes of the dispatcher.
def tableBase (c : CallBase) : CallBase :=
  { c.withType c.argsType with callee := .function Table.callback.name, typeMatches := true }

theorem SplitRel.callAs_table (hR : SplitRel F id cut ρ ρ') (hproper : F.Proper)
    (hF : F.blocks = cut.blocks id) (habi : cut.call.IsPlain)
    (hx : T.mask (T.eval ρ cut.call.callee) ≠ T.eval ρ cut.call.callee) (r11 : Word) (w : σ) :
    T.callAs .plain (tableBase (splitCallee F id cut)) ρ' (T.eval ρ cut.call.callee) w =
      T.callAs .guarded cut.call ρ r11 w := by
  have hguarded : T.callAs .guarded cut.call ρ r11 w =
      T.call cut.call.abi T.tableVA (cut.call.args.map (T.eval ρ)) (T.eval ρ cut.call.callee) w :=
    if_neg hx
  rw [hguarded, habi, ← hR.args hproper hF]
  rfl

theorem steps_checks (hproper : F.Proper) (hF : F.blocks = cut.blocks id)
    (hplain : ∀ k, F.next ≤ k → modes' k = .plain) (habi : cut.call.IsPlain)
    (hR : SplitRel F id cut ρ ρ') (r11 : Word) (w : σ) :
    ∃ ρ₁, T.Steps modes' (F.splitCall id cut) ⟨cut.label, splitChecks F id cut, ρ', r11, w⟩
        ⟨F.next + 6, cut.post.map (splitMap F id cut), ρ₁, 0,
          (T.callAs .guarded cut.call ρ r11 w).2⟩ ∧
      SplitRel F id cut (Function.update ρ id (T.callAs .guarded cut.call ρ r11 w).1) ρ₁ := by
  obtain ⟨ρ₁, hR₁, hcompare⟩ := steps_compare (T := T) hproper hF hR r11 w
  by_cases hx : T.mask (T.eval ρ cut.call.callee) = T.eval ρ cut.call.callee
  · have hfind := splitCall_find hproper hF
      (mem_splitCall_blocks.mpr (.inr (.inr (.inr (.inl rfl)))) : callBlock F id cut ∈ _)
    obtain ⟨ρ₂, hsteps, hR₂⟩ := steps_branch (T := T) hproper hF hplain (.inl ⟨rfl, rfl, rfl⟩)
      (d := splitCallee F id cut) hR₁ (T.eval ρ cut.call.callee) w
    rw [hR₁.callAs_taken hproper hF habi hx r11] at hsteps hR₂
    rw [if_pos hx] at hcompare
    exact ⟨ρ₂, (hcompare _ (Machine.enter_of_find hfind _ _ _ _)).trans hsteps, hR₂⟩
  · have hfind := splitCall_find hproper hF
      (mem_splitCall_blocks.mpr (.inr (.inr (.inr (.inr rfl)))) : skipBlock F id cut ∈ _)
    obtain ⟨ρ₂, hsteps, hR₂⟩ := steps_branch (T := T) hproper hF hplain (.inr ⟨rfl, rfl, rfl⟩)
      (d := tableBase (splitCallee F id cut)) hR₁ (T.eval ρ cut.call.callee) w
    rw [hR₁.callAs_table hproper hF habi hx r11] at hsteps hR₂
    rw [if_neg hx] at hcompare
    exact ⟨ρ₂, (hcompare _ (Machine.enter_of_find hfind _ _ _ _)).trans hsteps, hR₂⟩

theorem relabel_away {N : Fresh} {l : Label} (h : l ≠ cut.label) : cut.relabel N l = l := if_neg h

theorem relabel_self (N : Fresh) : cut.relabel N cut.label = N.afterCall := if_pos rfl

theorem relabel_injective {l l' : Label} (hl : l < F.next) (hl' : l' < F.next)
    (h : cut.relabel (fresh F.next) l = cut.relabel (fresh F.next) l') : l = l' := by
  have hafter : (fresh F.next).afterCall = F.next + 6 := rfl
  have hfresh (k : Label) (hk : k < F.next) : k ≠ F.next + 6 :=
    fun heq => absurd hk (heq ▸ Nat.not_lt.mpr (Nat.le_add_right _ _))
  unfold Cut.relabel at h
  rw [hafter] at h
  split at h
  · rename_i heq
    split at h
    · rename_i heq'
      rw [heq, heq']
    · exact absurd h.symm (hfresh l' hl')
  · split at h
    · exact absurd h (hfresh l hl)
    · exact h

theorem splitCall_expands (hproper : F.Proper) (hF : F.blocks = cut.blocks id)
    (hplain : ∀ k, F.next ≤ k → modes' k = .plain) (hsame : ∀ k < F.next, k ≠ id → modes' k = modes k)
    (hmode : modes id = .guarded) (habi : cut.call.IsPlain) :
    Expands T F (F.splitCall id cut) modes modes' id cut (splitUses F id cut)
      (cut.relabel (fresh F.next)) (SplitRel F id cut) (splitChecks F id cut) where
  proper := hproper
  blocks := hF
  same := hsame
  start := ⟨fun _ _ _ => rfl, fun _ => rfl⟩
  eval _ _ hR _ hI _ hv := hR.eval hproper hF hI hv
  update _ _ hR _ hk hid x := hR.update hk hid x
  source _ hl _ hl' h := relabel_injective hl hl' h
  away _ h := relabel_away h
  others B hB hlabel := by
    refine splitCall_find hproper hF (mem_splitCall_blocks.mpr (.inl ⟨B, ?_, rfl⟩))
    rcases (mem_blocks_cut hF).mp hB with hB | rfl | hB
    · exact .inl hB
    · exact absurd rfl hlabel
    · exact .inr hB
  orig := splitCall_find hproper hF
    (mem_splitCall_blocks.mpr (.inr (.inl rfl)) : origBlock F id cut ∈ _)
  entry := by
    rw [splitCall_blocks, hF, Cut.blocks]
    cases hbefore : cut.before with
    | nil => exact congrArg some (if_pos rfl).symm
    | cons B Bs =>
      have hne : B.label ≠ cut.label :=
        before_label_ne hproper hF (hbefore ▸ List.mem_cons_self)
      exact congrArg some (if_neg hne).symm
  starts := splitChecks_starts F id cut
  call ρ ρ' r11 w hR := by
    rw [hmode, relabel_self]
    exact steps_checks hproper hF hplain habi hR r11 w

end Split

section Normal

def NormalRel (F : Func) (ρ ρ' : Nat → Word) : Prop := ∀ k < F.next, ρ' k = ρ k

theorem NormalRel.fresh (h : NormalRel F ρ ρ') (j : Nat) (x : Word) :
    NormalRel F ρ (Function.update ρ' (F.next + j) x) := by
  intro k hk
  rw [Function.update_of_ne (by omega)]
  exact h k hk

theorem NormalRel.update (h : NormalRel F ρ ρ') (k : Nat) (x : Word) :
    NormalRel F (Function.update ρ k x) (Function.update ρ' k x) := by
  intro i hi
  by_cases hik : i = k
  · rw [hik, Function.update_self, Function.update_self]
  · rw [Function.update_of_ne hik, Function.update_of_ne hik]
    exact h i hi

theorem NormalRel.eval (hR : NormalRel F ρ ρ') (hproper : F.Proper) {I : Instr} (hI : I ∈ F.ops)
    {v : Value} (hv : v ∈ I.op.operands) : T.eval ρ' v = T.eval ρ v := by
  cases v with
  | reg k => exact hR k (hproper.operands_lt I hI k hv)
  | _ => rfl

-- From the start of the masking to the call.
theorem steps_mask (hproper : F.Proper) (hF : F.blocks = cut.blocks id)
    (hR : NormalRel F ρ ρ') (r11 : Word) (w : σ) :
    ∃ ρ₁, T.Steps modes' (F.instrumentNormalCase id cut)
        ⟨cut.label, maskedCode F id cut, ρ', r11, w⟩
        ⟨cut.label, maskedCall F id cut :: cut.post, ρ₁, r11, w⟩ ∧
      NormalRel F ρ ρ₁ ∧
      ρ₁ (F.next + 3) = (T.eval ρ cut.call.callee ||| T.const orMask) &&& T.const andMask := by
  let x := T.eval ρ cut.call.callee
  have hx : T.eval ρ' cut.call.callee = x := hR.eval hproper (call_mem hF) List.mem_cons_self
  let ρ₁ := Function.update ρ' F.next x
  let ρ₂ := Function.update ρ₁ (F.next + 1) (x ||| T.const orMask)
  let ρ₃ := Function.update ρ₂ (F.next + 2) ((x ||| T.const orMask) &&& T.const andMask)
  let ρ₄ := Function.update ρ₃ (F.next + 3) ((x ||| T.const orMask) &&& T.const andMask)
  have hptr : T.step modes' (F.instrumentNormalCase id cut)
      ⟨cut.label, maskedCode F id cut, ρ', r11, w⟩ =
      some ⟨cut.label, (maskedCode F id cut).drop 1, ρ₁, r11, w⟩ := by
    refine (Machine.step_next rfl rfl).trans ?_
    change some (⟨_, _, Function.update ρ' F.next (T.eval ρ' cut.call.callee), r11, w⟩ :
      Config σ) = _
    rw [hx]
    rfl
  have hor : T.step modes' (F.instrumentNormalCase id cut)
      ⟨cut.label, (maskedCode F id cut).drop 1, ρ₁, r11, w⟩ =
      some ⟨cut.label, (maskedCode F id cut).drop 2, ρ₂, r11, w⟩ := by
    refine (Machine.step_next rfl rfl).trans ?_
    change some (⟨_, _, Function.update ρ₁ (F.next + 1) (ρ₁ F.next ||| T.const orMask), r11, w⟩ :
      Config σ) = _
    have hvalue : ρ₁ F.next = x := Function.update_self _ _ _
    rw [hvalue]
    rfl
  have hand : T.step modes' (F.instrumentNormalCase id cut)
      ⟨cut.label, (maskedCode F id cut).drop 2, ρ₂, r11, w⟩ =
      some ⟨cut.label, (maskedCode F id cut).drop 3, ρ₃, r11, w⟩ := by
    refine (Machine.step_next rfl rfl).trans ?_
    change some (⟨_, _, Function.update ρ₂ (F.next + 2) (ρ₂ (F.next + 1) &&& T.const andMask), r11,
      w⟩ : Config σ) = _
    have hvalue : ρ₂ (F.next + 1) = (x ||| T.const orMask) := Function.update_self _ _ _
    rw [hvalue]
    rfl
  have hint : T.step modes' (F.instrumentNormalCase id cut)
      ⟨cut.label, (maskedCode F id cut).drop 3, ρ₃, r11, w⟩ =
      some ⟨cut.label, maskedCall F id cut :: cut.post, ρ₄, r11, w⟩ := by
    refine (Machine.step_next rfl rfl).trans ?_
    change some (⟨_, _, Function.update ρ₃ (F.next + 3) (ρ₃ (F.next + 2)), r11, w⟩ :
      Config σ) = _
    have hvalue : ρ₃ (F.next + 2) = ((x ||| T.const orMask) &&& T.const andMask) :=
      Function.update_self _ _ _
    rw [hvalue]
    rfl
  exact ⟨ρ₄, .head hptr (.head hor (.head hand (.single hint))),
    (((hR.fresh 0 _).fresh 1 _).fresh 2 _).fresh 3 _, Function.update_self _ _ _⟩

theorem NormalRel.callAs_masked (hR : NormalRel F ρ ρ') (hproper : F.Proper)
    (hF : F.blocks = cut.blocks id)
    (hvalue : ρ' (F.next + 3) =
      (T.eval ρ cut.call.callee ||| T.const orMask) &&& T.const andMask) (r11 : Word) (w : σ) :
    T.callAs .plain { cut.call with callee := .reg (F.next + 3) } ρ' r11 w =
      T.callAs .masked cut.call ρ r11 w := by
  have hargs : cut.call.args.map (T.eval ρ') = cut.call.args.map (T.eval ρ) :=
    List.map_congr_left fun v hv => hR.eval hproper (call_mem hF) (List.mem_cons_of_mem _ hv)
  change T.call cut.call.abi (ρ' (F.next + 3)) (cut.call.args.map (T.eval ρ')) r11 w = _
  rw [hargs, hvalue]
  rfl

theorem steps_masking (hproper : F.Proper) (hF : F.blocks = cut.blocks id)
    (hmode : modes' id = .plain) (hR : NormalRel F ρ ρ') (r11 : Word) (w : σ) :
    ∃ ρ₁, T.Steps modes' (F.instrumentNormalCase id cut)
        ⟨cut.label, maskedCode F id cut, ρ', r11, w⟩
        ⟨cut.label, cut.post, ρ₁, 0, (T.callAs .masked cut.call ρ r11 w).2⟩ ∧
      NormalRel F (Function.update ρ id (T.callAs .masked cut.call ρ r11 w).1) ρ₁ := by
  obtain ⟨ρ₁, hsteps, hR₁, hvalue⟩ := steps_mask (T := T) hproper hF hR r11 w
  have hcall : T.step modes' (F.instrumentNormalCase id cut)
      ⟨cut.label, maskedCall F id cut :: cut.post, ρ₁, r11, w⟩ =
      some ⟨cut.label, cut.post,
        Function.update ρ₁ id (T.callAs .masked cut.call ρ r11 w).1, 0,
        (T.callAs .masked cut.call ρ r11 w).2⟩ := by
    refine (Machine.step_next rfl rfl).trans ?_
    change some (⟨_, _, Function.update ρ₁ id
      (T.callAs (modes' id) { cut.call with callee := .reg (F.next + 3) } ρ₁ r11 w).1, 0,
      (T.callAs (modes' id) { cut.call with callee := .reg (F.next + 3) } ρ₁ r11 w).2⟩ :
      Config σ) = _
    rw [hmode, hR₁.callAs_masked hproper hF hvalue]
  exact ⟨_, hsteps.tail hcall, hR₁.update _ _⟩

theorem normalCase_find (hproper : F.Proper) (hF : F.blocks = cut.blocks id) {B : Block}
    (hB : B ∈ (F.instrumentNormalCase id cut).blocks) :
    (F.instrumentNormalCase id cut).blocks.find? (fun B' => B'.label = B.label) = some B :=
  find_label (normalCase_proper hproper hF).labels_nodup hB rfl

theorem normalCase_expands (hproper : F.Proper) (hF : F.blocks = cut.blocks id)
    (hplain : modes' id = .plain) (hsame : ∀ k < F.next, k ≠ id → modes' k = modes k)
    (hmode : modes id = .masked) :
    Expands T F (F.instrumentNormalCase id cut) modes modes' id cut (fun v => v) (fun l => l)
      (NormalRel F) (maskedCode F id cut) where
  proper := hproper
  blocks := hF
  same := hsame
  start _ _ := rfl
  eval _ _ hR _ hI _ hv := hR.eval hproper hI hv
  update _ _ hR k _ _ x := hR.update k x
  source _ _ _ _ h := h
  away _ _ := rfl
  others B hB hlabel := by
    rw [Block.map_id]
    refine normalCase_find hproper hF ?_
    rw [normalCase_blocks, List.mem_append, List.mem_cons]
    rcases (mem_blocks_cut hF).mp hB with hB | rfl | hB
    · exact .inl hB
    · exact absurd rfl hlabel
    · exact .inr (.inr hB)
  orig := by
    rw [List.map_id'' Instr.map_id]
    refine normalCase_find hproper hF (?_ : maskedBlock F id cut ∈ _)
    rw [normalCase_blocks]
    exact List.mem_append_right _ List.mem_cons_self
  entry := by
    rw [normalCase_blocks, hF, Cut.blocks, List.map_id'' Instr.map_id]
    cases hbefore : cut.before with
    | nil => exact congrArg some (if_pos rfl).symm
    | cons B Bs =>
      have hne : B.label ≠ cut.label :=
        before_label_ne hproper hF (hbefore ▸ List.mem_cons_self)
      rw [List.cons_append, List.cons_append, List.head?_cons, List.head?_cons, Option.map_some,
        if_neg hne, Block.map_id]
  starts := maskedCode_starts F id cut
  call ρ ρ' r11 w hR := by
    rw [hmode, List.map_id'' Instr.map_id]
    exact steps_masking hproper hF hplain hR r11 w

end Normal

namespace Analysis

variable (A : Analysis)

-- What becomes of the call of a cut in a function that has no table of its own.
def modeOf (F : Func) (cut : Cut) : Mode :=
  match A.reportStructOriginOfIndirCalls F cut.call.callee with
  | none => .plain
  | some .readOnly => .plain
  | some rtld_glob => if A.needsSplit F cut.call.callee rtld_glob then .guarded else .masked

def candidateMode (st : RunState) (id : Nat) : Mode :=
  match cutBlocks id st.func.blocks with
  | none => .plain
  | some cut => A.modeOf st.func cut

-- The modes of all candidates, each as the loop decides when it comes to the call.
def callModes : RunState → List Nat → Nat → Mode
  | _, [] => fun _ => .plain
  | st, id :: ids =>
    match A.rewriteCandidate st id with
    | none => fun _ => .plain
    | some st' => Function.update (callModes st' ids) id (A.candidateMode st id)

variable {A}

theorem callModes_cons {st st' : RunState} {id : Nat} (h : A.rewriteCandidate st id = some st')
    (ids : List Nat) :
    A.callModes st (id :: ids) = Function.update (A.callModes st' ids) id (A.candidateMode st id) := by
  rw [callModes, h]

theorem callModes_of_not_mem {st : RunState} {ids : List Nat} {k : Nat} (h : k ∉ ids) :
    A.callModes st ids k = .plain := by
  induction ids generalizing st with
  | nil => rfl
  | cons id ids ih =>
    rw [List.mem_cons, not_or] at h
    cases hst : A.rewriteCandidate st id with
    | none => rw [callModes, hst]
    | some st' =>
      rw [callModes_cons hst, Function.update_of_ne h.1]
      exact ih h.2

-- What one round does to a function without a table of its own.
inductive Round (A : Analysis) (st : RunState) (id : Nat) (F' : Func) : Prop
  | kept (hfunc : F' = st.func) (hmode : A.candidateMode st id = .plain)
  | split (cut : Cut) (hcut : st.func.blocks = cut.blocks id) (hfunc : F' = st.func.splitCall id cut)
      (hmode : A.candidateMode st id = .guarded)
  | normal (cut : Cut) (hcut : st.func.blocks = cut.blocks id)
      (hfunc : F' = st.func.instrumentNormalCase id cut) (hmode : A.candidateMode st id = .masked)

theorem modeOf_eq {F : Func} {cut : Cut} {rtld_glob : Origin}
    (horigin : A.reportStructOriginOfIndirCalls F cut.call.callee = some rtld_glob)
    (hother : rtld_glob ≠ .readOnly) :
    A.modeOf F cut = if A.needsSplit F cut.call.callee rtld_glob then .guarded else .masked := by
  rw [modeOf, horigin]
  cases rtld_glob with
  | readOnly => exact absurd rfl hother
  | unknown => rfl
  | struct => rfl

theorem round_of_rewriteCandidate {st st' : RunState} {id : Nat} (htable : A.tableOf st.func = none)
    (h : A.rewriteCandidate st id = some st') : Round A st id st'.func := by
  rcases A.candidateRound h with ⟨hcut, rfl⟩ | ⟨cut, hcut, hround⟩
  · exact .kept rfl (by rw [candidateMode, hcut])
  · have hblocks := cutBlocks_some hcut
    have hmode : A.candidateMode st id = A.modeOf st.func cut := by
      rw [candidateMode, hcut]
    cases hround with
    | table table hsome =>
      rw [htable] at hsome
      cases hsome
    | skipped _ horigin => exact .kept rfl (by rw [hmode, modeOf, horigin])
    | split _ rtld_glob horigin hother hsplit =>
      rw [modeOf_eq horigin hother, hsplit] at hmode
      exact .split cut hblocks rfl hmode
    | normal _ rtld_glob horigin hother hsplit =>
      rw [modeOf_eq horigin hother, hsplit] at hmode
      exact .normal cut hblocks rfl hmode

-- What the later rounds rely on.
theorem Round.next {st : RunState} {id : Nat} {F' : Func} (h : Round A st id F')
    (hproper : st.func.Proper) :
    F'.Proper ∧ F'.name = st.func.name ∧ st.func.next ≤ F'.next ∧
      ∀ i c, i < st.func.next → i ≠ id → (⟨i, .call c⟩ : Instr) ∈ F'.ops →
        ∃ c₀, (⟨i, .call c₀⟩ : Instr) ∈ st.func.ops ∧ c.abi = c₀.abi ∧ c.argTypes = c₀.argTypes := by
  cases h with
  | kept hfunc hmode =>
    subst hfunc
    exact ⟨hproper, rfl, Nat.le_refl _, fun i c _ _ hc => ⟨c, hc, rfl, rfl⟩⟩
  | split cut hcut hfunc hmode =>
    subst hfunc
    refine ⟨splitCall_proper hproper hcut, rfl, Nat.le_add_right _ _, fun i c hi hne hc => ?_⟩
    rcases splitCall_calls hproper hcut hc with ⟨c₀, hc₀, -, habi⟩ | ⟨hfresh, -⟩
    · exact ⟨c₀, hc₀, habi⟩
    · omega
  | normal cut hcut hfunc hmode =>
    subst hfunc
    refine ⟨normalCase_proper hproper hcut, rfl, Nat.le_add_right _ _, fun i c hi hne hc => ?_⟩
    rcases mem_normalCase_ops hc with hmem | heq | hmem
    · exact absurd rfl ((masking_plain hmem).2.2 c)
    · exact absurd (congrArg Instr.id heq) hne
    · exact ⟨c, mem_ops_of_others hcut hmem, rfl, rfl⟩

theorem Round.simulates {st st' : RunState} {id : Nat} {ids : List Nat}
    (h : Round A st id st'.func) (hrewrite : A.rewriteCandidate st id = some st')
    (hproper : st.func.Proper) (hid : id ∉ ids) (hlt : ∀ i ∈ ids, i < st.func.next)
    (habi : A.candidateMode st id = .guarded → ∀ c, (⟨id, .call c⟩ : Instr) ∈ st.func.ops →
      c.IsPlain) :
    T.Simulates (A.callModes st (id :: ids)) st.func (A.callModes st' ids) st'.func := by
  have hmodes := callModes_cons hrewrite ids
  have hself : A.callModes st (id :: ids) id = A.candidateMode st id := by
    rw [hmodes, Function.update_self]
  have hsame : ∀ k < st.func.next, k ≠ id → A.callModes st' ids k = A.callModes st (id :: ids) k := by
    intro k _ hk
    rw [hmodes, Function.update_of_ne hk]
  cases h with
  | kept hfunc hmode =>
    have heq : A.callModes st (id :: ids) = A.callModes st' ids := by
      rw [hmodes, Function.update_eq_self_iff, hmode, callModes_of_not_mem hid]
    rw [heq, hfunc]
    exact .refl T _ _
  | split cut hcut hfunc hmode =>
    rw [hfunc]
    refine (splitCall_expands hproper hcut (fun k hk => ?_) hsame (hself.trans hmode)
      (habi hmode _ (call_mem hcut))).simulates
    exact callModes_of_not_mem fun hmem => absurd (hlt k hmem) (Nat.not_lt.mpr hk)
  | normal cut hcut hfunc hmode =>
    rw [hfunc]
    exact (normalCase_expands hproper hcut (callModes_of_not_mem hid) hsame
      (hself.trans hmode)).simulates

theorem foldlM_simulates (ids : List Nat) {st st' : RunState} (hproper : st.func.Proper)
    (htable : A.tableOf st.func = none) (hnodup : ids.Nodup) (hlt : ∀ i ∈ ids, i < st.func.next)
    (habi : ∀ i ∈ ids, A.callModes st ids i = .guarded →
      ∀ c, (⟨i, .call c⟩ : Instr) ∈ st.func.ops → c.IsPlain)
    (h : ids.foldlM A.rewriteCandidate st = some st') :
    T.Simulates (A.callModes st ids) st.func (fun _ => .plain) st'.func := by
  induction ids generalizing st with
  | nil =>
    cases h
    exact .refl T _ _
  | cons id ids ih =>
    rw [List.foldlM_cons] at h
    obtain ⟨st₁, hrewrite, hrest⟩ := Option.bind_eq_some_iff.mp h
    rw [List.nodup_cons] at hnodup
    have hround := round_of_rewriteCandidate htable hrewrite
    obtain ⟨hproper₁, hname, hnext, hcalls⟩ := hround.next hproper
    have hmodes := callModes_cons hrewrite ids
    have hids : ∀ i ∈ ids, i < st.func.next := fun i hi => hlt i (List.mem_cons_of_mem _ hi)
    have hfirst : T.Simulates (A.callModes st (id :: ids)) st.func (A.callModes st₁ ids) st₁.func := by
      refine hround.simulates hrewrite hproper hnodup.1 hids fun hmode => ?_
      refine habi id List.mem_cons_self ?_
      rw [hmodes, Function.update_self]
      exact hmode
    refine hfirst.trans T (ih hproper₁ ?_ hnodup.2 ?_ ?_ hrest)
    · unfold tableOf at htable ⊢
      rw [hname]
      exact htable
    · exact fun i hi => (hids i hi).trans_le hnext
    · intro i hi hmode c hc
      have hne : i ≠ id := fun heq => hnodup.1 (heq ▸ hi)
      obtain ⟨c₀, hc₀, habi₀, hargs⟩ := hcalls i c (hids i hi) hne hc
      rw [CallBase.IsPlain, CallBase.argsType, habi₀, hargs]
      refine habi i (List.mem_cons_of_mem _ hi) ?_ c₀ hc₀
      rw [hmodes, Function.update_of_ne hne]
      exact hmode

-- Every run of a function in which the pass rewrites calls is one of the function it leaves
-- behind: a call that is split goes to its target or to the dispatcher, with the target in r11,
-- and its result goes on to all uses.
theorem run_simulates (A : Analysis) (m : Module) (sts : List RunState) (hskips : A.skips m = false)
    (hrun : A.run m = some sts) (i : Nat) (F : Func) (st : RunState)
    (hF : m.functions[i]? = some F) (hst : sts[i]? = some st) (hexempt : F.name ∉ exempt)
    (htable : A.tableOf F = none) (hproper : F.Proper)
    (habi : ∀ id c, (⟨id, .call c⟩ : Instr) ∈ F.ops → A.callModes ⟨F, []⟩ F.candidates id = .guarded →
      c.IsPlain) (σ : Type) (T : Machine σ) :
    T.Simulates (A.callModes ⟨F, []⟩ F.candidates) F (fun _ => .plain) st.func := by
  rw [run, if_neg (by rw [hskips]; exact Bool.false_ne_true)] at hrun
  have hfunc := getElem?_mapM _ i hrun hF hst
  rw [runFunction, if_neg hexempt] at hfunc
  refine foldlM_simulates F.candidates hproper htable hproper.candidates_nodup ?_ ?_ hfunc
  · intro k hk
    obtain ⟨c, hc, -⟩ := mem_candidates.mp hk
    exact hproper.ids_lt _ hc
  · exact fun k _ hmode c hc => habi k c hc hmode

end Analysis

-- A machine that writes down the calls, with their conventions, arguments and r11.

abbrev CallLog := List (Abi × Word × List Word × Word)

def logMachine : Machine CallLog where
  const
    | .argument argNo => .ofNat 64 argNo
    | .function _ => 0x1000
    | _ => 0
  or_mask := 0x100
  and_mask := 0x1ff
  call abi x args r11 w := (x + 1, w ++ [(abi, x, args, r11)])
  exec _ _ w := (0, w, 0)

def splitAnalysis : Analysis :=
  { plainAnalysis with collectCallbackMaybeFunctions := ["twice".toList] }

def twiceCall (target arg : Value) (attributes : List (Nat × Name)) : CallBase where
  callee := target
  args := [arg]
  argTypes := [1]
  abi := ⟨⟨1, [1], false⟩, 0, attributes⟩

-- A function that calls its argument, and then the result of this call on itself.
def twice (attributes : List (Nat × Name)) : Func where
  name := "twice".toList
  blocks := [⟨0, [⟨1, .call (twiceCall (.argument 0x123) (.argument 2) attributes)⟩,
    ⟨2, .call (twiceCall (.reg 1) (.reg 1) attributes)⟩, ⟨3, .other 0 [.reg 2] []⟩]⟩]
  next := 4

def twiceModule (attributes : List (Nat × Name)) : Module where
  identifier := "twice.c".toList
  sourceFileName := "twice.c".toList
  functions := [twice attributes]

theorem twice_proper (attributes : List (Nat × Name)) : (twice attributes).Proper where
  labels_nodup := List.nodup_singleton 0
  labels_lt := by simp [twice]
  ids_nodup := by simp [twice, Func.ops]
  ids_lt := by simp [twice, Func.ops]
  operands_lt := by simp [twice, twiceCall, Func.ops, Op.operands]
  incoming_lt := by simp [twice, Func.ops]
  void_unused := by
    intro i c hc hvoid
    simp only [twice, Func.ops, List.flatMap_cons, List.flatMap_nil, List.append_nil,
      List.mem_cons, List.not_mem_nil, or_false, Instr.mk.injEq, Op.call.injEq, reduceCtorEq,
      and_false] at hc
    rcases hc with ⟨-, rfl⟩ | ⟨-, rfl⟩
    · simp [CallBase.isVoid, twiceCall] at hvoid
    · simp [CallBase.isVoid, twiceCall] at hvoid
  phis_first := by simp [twice, Op.isPhi]
  branches_last := by simp [twice, Op.targets]

theorem run_simulates_twice :
    splitAnalysis.callModes ⟨twice [], []⟩ (twice []).candidates 1 = .guarded ∧
      splitAnalysis.callModes ⟨twice [], []⟩ (twice []).candidates 2 = .guarded ∧
      ∃ st, splitAnalysis.run (twiceModule []) = some [st] ∧
        logMachine.Simulates (splitAnalysis.callModes ⟨twice [], []⟩ (twice []).candidates) (twice [])
          (fun _ => .plain) st.func := by
  have hsome : (splitAnalysis.run (twiceModule [])).isSome := by decide
  obtain ⟨sts, hsts⟩ := Option.isSome_iff_exists.mp hsome
  have hlength : ((splitAnalysis.run (twiceModule [])).map List.length) = some 1 := by
    decide
  rw [hsts, Option.map_some, Option.some_inj] at hlength
  obtain ⟨st, rfl⟩ := List.length_eq_one_iff.mp hlength
  refine ⟨by decide, by decide, st, hsts, ?_⟩
  refine Analysis.run_simulates splitAnalysis (twiceModule []) [st] (by decide) hsts 0
    (twice []) st rfl rfl (by decide) (by decide) (twice_proper []) ?_ _ logMachine
  intro id c hc _
  simp only [twice, Func.ops, List.flatMap_cons, List.flatMap_nil, List.append_nil,
    List.mem_cons, List.not_mem_nil, or_false, Instr.mk.injEq, Op.call.injEq, reduceCtorEq,
    and_false] at hc
  rcases hc with ⟨-, rfl⟩ | ⟨-, rfl⟩
  · rfl
  · rfl

def Machine.runFor {σ : Type} (T : Machine σ) (modes : Nat → Mode) (F : Func) :
    Nat → Config σ → Config σ
  | 0, c => c
  | n + 1, c =>
    match T.step modes F c with
    | none => c
    | some c' => T.runFor modes F n c'

def logAfter (n : Nat) (modes : Nat → Mode) (F : Func) : Option CallLog :=
  (F.entry ([] : CallLog)).map fun c => (logMachine.runFor modes F n c).world

def byval : List (Nat × Name) := [(0, "byval".toList)]

-- With another convention or attributes, the call that the pass makes is not the one it replaces.
theorem twice_not_same :
    splitAnalysis.callModes ⟨twice byval, []⟩ (twice byval).candidates 1 = .guarded ∧
      logAfter 1 (splitAnalysis.callModes ⟨twice byval, []⟩ (twice byval).candidates) (twice byval) =
        some [(⟨⟨1, [1], false⟩, 0, byval⟩, 0x123, [2], 0x123)] ∧
      ((splitAnalysis.run (twiceModule byval)).bind fun sts =>
        sts.head?.bind fun st => logAfter 6 (fun _ => .plain) st.func) =
        some [(⟨⟨1, [1], false⟩, 0, []⟩, 0x123, [2], 0x123)] :=
  ⟨by decide, by decide, by decide⟩

end Platypus.Pass.BitMasks
