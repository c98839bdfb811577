import Platypus.Pass.Masked

-- How the code of a function runs.

namespace Platypus.Pass.BitMasks

abbrev Word := BitVec 64

namespace Op

def operands : Op → List Value
  | .call c => c.callee :: c.args
  | .invoke c _ _ => c.callee :: c.args
  | .callbr c _ => c.callee :: c.args
  | .load ptr => [ptr]
  | .store value ptr => [value, ptr]
  | .gep _ base => [base]
  | .bitCast v => [v]
  | .alloca _ => []
  | .phi incoming => incoming.map Prod.fst
  | .select cond ifTrue ifFalse => [cond, ifTrue, ifFalse]
  | .movR11 v => [v]
  | .orAnd v => [v]
  | .icmpEq a b => [a, b]
  | .ptrToInt v => [v]
  | .or a b => [a, b]
  | .and a b => [a, b]
  | .intToPtr v => [v]
  | .br _ => []
  | .condBr cond _ _ => [cond]
  | .other _ operands _ => operands

def isPhi : Op → Bool
  | .phi _ => true
  | _ => false

-- The operations whose meaning is left to the machine.
def isExec : Op → Bool
  | .invoke _ _ _ => true
  | .callbr _ _ => true
  | .load _ => true
  | .store _ _ => true
  | .gep _ _ => true
  | .bitCast _ => true
  | .alloca _ => true
  | .select _ _ _ => true
  | .other _ _ _ => true
  | _ => false

-- The operation without its operands.
def blank (op : Op) : Op := op.map (fun _ => .constant 0) fun l => l

theorem operands_map (f : Value → Value) (g : Label → Label) (op : Op) :
    (op.map f g).operands = op.operands.map f := by
  cases op <;> simp [Op.map, operands, CallBase.map]

theorem isPhi_map (f : Value → Value) (g : Label → Label) (op : Op) :
    (op.map f g).isPhi = op.isPhi := by
  cases op <;> rfl

theorem isExec_map (f : Value → Value) (g : Label → Label) (op : Op) :
    (op.map f g).isExec = op.isExec := by
  cases op <;> rfl

theorem blank_map (f : Value → Value) {g : Label → Label} {op : Op} (h : op.isPhi = false) :
    (op.map f g).blank = op.blank := by
  cases op with
  | phi incoming => cases h
  | _ => simp only [blank, Op.map, CallBase.map, List.map_map, Function.comp_def]

end Op

-- What the code runs on: the addresses and constants, the contents of the two masks, and what
-- calls and all other operations do to the rest of the world. A callee sees how it is called, its
-- arguments and r11. The number that `exec` returns is that of the branch taken.
structure Machine (σ : Type) where
  const : Value → Word
  or_mask : Word
  and_mask : Word
  call : Abi → Word → List Word → Word → σ → Word × σ
  exec : Op → List Word → σ → Word × σ × Nat

-- How a call is meant: as it is written, through the masks, or only if the masks do not change
-- its target.
inductive Mode
  | plain
  | masked
  | guarded
  deriving DecidableEq, Repr

structure Effect (σ : Type) where
  value : Word
  r11 : Word
  world : σ
  jump : Option Label

structure Config (σ : Type) where
  label : Label
  body : List Instr
  env : Nat → Word
  r11 : Word
  world : σ

def Func.entry {σ : Type} (F : Func) (w : σ) : Option (Config σ) :=
  F.blocks.head?.map fun B => ⟨B.label, B.body.dropWhile (·.op.isPhi), fun _ => 0, 0, w⟩

namespace Machine

variable {σ : Type} (T : Machine σ)

def eval (ρ : Nat → Word) : Value → Word
  | .reg k => ρ k
  | v => T.const v

def mask (x : Word) : Word := (x ||| T.or_mask) &&& T.and_mask

def tableVA : Word := T.const (.function Table.callback.name)

def callAs (mode : Mode) (c : CallBase) (ρ : Nat → Word) (r11 : Word) (w : σ) : Word × σ :=
  let x := T.eval ρ c.callee
  let args := c.args.map (T.eval ρ)
  match mode with
  | .plain => T.call c.abi x args r11 w
  | .masked => T.call c.abi ((x ||| T.const orMask) &&& T.const andMask) args r11 w
  | .guarded => if T.mask x = x then T.call c.abi x args x w else T.call c.abi T.tableVA args x w

-- Calls do not keep r11.
def effect (mode : Mode) (op : Op) (ρ : Nat → Word) (r11 : Word) (w : σ) : Effect σ :=
  match op with
  | .call c => ⟨(T.callAs mode c ρ r11 w).1, 0, (T.callAs mode c ρ r11 w).2, none⟩
  | .movR11 v => ⟨0, T.eval ρ v, w, none⟩
  | .orAnd v => ⟨T.mask (T.eval ρ v), r11, w, none⟩
  | .icmpEq a b => ⟨if T.eval ρ a = T.eval ρ b then 1 else 0, r11, w, none⟩
  | .ptrToInt v => ⟨T.eval ρ v, r11, w, none⟩
  | .or a b => ⟨T.eval ρ a ||| T.eval ρ b, r11, w, none⟩
  | .and a b => ⟨T.eval ρ a &&& T.eval ρ b, r11, w, none⟩
  | .intToPtr v => ⟨T.eval ρ v, r11, w, none⟩
  | .br l => ⟨0, r11, w, some l⟩
  | .condBr cond ifTrue ifFalse =>
    ⟨0, r11, w, some (if T.eval ρ cond = 1 then ifTrue else ifFalse)⟩
  | op =>
    let r := T.exec op.blank (op.operands.map (T.eval ρ)) w
    ⟨r.1, r11, r.2.1, op.targets[r.2.2]?⟩

def phiValue (ρ : Nat → Word) (src : Label) (op : Op) : Word :=
  match op with
  | .phi incoming => ((incoming.find? fun p => p.2 = src).map fun p => T.eval ρ p.1).getD 0
  | _ => 0

-- All phis of a block read the values from before it.
def assign (ρ : Nat → Word) (src : Label) (is : List Instr) (ρ₀ : Nat → Word) : Nat → Word :=
  is.foldl (fun ρ' I => Function.update ρ' I.id (T.phiValue ρ src I.op)) ρ₀

def enter (F : Func) (src l : Label) (ρ : Nat → Word) (r11 : Word) (w : σ) : Option (Config σ) :=
  (F.blocks.find? fun B => B.label = l).map fun B =>
    ⟨l, B.body.dropWhile (·.op.isPhi), T.assign ρ src (B.body.takeWhile (·.op.isPhi)) ρ, r11, w⟩

-- A phi that is not at the start of its block has no meaning.
def step (modes : Nat → Mode) (F : Func) (c : Config σ) : Option (Config σ) :=
  match c.body with
  | [] => none
  | I :: rest =>
    if I.op.isPhi then none
    else
      let e := T.effect (modes I.id) I.op c.env c.r11 c.world
      let env := Function.update c.env I.id e.value
      match e.jump with
      | none => some ⟨c.label, rest, env, e.r11, e.world⟩
      | some l => T.enter F c.label l env e.r11 e.world

def Steps (modes : Nat → Mode) (F : Func) : Config σ → Config σ → Prop :=
  Relation.ReflTransGen fun c c' => T.step modes F c = some c'

def Reachable (modes : Nat → Mode) (F : Func) (w : σ) (c : Config σ) : Prop :=
  ∃ c₀, F.entry w = some c₀ ∧ T.Steps modes F c₀ c

-- Every run of the first function is one of the second with the same calls and effects.
def Simulates (modes : Nat → Mode) (F : Func) (modes' : Nat → Mode) (F' : Func) : Prop :=
  ∀ w c, T.Reachable modes F w c →
    ∃ c', T.Reachable modes' F' w c' ∧ c'.world = c.world ∧ (c.body = [] → c'.body = [])

theorem Simulates.trans {m₁ m₂ m₃ : Nat → Mode} {F₁ F₂ F₃ : Func}
    (h : T.Simulates m₁ F₁ m₂ F₂) (h' : T.Simulates m₂ F₂ m₃ F₃) : T.Simulates m₁ F₁ m₃ F₃ := by
  intro w c hc
  obtain ⟨c', hc', hworld, hend⟩ := h w c hc
  obtain ⟨c'', hc'', hworld', hend'⟩ := h' w c' hc'
  exact ⟨c'', hc'', hworld'.trans hworld, fun hbody => hend' (hend hbody)⟩

theorem Simulates.refl (m : Nat → Mode) (F : Func) : T.Simulates m F m F :=
  fun _ c hc => ⟨c, hc, rfl, fun h => h⟩

variable {T} {ρ ρ' : Nat → Word} {f : Value → Value} {g : Label → Label}

theorem effect_of_isExec {op : Op} (h : op.isExec = true) (mode : Mode) (ρ : Nat → Word) (r11 : Word)
    (w : σ) :
    T.effect mode op ρ r11 w =
      ⟨(T.exec op.blank (op.operands.map (T.eval ρ)) w).1, r11,
        (T.exec op.blank (op.operands.map (T.eval ρ)) w).2.1,
        op.targets[(T.exec op.blank (op.operands.map (T.eval ρ)) w).2.2]?⟩ := by
  cases op with
  | invoke c normal unwind => rfl
  | callbr c dests => rfl
  | load ptr => rfl
  | store value ptr => rfl
  | gep ty base => rfl
  | bitCast v => rfl
  | alloca ty => rfl
  | select cond ifTrue ifFalse => rfl
  | other kind operands dests => rfl
  | _ => cases h

-- An operation has the effect of the one it was made of if its operands have the same values.
theorem effect_map {op : Op} (hphi : op.isPhi = false)
    (hops : ∀ v ∈ op.operands, T.eval ρ' (f v) = T.eval ρ v) (mode : Mode) (r11 : Word) (w : σ) :
    T.effect mode (op.map f g) ρ' r11 w = T.effect mode op ρ r11 w := by
  have hlist : (op.operands.map f).map (T.eval ρ') = op.operands.map (T.eval ρ) := by
    rw [List.map_map]
    exact List.map_congr_left hops
  cases hexec : op.isExec with
  | true =>
    rw [effect_of_isExec ((Op.isExec_map f g op).trans hexec), effect_of_isExec hexec,
      Op.blank_map f hphi, Op.operands_map, hlist, targets_map]
  | false =>
    cases op with
    | phi incoming => cases hphi
    | call c =>
      have hcall : T.callAs mode (c.map f) ρ' r11 w = T.callAs mode c ρ r11 w := by
        rw [Op.operands, List.map_cons, List.map_cons, List.map_cons, List.cons.injEq] at hlist
        simp only [callAs, CallBase.map, hlist.1, hlist.2]
      simp only [Op.map, effect, hcall]
    | movR11 v => simp_all [effect, Op.map, Op.operands]
    | orAnd v => simp_all [effect, Op.map, Op.operands]
    | icmpEq a b => simp_all [effect, Op.map, Op.operands]
    | ptrToInt v => simp_all [effect, Op.map, Op.operands]
    | or a b => simp_all [effect, Op.map, Op.operands]
    | and a b => simp_all [effect, Op.map, Op.operands]
    | intToPtr v => simp_all [effect, Op.map, Op.operands]
    | br dest => rfl
    | condBr cond ifTrue ifFalse => simp_all [effect, Op.map, Op.operands]
    | _ => cases hexec

theorem jump_mem {op : Op} {mode : Mode} {r11 : Word} {w : σ} {l : Label}
    (h : (T.effect mode op ρ r11 w).jump = some l) : l ∈ op.targets := by
  cases op with
  | br dest =>
    cases h
    exact List.mem_singleton_self _
  | condBr cond ifTrue ifFalse =>
    simp only [effect, Option.some_inj] at h
    subst h
    simp only [Op.targets]
    split
    · exact List.mem_cons_self
    · exact List.mem_cons_of_mem _ (List.mem_singleton_self _)
  | call c => cases h
  | movR11 v => cases h
  | orAnd v => cases h
  | icmpEq a b => cases h
  | ptrToInt v => cases h
  | or a b => cases h
  | and a b => cases h
  | intToPtr v => cases h
  | _ => exact List.mem_of_getElem? h

section Step

variable {modes : Nat → Mode} {F : Func} {label : Label} {I : Instr} {rest : List Instr} {r11 : Word}
  {w : σ}

theorem enter_of_find {B : Block} {l : Label} (h : F.blocks.find? (fun B => B.label = l) = some B)
    (src : Label) (ρ : Nat → Word) (r11 : Word) (w : σ) :
    T.enter F src l ρ r11 w =
      some ⟨l, B.body.dropWhile (·.op.isPhi), T.assign ρ src (B.body.takeWhile (·.op.isPhi)) ρ, r11, w⟩ := by
  rw [enter, h]
  rfl

theorem not_phi_of_step {c : Config σ} (h : T.step modes F ⟨label, I :: rest, ρ, r11, w⟩ = some c) :
    I.op.isPhi = false := by
  cases hphi : I.op.isPhi with
  | false => rfl
  | true =>
    simp only [step, hphi, if_true] at h
    cases h

theorem step_next (hphi : I.op.isPhi = false)
    (hjump : (T.effect (modes I.id) I.op ρ r11 w).jump = none) :
    T.step modes F ⟨label, I :: rest, ρ, r11, w⟩ =
      some ⟨label, rest, Function.update ρ I.id (T.effect (modes I.id) I.op ρ r11 w).value,
        (T.effect (modes I.id) I.op ρ r11 w).r11, (T.effect (modes I.id) I.op ρ r11 w).world⟩ := by
  simp only [step, hphi, Bool.false_eq_true, if_false, hjump]

theorem step_jump {l : Label} (hphi : I.op.isPhi = false)
    (hjump : (T.effect (modes I.id) I.op ρ r11 w).jump = some l) :
    T.step modes F ⟨label, I :: rest, ρ, r11, w⟩ =
      T.enter F label l (Function.update ρ I.id (T.effect (modes I.id) I.op ρ r11 w).value)
        (T.effect (modes I.id) I.op ρ r11 w).r11 (T.effect (modes I.id) I.op ρ r11 w).world := by
  simp only [step, hphi, Bool.false_eq_true, if_false, hjump]

end Step

end Machine

end Platypus.Pass.BitMasks
