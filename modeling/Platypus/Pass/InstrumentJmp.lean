import Mathlib

-- The pass `X86InstrumentJmpPass`, which runs on machine code before register allocation.

namespace Platypus.Pass.InstrumentJmp

abbrev Word := BitVec 64

abbrev Name := List Char

-- The indirect jumps to the address in a register.
inductive RegJmp
  | JMP64r
  | JMP32r
  | JMP16r
  | JMP64r_NT
  | JMP32r_NT
  | JMP16r_NT
  | TAILJMPr
  | TAILJMPr64
  | TAILJMPr64_REX
  deriving DecidableEq, Repr

-- The indirect jumps to an address in memory.
inductive MemJmp
  | JMP64m
  | JMP32m
  | JMP16m
  | JMP64m_NT
  | JMP32m_NT
  | JMP16m_NT
  | TAILJMPm
  | TAILJMPm64
  | TAILJMPm64_REX
  deriving DecidableEq, Repr

-- Registers are numbers; `is64` chooses between the two sizes of an opcode, as MOV64rm and MOV32rm.
inductive MachineInstr
  | jmpr (opc : RegJmp) (target : Nat)
  | jmpm (opc : MemJmp) (address : List Nat)
  -- a load of a global, relative to the instruction
  | movrm (is64 : Bool) (dst : Nat) (global : Name)
  | orrr (is64 : Bool) (dst a b : Nat)
  | andrr (is64 : Bool) (dst a b : Nat)
  | other (kind : Nat) (dst : Option Nat) (uses : List Nat)
  deriving DecidableEq, Repr

structure MachineBasicBlock where
  label : Nat
  body : List MachineInstr
  deriving DecidableEq, Repr

namespace MachineInstr

def uses : MachineInstr → List Nat
  | .jmpr _ target => [target]
  | .jmpm _ address => address
  | .movrm _ _ _ => []
  | .orrr _ _ a b => [a, b]
  | .andrr _ _ a b => [a, b]
  | .other _ _ uses => uses

def dst : MachineInstr → List Nat
  | .jmpr _ _ => []
  | .jmpm _ _ => []
  | .movrm _ dst _ => [dst]
  | .orrr _ dst _ _ => [dst]
  | .andrr _ dst _ _ => [dst]
  | .other _ dst _ => dst.toList

-- All registers are below `n`.
def Below (n : Nat) (I : MachineInstr) : Prop := ∀ r ∈ I.uses ++ I.dst, r < n

instance (n : Nat) (I : MachineInstr) : Decidable (I.Below n) :=
  inferInstanceAs (Decidable (∀ r ∈ I.uses ++ I.dst, r < n))

theorem Below.mono {n m : Nat} {I : MachineInstr} (h : I.Below n) (hnm : n ≤ m) : I.Below m :=
  fun r hr => (h r hr).trans_le hnm

theorem Below.uses {n : Nat} {I : MachineInstr} (h : I.Below n) : ∀ r ∈ I.uses, r < n :=
  fun r hr => h r (List.mem_append_left _ hr)

end MachineInstr

-- No register from `next` on is in use.
structure MachineFunction where
  blocks : List MachineBasicBlock
  next : Nat
  below : ∀ B ∈ blocks, ∀ I ∈ B.body, I.Below next

def orMask : Name := "or_mask".toList

def andMask : Name := "and_mask".toList

-- The opcodes that the pass looks for, and their size.
def is64 : RegJmp → Option Bool
  | .JMP64r => some true
  | .JMP32r => some false
  | _ => none

-- What stands in the place of a jump, with the new registers from `n` on.
def masking (n : Nat) (opc : RegJmp) (size : Bool) (target : Nat) : List MachineInstr :=
  [.movrm size n orMask, .orrr size (n + 1) n target, .movrm size (n + 2) andMask,
    .andrr size (n + 3) (n + 1) (n + 2), .jmpr opc (n + 3)]

-- The loop over a block, with the number of the next register. The iterator is already past the
-- jump when instructions are inserted before it and it is erased.
def instrumentBlock (n : Nat) : List MachineInstr → Nat × List MachineInstr
  | [] => (n, [])
  | .jmpr opc target :: rest =>
    match is64 opc with
    | some size =>
      let (n', rest') := instrumentBlock (n + 4) rest
      (n', masking n opc size target ++ rest')
    | none =>
      let (n', rest') := instrumentBlock n rest
      (n', .jmpr opc target :: rest')
  | I :: rest =>
    let (n', rest') := instrumentBlock n rest
    (n', I :: rest')

def instrumentBlocks (n : Nat) : List MachineBasicBlock → Nat × List MachineBasicBlock
  | [] => (n, [])
  | B :: rest =>
    let (n₁, body) := instrumentBlock n B.body
    let (n₂, rest') := instrumentBlocks n₁ rest
    (n₂, ⟨B.label, body⟩ :: rest')

theorem instrumentBlock_cons {I : MachineInstr}
    (hkept : ∀ opc r, I = .jmpr opc r → is64 opc = none) (n : Nat) (rest : List MachineInstr) :
    instrumentBlock n (I :: rest) =
      ((instrumentBlock n rest).1, I :: (instrumentBlock n rest).2) := by
  cases I with
  | jmpr opc r => simp [instrumentBlock, hkept opc r rfl]
  | _ => rfl

theorem instrumentBlock_jmpr {opc : RegJmp} {size : Bool} (h : is64 opc = some size) (n r : Nat)
    (rest : List MachineInstr) :
    instrumentBlock n (.jmpr opc r :: rest) =
      ((instrumentBlock (n + 4) rest).1,
        masking n opc size r ++ (instrumentBlock (n + 4) rest).2) := by
  simp [instrumentBlock, h]

def MachineInstr.isProtected : MachineInstr → Bool
  | .jmpr opc _ => (is64 opc).isSome
  | _ => false

-- The two cases of a turn of the loop.
theorem isProtected_cases (I : MachineInstr) :
    (I.isProtected = false ∧ ∀ opc r, I = .jmpr opc r → is64 opc = none) ∨
      ∃ opc r size, I = .jmpr opc r ∧ is64 opc = some size := by
  cases I with
  | jmpr opc r =>
    cases hsize : is64 opc with
    | none => simp [MachineInstr.isProtected, hsize]
    | some size => exact .inr ⟨opc, r, size, rfl, hsize⟩
  | _ => simp [MachineInstr.isProtected]

theorem le_instrumentBlock (n : Nat) (is : List MachineInstr) : n ≤ (instrumentBlock n is).1 := by
  induction is generalizing n with
  | nil => exact le_rfl
  | cons I rest ih =>
    rcases isProtected_cases I with ⟨-, hkept⟩ | ⟨opc, r, size, rfl, hsize⟩
    · rw [instrumentBlock_cons hkept]
      exact ih n
    · rw [instrumentBlock_jmpr hsize]
      have hle := ih (n + 4)
      simp only
      omega

theorem below_masking {n r : Nat} (opc : RegJmp) (size : Bool) (hr : r < n) :
    ∀ I ∈ masking n opc size r, I.Below (n + 4) := by
  simp only [masking, List.mem_cons, List.not_mem_nil, or_false]
  rintro I (rfl | rfl | rfl | rfl | rfl) k hk
  all_goals simp [MachineInstr.uses, MachineInstr.dst] at hk
  all_goals omega

theorem below_instrumentBlock {n : Nat} {is : List MachineInstr} (h : ∀ I ∈ is, I.Below n) :
    ∀ I ∈ (instrumentBlock n is).2, I.Below (instrumentBlock n is).1 := by
  induction is generalizing n with
  | nil => simp [instrumentBlock]
  | cons I rest ih =>
    have hI := h I List.mem_cons_self
    have hrest : ∀ J ∈ rest, J.Below n := fun J hJ => h J (List.mem_cons_of_mem _ hJ)
    rcases isProtected_cases I with ⟨-, hkept⟩ | ⟨opc, r, size, rfl, hsize⟩
    · rw [instrumentBlock_cons hkept]
      intro J hJ
      rcases List.mem_cons.mp hJ with rfl | hJ
      · exact hI.mono (le_instrumentBlock n rest)
      · exact ih hrest J hJ
    · rw [instrumentBlock_jmpr hsize]
      have hr : r < n := hI.uses r (by simp [MachineInstr.uses])
      intro J hJ
      rcases List.mem_append.mp hJ with hJ | hJ
      · exact (below_masking opc size hr J hJ).mono (le_instrumentBlock (n + 4) rest)
      · exact ih (fun J hJ => (hrest J hJ).mono (by omega)) J hJ

theorem below_instrumentBlocks {n : Nat} {Bs : List MachineBasicBlock}
    (h : ∀ B ∈ Bs, ∀ I ∈ B.body, I.Below n) :
    n ≤ (instrumentBlocks n Bs).1 ∧
      ∀ B ∈ (instrumentBlocks n Bs).2, ∀ I ∈ B.body, I.Below (instrumentBlocks n Bs).1 := by
  induction Bs generalizing n with
  | nil => simp [instrumentBlocks]
  | cons B rest ih =>
    have hle := le_instrumentBlock n B.body
    obtain ⟨hnext, hrest⟩ := ih (n := (instrumentBlock n B.body).1) fun C hC I hI =>
      (h C (List.mem_cons_of_mem _ hC) I hI).mono hle
    refine ⟨hle.trans hnext, fun C hC I hI => ?_⟩
    rcases List.mem_cons.mp hC with rfl | hC
    · exact (below_instrumentBlock (h B List.mem_cons_self) I hI).mono hnext
    · exact hrest C hC I hI

-- `protectJmp` says whether PROTECT_JMP is set.
def runOnMachineFunction (protectJmp : Bool) (MF : MachineFunction) : MachineFunction :=
  if protectJmp then
    ⟨(instrumentBlocks MF.next MF.blocks).2, (instrumentBlocks MF.next MF.blocks).1,
      (below_instrumentBlocks MF.below).2⟩
  else MF

-- What the code runs on: the globals, the words at the address of a memory jump, and what all
-- other instructions do, with the address that they jump to, if any.
structure Machine (σ : Type) where
  global : Name → σ → Word
  load : List Word → σ → Word
  exec : Nat → List Word → σ → Word × σ × Option Word

structure Outcome (σ : Type) where
  regs : Nat → Word
  world : σ
  jump : Option Word

-- A register of 32 bits is one of 64 whose upper half is not used.
def sized (is64 : Bool) (x : Word) : Word := if is64 then x else (x.setWidth 32).setWidth 64

def RegJmp.address (opc : RegJmp) (x : Word) : Word :=
  match opc with
  | .JMP32r | .JMP32r_NT | .TAILJMPr => (x.setWidth 32).setWidth 64
  | .JMP16r | .JMP16r_NT => (x.setWidth 16).setWidth 64
  | _ => x

def MemJmp.address (opc : MemJmp) (x : Word) : Word :=
  match opc with
  | .JMP32m | .JMP32m_NT | .TAILJMPm => (x.setWidth 32).setWidth 64
  | .JMP16m | .JMP16m_NT => (x.setWidth 16).setWidth 64
  | _ => x

namespace Machine

variable {σ : Type} (T : Machine σ)

def mask (x : Word) (w : σ) : Word := (x ||| T.global orMask w) &&& T.global andMask w

-- Where a jump is meant to go: as it is written, or to the masked address if it is protected.

def plainTarget (opc : RegJmp) (x : Word) (_ : σ) : Word := opc.address x

def maskedTarget (opc : RegJmp) (x : Word) (w : σ) : Word :=
  if (is64 opc).isSome then opc.address (T.mask x w) else opc.address x

def step (target : RegJmp → Word → σ → Word) (I : MachineInstr) (ρ : Nat → Word) (w : σ) :
    Outcome σ :=
  match I with
  | .jmpr opc r => ⟨ρ, w, some (target opc (ρ r) w)⟩
  | .jmpm _ address => ⟨ρ, w, some (T.load (address.map ρ) w)⟩
  | .movrm is64 dst gv => ⟨Function.update ρ dst (sized is64 (T.global gv w)), w, none⟩
  | .orrr is64 dst a b => ⟨Function.update ρ dst (sized is64 (ρ a ||| ρ b)), w, none⟩
  | .andrr is64 dst a b => ⟨Function.update ρ dst (sized is64 (ρ a &&& ρ b)), w, none⟩
  | .other kind dst uses =>
    let r := T.exec kind (uses.map ρ) w
    ⟨dst.elim ρ fun dst => Function.update ρ dst r.1, r.2.1, r.2.2⟩

-- A block runs until something jumps.
def run (target : RegJmp → Word → σ → Word) : List MachineInstr → (Nat → Word) → σ → Outcome σ
  | [], ρ, w => ⟨ρ, w, none⟩
  | I :: rest, ρ, w =>
    let o := T.step target I ρ w
    match o.jump with
    | some _ => o
    | none => run target rest o.regs o.world

end Machine

-- Equal but for registers that the code did not have.
structure Agree {σ : Type} (n : Nat) (o o' : Outcome σ) : Prop where
  regs : ∀ r < n, o'.regs r = o.regs r
  world : o'.world = o.world
  jump : o'.jump = o.jump

section Run

variable {σ : Type} {T : Machine σ} {n : Nat} {ρ ρ' : Nat → Word} {w : σ}

-- The size of the masking is that of the jump.
theorem address_sized {opc : RegJmp} {size : Bool} (h : is64 opc = some size) (x o a : Word) :
    opc.address (sized size (sized size (sized size o ||| x) &&& sized size a)) =
      opc.address ((x ||| o) &&& a) := by
  cases opc with
  | JMP64r =>
    cases h
    simp [RegJmp.address, sized, BitVec.or_comm]
  | JMP32r =>
    cases h
    apply BitVec.eq_of_getLsbD_eq
    intro i hi
    simp only [RegJmp.address, sized, Bool.false_eq_true, if_false, BitVec.getLsbD_setWidth,
      BitVec.getLsbD_and, BitVec.getLsbD_or]
    by_cases hlow : i < 32 <;> simp [hlow, hi, Bool.or_comm]
  | _ => cases h

-- The new instructions before a jump touch new registers only, and it goes to the masked address.
theorem run_masking {m : Nat} {opc : RegJmp} {size : Bool} {r : Nat} (hsize : is64 opc = some size)
    (hnm : n ≤ m) (hr : r < n) (hρ : ∀ r < n, ρ' r = ρ r) (rest : List MachineInstr) :
    Agree n (T.step T.maskedTarget (.jmpr opc r) ρ w)
      (T.run Machine.plainTarget (masking m opc size r ++ rest) ρ' w) := by
  refine ⟨fun k hk => ?_, rfl, ?_⟩
  · have hk' (j : Nat) (hj : j < 4) : k ≠ m + j := by omega
    have hk0 : k ≠ m := by omega
    simp [masking, Machine.run, Machine.step, Function.update_of_ne, hk0, hk' 1, hk' 2, hk' 3,
      hρ k hk]
  · have hr0 : r ≠ m := by omega
    have hmasked : T.maskedTarget opc (ρ r) w = opc.address (T.mask (ρ r) w) := by
      simp [Machine.maskedTarget, hsize]
    have hvalue := address_sized hsize (ρ r) (T.global orMask w) (T.global andMask w)
    simp only [masking, List.cons_append, List.nil_append, Machine.run, Machine.step, hmasked]
    simp [Function.update_of_ne, hr0, hρ r hr, Machine.plainTarget, Machine.mask]
    exact hvalue

end Run

-- What is meant to stand in the place of each instruction.

def MachineInstr.isIndirectJump : MachineInstr → Bool
  | .jmpr _ _ => true
  | .jmpm _ _ => true
  | _ => false

-- An indirect jump of any form that goes to the masked address.
def Machine.masked {σ : Type} (T : Machine σ) (I : MachineInstr) (ρ : Nat → Word) (w : σ) :
    Outcome σ :=
  match I with
  | .jmpr opc r => ⟨ρ, w, some (opc.address (T.mask (ρ r) w))⟩
  | .jmpm opc address => ⟨ρ, w, some (opc.address (T.mask (T.load (address.map ρ) w) w))⟩
  | I => T.step Machine.plainTarget I ρ w

-- Code whose only indirect jump is its last instruction, and goes to the masked address; the
-- registers below `n` are those that the function has.
structure MaskedJump (n : Nat) (I : MachineInstr) (code : List MachineInstr) : Prop where
  last : ∃ init J, code = init ++ [J] ∧ J.isIndirectJump ∧ ∀ K ∈ init, K.isIndirectJump = false
  run : ∀ (σ : Type) (T : Machine σ) (ρ ρ' : Nat → Word) (w : σ), (∀ r < n, ρ' r = ρ r) →
    Agree n (T.masked I ρ w) (T.run Machine.plainTarget code ρ' w)

def Replaces (n : Nat) (I : MachineInstr) (code : List MachineInstr) : Prop :=
  if I.isIndirectJump then MaskedJump n I code else code = [I]

-- Every indirect jump of a function is masked in the other one, and nothing else is changed.
def Masks (MF MF' : MachineFunction) : Prop :=
  List.Forall₂ (fun B B' => B'.label = B.label ∧
    ∃ codes, List.Forall₂ (Replaces MF.next) B.body codes ∧ B'.body = codes.flatten)
    MF.blocks MF'.blocks

theorem maskedJump_masking {n m : Nat} {opc : RegJmp} {size : Bool} {r : Nat}
    (hsize : is64 opc = some size) (hnm : n ≤ m) (hr : r < n) :
    MaskedJump n (.jmpr opc r) (masking m opc size r) := by
  refine ⟨⟨(masking m opc size r).dropLast, .jmpr opc (m + 3), rfl, rfl, ?_⟩, ?_⟩
  · simp [masking, MachineInstr.isIndirectJump]
  · intro σ T ρ ρ' w hρ
    have hrun := run_masking (T := T) (w := w) hsize hnm hr hρ []
    rw [List.append_nil] at hrun
    have hmasked : T.step T.maskedTarget (.jmpr opc r) ρ w = T.masked (.jmpr opc r) ρ w := by
      simp [Machine.step, Machine.masked, Machine.maskedTarget, hsize]
    rwa [hmasked] at hrun

-- A machine in which every target is 0 and the masks make 1 of it.
def zeroMachine : Machine Unit where
  global name _ := if name = orMask then 1#64 else BitVec.allOnes 64
  load _ _ := 0#64
  exec _ _ w := (0#64, w, none)

-- A jump that stays as it is goes to the address as it was.
theorem not_maskedJump_self (n : Nat) {I : MachineInstr} (hI : I.isIndirectJump) :
    ¬ MaskedJump n I [I] := by
  intro h
  have hjump := (h.run Unit zeroMachine (fun _ => 0#64) (fun _ => 0#64) () fun _ _ => rfl).jump
  have hmask : zeroMachine.mask 0#64 () = 1#64 := by decide
  cases I with
  | jmpr opc r =>
    have haddress : some (opc.address 0#64) = some (opc.address (zeroMachine.mask 0#64 ())) := hjump
    rw [hmask] at haddress
    exact absurd haddress (by cases opc <;> decide)
  | jmpm opc address =>
    have haddress : some 0#64 = some (opc.address (zeroMachine.mask 0#64 ())) := hjump
    rw [hmask] at haddress
    exact absurd haddress (by cases opc <;> decide)
  | _ => cases hI

-- The first indirect jump in a list fixes the code that ends with it.
theorem append_jump_inj {init init' rest rest' : List MachineInstr} {J J' : MachineInstr}
    (hJ : J.isIndirectJump) (hJ' : J'.isIndirectJump)
    (hinit : ∀ K ∈ init, K.isIndirectJump = false) (hinit' : ∀ K ∈ init', K.isIndirectJump = false)
    (h : init ++ J :: rest = init' ++ J' :: rest') : init = init' ∧ J = J' ∧ rest = rest' := by
  induction init generalizing init' with
  | nil =>
    cases init' with
    | nil =>
      cases h
      exact ⟨rfl, rfl, rfl⟩
    | cons K init' =>
      cases h
      exact absurd hJ (Bool.eq_false_iff.mp (hinit' J List.mem_cons_self))
  | cons K init ih =>
    cases init' with
    | nil =>
      cases h
      exact absurd hJ' (Bool.eq_false_iff.mp (hinit J' List.mem_cons_self))
    | cons K' init' =>
      obtain ⟨rfl, htail⟩ := List.cons.inj h
      obtain ⟨rfl, hjump, hrest⟩ := ih (fun L hL => hinit L (List.mem_cons_of_mem _ hL))
        (fun L hL => hinit' L (List.mem_cons_of_mem _ hL)) htail
      exact ⟨rfl, hjump, hrest⟩

theorem MaskedJump.code_inj {n : Nat} {I J : MachineInstr} {code init rest rest' : List MachineInstr}
    (h : MaskedJump n I code) (hJ : J.isIndirectJump)
    (hinit : ∀ K ∈ init, K.isIndirectJump = false) (heq : init ++ J :: rest = code ++ rest') :
    code = init ++ [J] ∧ rest = rest' := by
  obtain ⟨init', J', rfl, hJ', hinit'⟩ := h.last
  rw [List.append_assoc, List.singleton_append] at heq
  obtain ⟨rfl, rfl, hrest⟩ := append_jump_inj hJ hJ' hinit hinit' heq
  exact ⟨rfl, hrest⟩

theorem replaces_jump {n : Nat} {I : MachineInstr} {code : List MachineInstr}
    (hI : I.isIndirectJump) : Replaces n I code ↔ MaskedJump n I code := by
  rw [Replaces, if_pos hI]

theorem replaces_other {n : Nat} {I : MachineInstr} {code : List MachineInstr}
    (hI : I.isIndirectJump = false) : Replaces n I code ↔ code = [I] := by
  rw [Replaces, hI, if_neg Bool.false_ne_true]

-- The code of a block can be told apart into the code of its instructions only if every indirect
-- jump is one that the loop looks for.
theorem instrumentBlock_replaces_iff {n m : Nat} {is : List MachineInstr} (hnm : n ≤ m)
    (his : ∀ I ∈ is, I.Below n) :
    (∃ codes, List.Forall₂ (Replaces n) is codes ∧ (instrumentBlock m is).2 = codes.flatten) ↔
      ∀ I ∈ is, I.isIndirectJump → I.isProtected := by
  induction is generalizing m with
  | nil => exact iff_of_true ⟨[], .nil, rfl⟩ fun I hI => absurd hI List.not_mem_nil
  | cons I rest ih =>
    have hI := his I List.mem_cons_self
    have hrest : ∀ J ∈ rest, J.Below n := fun J hJ => his J (List.mem_cons_of_mem _ hJ)
    rw [List.forall_mem_cons]
    rcases isProtected_cases I with ⟨hprotected, hkept⟩ | ⟨opc, r, size, rfl, hsize⟩
    · rw [instrumentBlock_cons hkept, ← ih hnm hrest]
      cases hjump : I.isIndirectJump with
      | true =>
        refine iff_of_false ?_ fun h => Bool.eq_false_iff.mp hprotected (h.1 rfl)
        rintro ⟨codes, hcodes, hflat⟩
        obtain ⟨code, codes', hcode, -, rfl⟩ := List.forall₂_cons_left_iff.mp hcodes
        have hmasked := (replaces_jump hjump).mp hcode
        obtain ⟨rfl, -⟩ := hmasked.code_inj hjump
          (fun K (hK : K ∈ []) => absurd hK List.not_mem_nil) hflat
        exact not_maskedJump_self n hjump hmasked
      | false =>
        refine Iff.trans ?_ (and_iff_right fun h => absurd h Bool.false_ne_true).symm
        constructor
        · rintro ⟨codes, hcodes, hflat⟩
          obtain ⟨code, codes', hcode, hrest', rfl⟩ := List.forall₂_cons_left_iff.mp hcodes
          obtain rfl := (replaces_other hjump).mp hcode
          exact ⟨codes', hrest', (List.cons.inj hflat).2⟩
        · rintro ⟨codes, hcodes, hflat⟩
          exact ⟨[I] :: codes, .cons ((replaces_other hjump).mpr rfl) hcodes,
            congrArg (I :: ·) hflat⟩
    · have hr : r < n := hI.uses r (by simp [MachineInstr.uses])
      have hjump : (MachineInstr.jmpr opc r).isIndirectJump := rfl
      have hprotected : (MachineInstr.jmpr opc r).isProtected := by
        simp [MachineInstr.isProtected, hsize]
      have hmasked := maskedJump_masking hsize hnm hr
      rw [instrumentBlock_jmpr hsize, and_iff_right fun _ => hprotected,
        ← ih (by omega : n ≤ m + 4) hrest]
      constructor
      · rintro ⟨codes, hcodes, hflat⟩
        obtain ⟨code, codes', hcode, hrest', rfl⟩ := List.forall₂_cons_left_iff.mp hcodes
        obtain ⟨init, J, hlast, hJ, hinit⟩ := hmasked.last
        dsimp only at hflat
        rw [hlast, List.append_assoc, List.singleton_append] at hflat
        obtain ⟨-, hflat⟩ := ((replaces_jump hjump).mp hcode).code_inj hJ hinit hflat
        exact ⟨codes', hrest', hflat⟩
      · rintro ⟨codes, hcodes, hflat⟩
        exact ⟨masking m opc size r :: codes, .cons ((replaces_jump hjump).mpr hmasked) hcodes,
          congrArg (masking m opc size r ++ ·) hflat⟩

theorem instrumentBlocks_masks_iff {n m : Nat} {Bs : List MachineBasicBlock} (hnm : n ≤ m)
    (hBs : ∀ B ∈ Bs, ∀ I ∈ B.body, I.Below n) :
    List.Forall₂ (fun B B' => B'.label = B.label ∧
        ∃ codes, List.Forall₂ (Replaces n) B.body codes ∧ B'.body = codes.flatten)
        Bs (instrumentBlocks m Bs).2 ↔
      ∀ B ∈ Bs, ∀ I ∈ B.body, I.isIndirectJump → I.isProtected := by
  induction Bs generalizing m with
  | nil => exact iff_of_true .nil fun B hB => absurd hB List.not_mem_nil
  | cons B rest ih =>
    have hblock := instrumentBlock_replaces_iff hnm (hBs B List.mem_cons_self)
    have hle : n ≤ (instrumentBlock m B.body).1 := hnm.trans (le_instrumentBlock m B.body)
    rw [List.forall_mem_cons, instrumentBlocks, List.forall₂_cons, ← hblock,
      ← ih hle fun C hC => hBs C (List.mem_cons_of_mem _ hC), and_iff_right rfl]

-- With PROTECT_JMP, a function is protected if its indirect jumps are those to the address in a
-- plain 64-bit or 32-bit register, and only then.
theorem runOnMachineFunction_masks_iff (MF : MachineFunction) :
    Masks MF (runOnMachineFunction true MF) ↔
      ∀ B ∈ MF.blocks, ∀ I ∈ B.body, I.isIndirectJump → I.isProtected :=
  instrumentBlocks_masks_iff le_rfl MF.below

-- A jump table under `-fcf-protection`: `notrack jmp *%rax`.
def notrackFunction : MachineFunction where
  blocks := [⟨0, [.jmpr .JMP64r_NT 0]⟩]
  next := 1
  below := by decide

-- A machine with the target 0x1234 in its first register.
def demoMachine : Machine Unit where
  global name _ := if name = orMask then 0x10000#64 else 0xfffff#64
  load _ _ := 0x1234#64
  exec _ _ w := (0#64, w, none)

def demoRegs : Nat → Word := fun _ => 0x1234#64

-- The jump is left as it is and goes to 0x1234, where the masks would give 0x11234.
theorem notrack_not_masked :
    (runOnMachineFunction true notrackFunction).blocks = notrackFunction.blocks ∧
      (demoMachine.run Machine.plainTarget [.jmpr .JMP64r_NT 0] demoRegs ()).jump =
        some 0x1234#64 ∧
      (demoMachine.masked (.jmpr .JMP64r_NT 0) demoRegs ()).jump = some 0x11234#64 ∧
      ¬ Masks notrackFunction (runOnMachineFunction true notrackFunction) := by
  refine ⟨rfl, by decide, by decide, fun h => ?_⟩
  have hall := (instrumentBlocks_masks_iff le_rfl notrackFunction.below).mp h
  exact absurd (hall _ List.mem_cons_self _ List.mem_cons_self rfl) (by decide)

end Platypus.Pass.InstrumentJmp
