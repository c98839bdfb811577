import Platypus.Bytes.Buffer

namespace Platypus.Machine

open Bytes

abbrev Word := BitVec 64

-- The register field of a ModRM byte, extended by the R bit of the REX prefix.
inductive Reg
  | rax | rcx | rdx | rbx | rsp | rbp | rsi | rdi
  | r8 | r9 | r10 | r11 | r12 | r13 | r14 | r15
  deriving DecidableEq, Repr

def Reg.ofField (rexR : Bool) (field : BitVec 3) : Reg :=
  match rexR, field.toNat with
  | false, 0 => .rax | false, 1 => .rcx | false, 2 => .rdx | false, 3 => .rbx
  | false, 4 => .rsp | false, 5 => .rbp | false, 6 => .rsi | false, _ => .rdi
  | true, 0 => .r8 | true, 1 => .r9 | true, 2 => .r10 | true, 3 => .r11
  | true, 4 => .r12 | true, 5 => .r13 | true, 6 => .r14 | true, _ => .r15

inductive Insn
  | endbr64
  | orMem (reg : Reg) (disp : BitVec 32)
  | andMem (reg : Reg) (disp : BitVec 32)
  | jmpMem (disp : BitVec 32)
  | push (imm : BitVec 32)
  | jmp (disp : BitVec 32)
  deriving DecidableEq, Repr

def Insn.length : Insn → Nat
  | .endbr64 => 4
  | .orMem .. => 7
  | .andMem .. => 7
  | .jmpMem _ => 6
  | .push _ => 5
  | .jmp _ => 5

-- REX.W or REX.WR
def rexW (b : Byte) : Option Bool :=
  if b = 0x48#8 then some false else if b = 0x4c#8 then some true else none

-- A ModRM byte that addresses memory relative to the next instruction: mod 00, r/m 101.
def ripField (b : Byte) : Option (BitVec 3) :=
  if b.extractLsb' 6 2 = 0#2 ∧ b.extractLsb' 0 3 = 5#3 then some (b.extractLsb' 3 3) else none

def decodeMem (rex op modrm : Byte) (disp : BitVec 32) : Option Insn := do
  let rexR ← rexW rex
  let field ← ripField modrm
  if op = 0x0b#8 then some (.orMem (.ofField rexR field) disp)
  else if op = 0x23#8 then some (.andMem (.ofField rexR field) disp)
  else none

-- The first instruction of a byte sequence, for the instructions that PLT stubs use.
def decode (bs : List Byte) : Option Insn :=
  match bs with
  | b₀ :: b₁ :: b₂ :: b₃ :: rest =>
    if b₀ = 0xf3#8 ∧ b₁ = 0x0f#8 ∧ b₂ = 0x1e#8 ∧ b₃ = 0xfa#8 then some .endbr64
    else
      match rest with
      | b₄ :: rest =>
        if b₀ = 0x68#8 then some (.push (ofLe32 b₁ b₂ b₃ b₄))
        else if b₀ = 0xe9#8 then some (.jmp (ofLe32 b₁ b₂ b₃ b₄))
        else
          match rest with
          | b₅ :: rest =>
            if b₀ = 0xff#8 ∧ b₁ = 0x25#8 then some (.jmpMem (ofLe32 b₂ b₃ b₄ b₅))
            else
              match rest with
              | b₆ :: _ => decodeMem b₀ b₁ b₂ (ofLe32 b₃ b₄ b₅ b₆)
              | [] => none
          | [] => none
      | [] => none
  | _ => none

theorem decode_endbr64 (rest : List Byte) :
    decode (0xf3#8 :: 0x0f#8 :: 0x1e#8 :: 0xfa#8 :: rest) = some .endbr64 := rfl

theorem decode_jmpMem (d : BitVec 32) (rest : List Byte) :
    decode (0xff#8 :: 0x25#8 :: (le32 d ++ rest)) = some (.jmpMem d) := by
  simp [decode, le32, ofLe32_le32]

theorem decode_push (imm : BitVec 32) (rest : List Byte) :
    decode (0x68#8 :: (le32 imm ++ rest)) = some (.push imm) := by
  simp [decode, le32, ofLe32_le32]

theorem rexW_cases {rex : Byte} {rexR : Bool} (h : rexW rex = some rexR) :
    rex = 0x48#8 ∨ rex = 0x4c#8 := by
  unfold rexW at h
  split_ifs at h with h₁ h₂
  · exact .inl h₁
  · exact .inr h₂

section Masked

variable {rex modrm : Byte} {rexR : Bool} {field : BitVec 3}
  (hrex : rexW rex = some rexR) (hfield : ripField modrm = some field)

include hrex hfield

theorem decode_orMem (d : BitVec 32) (rest : List Byte) :
    decode (rex :: 0x0b#8 :: modrm :: (le32 d ++ rest)) = some (.orMem (.ofField rexR field) d) := by
  have hmem : decodeMem rex 0x0b#8 modrm d = some (.orMem (.ofField rexR field) d) := by
    simp [decodeMem, hrex, hfield]
  rcases rexW_cases hrex with rfl | rfl <;> simpa [decode, le32, ofLe32_le32] using hmem

theorem decode_andMem (d : BitVec 32) (rest : List Byte) :
    decode (rex :: 0x23#8 :: modrm :: (le32 d ++ rest)) = some (.andMem (.ofField rexR field) d) := by
  have hmem : decodeMem rex 0x23#8 modrm d = some (.andMem (.ofField rexR field) d) := by
    simp [decodeMem, hrex, hfield]
  rcases rexW_cases hrex with rfl | rfl <;> simpa [decode, le32, ofLe32_le32] using hmem

end Masked

-- The instructions of a byte sequence in order, each with the address after it, up to the
-- first byte that starts none.
def sweep : Nat → List Byte → Word → List (Insn × Word)
  | 0, _, _ => []
  | fuel + 1, bs, va =>
    match decode bs with
    | none => []
    | some insn =>
      let next := va + BitVec.ofNat 64 insn.length
      (insn, next) :: sweep fuel (bs.drop insn.length) next

theorem sweep_cons (fuel : Nat) (bs : List Byte) (va : Word) (insn : Insn)
    (h : decode bs = some insn) :
    sweep (fuel + 1) bs va =
      (insn, va + BitVec.ofNat 64 insn.length) ::
        sweep fuel (bs.drop insn.length) (va + BitVec.ofNat 64 insn.length) := by
  simp [sweep, h]

def disassemble (bs : List Byte) (va : Word) : List (Insn × Word) := sweep bs.length bs va

def Insn.isJump : Insn → Bool
  | .jmpMem _ | .jmp _ => true
  | _ => false

-- The address of the word through which a stub leaves.
def jumpSlot (code : List (Insn × Word)) : Option Word :=
  match code.find? fun c => c.1.isJump with
  | some (.jmpMem disp, next) => some (next + disp.signExtend 64)
  | _ => none

-- The operand of the first `push`.
def pushed (code : List (Insn × Word)) : Option (BitVec 32) :=
  code.findSome? fun c =>
    match c.1 with
    | .push imm => some imm
    | _ => none

-- A displacement that survives the truncation to the 32-bit field.
def Fits (d : Word) : Prop := (d.setWidth 32).signExtend 64 = d

theorem add_signExtend_of_fits (slot next : Word) (h : Fits (slot - next)) :
    next + ((slot - next).setWidth 32).signExtend 64 = slot := by
  rw [h, BitVec.add_comm, BitVec.sub_add_cancel]

theorem fits_ofInt (x : Int) (hlo : -2 ^ 31 ≤ x) (hhi : x < 2 ^ 31) : Fits (BitVec.ofInt 64 x) := by
  have h32 : (BitVec.ofInt 64 x).setWidth 32 = BitVec.ofInt 32 x := by
    apply BitVec.eq_of_toInt_eq
    rw [BitVec.toInt_setWidth, BitVec.toNat_ofInt, BitVec.toInt_ofInt]
    have : ((x % (2 ^ 64 : Nat)).toNat : Int) = x % 2 ^ 64 := by omega
    rw [this]
    simp only [Int.bmod]
    omega
  apply BitVec.eq_of_toInt_eq
  rw [h32, BitVec.toInt_signExtend_of_le (by decide), BitVec.toInt_ofInt, BitVec.toInt_ofInt,
    Int.bmod_eq_of_le (by omega) (by omega), Int.bmod_eq_of_le (by omega) (by omega)]

theorem ofInt_sub_natCast (a b : Word) (m n : Nat) :
    a + BitVec.ofNat 64 m - (b + BitVec.ofNat 64 n) =
      BitVec.ofInt 64 ((a.toNat + m : Int) - (b.toNat + n)) := by
  apply BitVec.eq_of_toNat_eq
  rw [BitVec.toNat_ofInt]
  simp only [BitVec.toNat_sub, BitVec.toNat_add, BitVec.toNat_ofNat]
  omega

end Platypus.Machine
