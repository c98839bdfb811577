import Platypus.Machine.Decode

namespace Platypus.Machine

open Bytes

-- An instruction with the address that its displacement stands for.
inductive Op
  | endbr64
  | or (reg : Reg) (slot : Word)
  | and (reg : Reg) (slot : Word)
  | jmpThrough (slot : Word)
  | push (imm : BitVec 32)
  | jmp (target : Word)
  deriving DecidableEq, Repr

-- Displacements count from the next instruction.
def Insn.op (insn : Insn) (next : Word) : Op :=
  match insn with
  | .endbr64 => .endbr64
  | .orMem reg disp => .or reg (next + disp.signExtend 64)
  | .andMem reg disp => .and reg (next + disp.signExtend 64)
  | .jmpMem disp => .jmpThrough (next + disp.signExtend 64)
  | .push imm => .push imm
  | .jmp disp => .jmp (next + disp.signExtend 64)

instance (d : Word) : Decidable (Fits d) :=
  inferInstanceAs (Decidable ((d.setWidth 32).signExtend 64 = d))

def ops (bs : List Byte) (va : Word) : List Op := (disassemble bs va).map fun c => c.1.op c.2

-- The general registers, and the memory by the addresses of its words.
structure Cpu where
  regs : Reg → Word
  mem : Word → Word

namespace Cpu

variable (s : Cpu)

def set (r : Reg) (w : Word) : Cpu := { s with regs := fun r' => if r' = r then w else s.regs r' }

def store (a w : Word) : Cpu := { s with mem := fun a' => if a' = a then w else s.mem a' }

@[simp] theorem regs_set_self (r : Reg) (w : Word) : (s.set r w).regs r = w := if_pos rfl

theorem regs_set_of_ne {r r' : Reg} (w : Word) (h : r' ≠ r) : (s.set r w).regs r' = s.regs r' :=
  if_neg h

@[simp] theorem mem_set (r : Reg) (w : Word) : (s.set r w).mem = s.mem := rfl

@[simp] theorem set_set (r : Reg) (w w' : Word) : (s.set r w).set r w' = s.set r w' := by
  unfold set
  congr 1
  funext r'
  dsimp only
  split <;> rfl

end Cpu

-- Straight-line code up to its first jump: where it goes, and the state that it leaves.
def runOps : List Op → Cpu → Option (Word × Cpu)
  | [], _ => none
  | .endbr64 :: code, s => runOps code s
  | .or reg slot :: code, s => runOps code (s.set reg (s.regs reg ||| s.mem slot))
  | .and reg slot :: code, s => runOps code (s.set reg (s.regs reg &&& s.mem slot))
  | .push imm :: code, s =>
    let sp := s.regs .rsp - 8#64
    runOps code ((s.set .rsp sp).store sp (imm.signExtend 64))
  | .jmpThrough slot :: _, s => some (s.mem slot, s)
  | .jmp target :: _, s => some (target, s)

end Platypus.Machine
