import Platypus.Linker.Symbols
import Platypus.Machine.Decode

namespace Platypus.Linker

open Bytes Machine

def callbackReg : List Byte := [0x3d#8, 0x35#8, 0x15#8, 0x0d#8, 0x05#8, 0x0d#8]

-- The REX prefix and the ModRM byte of the masked argument. The other argument lists make
-- the linker exit, or read `callback_reg` out of bounds.
def maskedReg (arg_pos : List Int) : Option (Byte × Byte) :=
  match arg_pos with
  | [pos] =>
    if pos < 0 then none
    else if pos < 4 then some (0x48#8, callbackReg.getD pos.toNat 0#8)
    else if pos = 4 ∨ pos = 5 then some (0x4c#8, callbackReg.getD pos.toNat 0#8)
    else none
  | _ => none

-- `write32le` takes the low half of a 64-bit difference.
def writeDisp (bs : List Byte) (k : Nat) (d : Word) : List Byte := write32le bs k (d.setWidth 32)

variable (cfg : Config) (c : Ctx)

-- The index pushed for the lazy resolver.
def relocIndex (s : SymId) : BitVec 32 :=
  if (c.syms s).isFake then c.getFakePltIdx s - c.removeDuplicatePlts s
  else c.getPltIdx s - c.removeDuplicatePlts s

namespace X86_64

def writePltHeader : List Byte :=
  let pltData :=
    [0xff#8, 0x35#8, 0#8, 0#8, 0#8, 0#8,
      0xff#8, 0x25#8, 0#8, 0#8, 0#8, 0#8,
      0x0f#8, 0x1f#8, 0x40#8, 0x00#8]
  let gotPlt := cfg.va .gotPlt
  let plt := match cfg.target with
    | .IntelIBT => cfg.va .ibtPlt
    | .X86_64 => cfg.va .plt
  writeDisp (writeDisp pltData 2 (gotPlt - plt + 2#64)) 8 (gotPlt - plt + 4#64)

def writePlt (s : SymId) (pltEntryAddr : Word) : Option (List Byte) :=
  match cfg.callb_get.lookup (c.syms s).name with
  | some arg_pos =>
    match maskedReg arg_pos with
    | none => none
    | some (init, reg) =>
      let inst :=
        [init, 0x0b#8, reg, 0#8, 0#8, 0#8, 0#8,
          0xff#8, 0x25#8, 0#8, 0#8, 0#8, 0#8,
          0x68#8, 0#8, 0#8, 0#8, 0#8,
          0xe9#8, 0#8, 0#8, 0#8, 0#8]
      let inst := writeDisp inst 3 (c.ormask_offset + cfg.va .got - pltEntryAddr - 7#64)
      let inst := writeDisp inst (2 + 7) (c.getGotPltVA cfg s - pltEntryAddr - 6#64 - 7#64)
      let inst := write32le inst (7 + 7) (relocIndex c s)
      some (writeDisp inst (12 + 7) (cfg.va .plt - pltEntryAddr - 16#64 - 7#64))
  | none =>
    let inst :=
      [0xff#8, 0x25#8, 0#8, 0#8, 0#8, 0#8,
        0x68#8, 0#8, 0#8, 0#8, 0#8,
        0xe9#8, 0#8, 0#8, 0#8, 0#8]
    let inst := writeDisp inst 2 (c.getGotPltVA cfg s - pltEntryAddr - 6#64)
    let inst := write32le inst 7 (relocIndex c s)
    some (writeDisp inst 12 (cfg.va .plt - pltEntryAddr - 16#64))

end X86_64

-- The stub of a callback getter: the argument is forced into the window of the module.
def maskingStub (init reg : Byte) (s : SymId) (pltEntryAddr : Word) : List Byte :=
  let Inst :=
    [0xf3#8, 0x0f#8, 0x1e#8, 0xfa#8,
      init, 0x0b#8, reg, 0#8, 0#8, 0#8, 0#8,
      init, 0x23#8, reg, 0#8, 0#8, 0#8, 0#8,
      0xff#8, 0x25#8, 0#8, 0#8, 0#8, 0#8,
      0x90#8, 0x90#8]
  let Inst := writeDisp Inst (4 + 3)
    (c.ormask_offset + cfg.va .got - pltEntryAddr - 4#64 - 7#64)
  let Inst := writeDisp Inst (4 + 7 + 3)
    (c.andmask_offset + cfg.va .got - pltEntryAddr - 4#64 - 7#64 - 7#64)
  writeDisp Inst (6 + 7 + 7) (c.getGotPltVA cfg s - pltEntryAddr - 10#64 - 7#64 - 7#64)

def plainStub (disp : Word) : List Byte :=
  writeDisp
    [0xf3#8, 0x0f#8, 0x1e#8, 0xfa#8,
      0xff#8, 0x25#8, 0#8, 0#8, 0#8, 0#8,
      0x66#8, 0x0f#8, 0x1f#8, 0x44#8, 0#8, 0#8]
    6 disp

def X86_64.writeFakePlt (s : SymId) (pltEntryAddr : Word) : Option (List Byte) :=
  match cfg.callb_get.lookup (c.syms s).name with
  | some arg_pos =>
    (maskedReg arg_pos).map fun (init, reg) => maskingStub cfg c init reg s pltEntryAddr
  | none => some (plainStub (c.getGotPltVA cfg s - pltEntryAddr - 10#64))

def IntelIBT.writePlt (s : SymId) (pltEntryAddr : Word) : Option (List Byte) :=
  match cfg.callb_get.lookup (c.syms s).name with
  | some arg_pos =>
    (maskedReg arg_pos).map fun (init, reg) => maskingStub cfg c init reg s pltEntryAddr
  | none =>
    if (c.syms s).startsWith "placeholder" then some (plainStub pltEntryAddr)
    else some (plainStub (c.getGotPltVA cfg s - pltEntryAddr - 10#64))

def Target.writePlt : Target → SymId → Word → Option (List Byte)
  | .X86_64 => X86_64.writePlt cfg c
  | .IntelIBT => IntelIBT.writePlt cfg c

-- `none` is an exit of the linker.
def PltSection.writeTo (buf : Buffer) : Option Buffer :=
  writeRecords pltEntrySize.toNat
    (fun s off => cfg.target.writePlt cfg c s (cfg.va .plt + BitVec.ofNat 64 off))
    c.plt cfg.target.pltHeaderSize (memcpy buf 0 (X86_64.writePltHeader cfg))

def FakePltSection.writeTo (buf : Buffer) : Option Buffer :=
  writeRecords pltEntrySize.toNat
    (fun s off => X86_64.writeFakePlt cfg c s (cfg.va .fakeplt + BitVec.ofNat 64 off))
    c.fakeplt 0 buf

theorem disassemble_plainStub (d va : Word) :
    disassemble (plainStub d) va =
      [(.endbr64, va + 4#64), (.jmpMem (d.setWidth 32), va + 4#64 + 6#64)] := by
  refine (sweep_cons 15 _ va _ (decode_endbr64 _)).trans (congrArg _ ?_)
  refine (sweep_cons 14 _ _ _ (decode_jmpMem (d.setWidth 32) _)).trans (congrArg _ ?_)
  rfl

theorem maskedReg_cases (arg_pos : List Int) (init reg : Byte)
    (h : maskedReg arg_pos = some (init, reg)) :
    ∃ rexR field, rexW init = some rexR ∧ ripField reg = some field := by
  unfold maskedReg at h
  split at h
  · rename_i pos
    split_ifs at h with h₀ h₄ h₅
    · cases h
      obtain h | h | h | h : pos = 0 ∨ pos = 1 ∨ pos = 2 ∨ pos = 3 := by omega
      all_goals
        subst h
        exact ⟨_, _, rfl, rfl⟩
    · cases h
      rcases h₅ with h | h
      all_goals
        subst h
        exact ⟨_, _, rfl, rfl⟩
  · cases h

theorem disassemble_maskingStub {init reg : Byte} {rexR : Bool} {field : BitVec 3}
    (hrex : rexW init = some rexR) (hfield : ripField reg = some field) (s : SymId) (va : Word) :
    disassemble (maskingStub cfg c init reg s va) va =
      [(.endbr64, va + 4#64),
        (.orMem (.ofField rexR field)
          ((c.ormask_offset + cfg.va .got - va - 4#64 - 7#64).setWidth 32), va + 4#64 + 7#64),
        (.andMem (.ofField rexR field)
          ((c.andmask_offset + cfg.va .got - va - 4#64 - 7#64 - 7#64).setWidth 32),
          va + 4#64 + 7#64 + 7#64),
        (.jmpMem ((c.getGotPltVA cfg s - va - 10#64 - 7#64 - 7#64).setWidth 32),
          va + 4#64 + 7#64 + 7#64 + 6#64)] := by
  refine (sweep_cons 25 _ va _ (decode_endbr64 _)).trans (congrArg _ ?_)
  refine (sweep_cons 24 _ _ _ (decode_orMem hrex hfield _ _)).trans (congrArg _ ?_)
  refine (sweep_cons 23 _ _ _ (decode_andMem hrex hfield _ _)).trans (congrArg _ ?_)
  refine (sweep_cons 22 _ _ _ (decode_jmpMem _ _)).trans (congrArg _ ?_)
  rfl

theorem pushed_writePlt (s : SymId) (va : Word) (bs : List Byte)
    (h : X86_64.writePlt cfg c s va = some bs) :
    pushed (disassemble bs va) = some (relocIndex c s) := by
  unfold X86_64.writePlt at h
  split at h
  · rename_i arg_pos _
    split at h
    · cases h
    · rename_i init reg hreg
      obtain ⟨rexR, field, hrex, hfield⟩ := maskedReg_cases _ _ _ hreg
      cases h
      refine (congrArg pushed (sweep_cons 22 _ va _ (decode_orMem hrex hfield _ _))).trans ?_
      refine (congrArg (fun code => pushed (_ :: code))
        (sweep_cons 21 _ _ _ (decode_jmpMem _ _))).trans ?_
      exact congrArg (fun code => pushed (_ :: _ :: code))
        (sweep_cons 20 _ _ _ (decode_push (relocIndex c s) _))
  · cases h
    refine (congrArg pushed (sweep_cons 15 _ va _ (decode_jmpMem _ _))).trans ?_
    exact congrArg (fun code => pushed (_ :: code))
      (sweep_cons 14 _ _ _ (decode_push (relocIndex c s) _))

theorem writePlt_eq_writeFakePlt (s : SymId) (va : Word)
    (h : (c.syms s).startsWith "placeholder" = false) :
    IntelIBT.writePlt cfg c s va = X86_64.writeFakePlt cfg c s va := by
  unfold IntelIBT.writePlt X86_64.writeFakePlt
  simp only [h, Bool.false_eq_true, if_false]

theorem writeFakePlt_length (s : SymId) (va : Word) (bs : List Byte)
    (h : X86_64.writeFakePlt cfg c s va = some bs) : bs.length ≤ 32 := by
  unfold X86_64.writeFakePlt at h
  split at h
  · obtain ⟨⟨init, reg⟩, _, rfl⟩ := Option.map_eq_some_iff.mp h
    change 26 ≤ 32
    decide
  · cases h
    change 16 ≤ 32
    decide

-- With displacements that fit, the jump of a stub goes through the slot of its symbol.
theorem jumpSlot_writeFakePlt (s : SymId) (va : Word) (bs : List Byte)
    (h : X86_64.writeFakePlt cfg c s va = some bs)
    (hplain : Fits (c.getGotPltVA cfg s - (va + 10#64)))
    (hmasked : Fits (c.getGotPltVA cfg s - (va + 24#64))) :
    jumpSlot (disassemble bs va) = some (c.getGotPltVA cfg s) := by
  unfold X86_64.writeFakePlt at h
  split at h
  · obtain ⟨⟨init, reg⟩, hreg, rfl⟩ := Option.map_eq_some_iff.mp h
    obtain ⟨rexR, field, hrex, hfield⟩ := maskedReg_cases _ _ _ hreg
    have hdisp : c.getGotPltVA cfg s - va - 10#64 - 7#64 - 7#64 =
        c.getGotPltVA cfg s - (va + 24#64) := by bv_omega
    have hnext : va + 4#64 + 7#64 + 7#64 + 6#64 = va + 24#64 := by bv_omega
    rw [disassemble_maskingStub cfg c hrex hfield, hdisp, hnext]
    exact congrArg some (add_signExtend_of_fits _ _ hmasked)
  · cases h
    have hdisp : c.getGotPltVA cfg s - va - 10#64 = c.getGotPltVA cfg s - (va + 10#64) := by
      bv_omega
    have hnext : va + 4#64 + 6#64 = va + 10#64 := by bv_omega
    rw [disassemble_plainStub, hdisp, hnext]
    exact congrArg some (add_signExtend_of_fits _ _ hplain)

end Platypus.Linker
