import Platypus.Bits.Window
import Platypus.Linker.PltSlots
import Platypus.Machine.Exec

namespace Platypus.Linker

open Bytes Machine

-- The registers of the first six integer arguments.
def argReg : Fin 6 → Reg
  | 0 => .rdi
  | 1 => .rsi
  | 2 => .rdx
  | 3 => .rcx
  | 4 => .r8
  | 5 => .r9

theorem argReg_injective : Function.Injective argReg := by
  intro i j h
  fin_cases i <;> fin_cases j <;> first | rfl | cases h

theorem maskedReg_argReg (pos : Fin 6) :
    ∃ init reg rexR field, maskedReg [(pos : Int)] = some (init, reg) ∧
      rexW init = some rexR ∧ ripField reg = some field ∧ Reg.ofField rexR field = argReg pos := by
  fin_cases pos <;> exact ⟨_, _, _, _, rfl, rfl, rfl, rfl⟩

variable (cfg : Config) (c : Ctx)

-- The displacements of the masking stub at an address fit in their fields.
structure StubFits (s : SymId) (va : Word) : Prop where
  ormask : Fits (c.ormask_offset + cfg.va .got - (va + 11#64))
  andmask : Fits (c.andmask_offset + cfg.va .got - (va + 18#64))
  slot : Fits (c.getGotPltVA cfg s - (va + 24#64))

-- What the stub of a getter does with the register of the callback.
def maskingOps (reg : Reg) (s : SymId) : List Op :=
  [.endbr64, .or reg (c.ormask_offset + cfg.va .got), .and reg (c.andmask_offset + cfg.va .got),
    .jmpThrough (c.getGotPltVA cfg s)]

variable {cfg c}

theorem ops_maskingStub {init reg : Byte} {rexR : Bool} {field : BitVec 3} {s : SymId} {va : Word}
    (hrex : rexW init = some rexR) (hfield : ripField reg = some field)
    (hfits : StubFits cfg c s va) :
    ops (maskingStub cfg c init reg s va) va = maskingOps cfg c (.ofField rexR field) s := by
  have hor (a : Word) : a - va - 4#64 - 7#64 = a - (va + 11#64) := by bv_omega
  have hand (a : Word) : a - va - 4#64 - 7#64 - 7#64 = a - (va + 18#64) := by bv_omega
  have hslot (a : Word) : a - va - 10#64 - 7#64 - 7#64 = a - (va + 24#64) := by bv_omega
  have hnext₁ : va + 4#64 + 7#64 = va + 11#64 := by bv_omega
  have hnext₂ : va + 11#64 + 7#64 = va + 18#64 := by bv_omega
  have hnext₃ : va + 18#64 + 6#64 = va + 24#64 := by bv_omega
  rw [ops, disassemble_maskingStub cfg c hrex hfield, hor, hand, hslot, hnext₁, hnext₂, hnext₃]
  simp only [List.map_cons, List.map_nil, Insn.op, add_signExtend_of_fits _ _ hfits.ormask,
    add_signExtend_of_fits _ _ hfits.andmask, add_signExtend_of_fits _ _ hfits.slot]
  rfl

theorem runOps_maskingOps (cfg : Config) (c : Ctx) (reg : Reg) (s : SymId) (cpu : Cpu) :
    runOps (maskingOps cfg c reg s) cpu =
      some (cpu.mem (c.getGotPltVA cfg s),
        cpu.set reg ((cpu.regs reg ||| cpu.mem (c.ormask_offset + cfg.va .got)) &&&
          cpu.mem (c.andmask_offset + cfg.va .got))) := by
  simp [maskingOps, runOps]

-- Both encoders write the masking stub for a getter.
theorem write_getter {write : SymId → Word → Option (List Byte)}
    (hwrite : write = IntelIBT.writePlt cfg c ∨ write = X86_64.writeFakePlt cfg c) {s : SymId}
    {pos : List Int} {init reg : Byte} (va : Word)
    (hget : cfg.callb_get.lookup (c.syms s).name = some pos)
    (hreg : maskedReg pos = some (init, reg)) :
    write s va = some (maskingStub cfg c init reg s va) := by
  rcases hwrite with rfl | rfl
  · simp only [IntelIBT.writePlt, hget, hreg, Option.map_some]
  · simp only [X86_64.writeFakePlt, hget, hreg, Option.map_some]

theorem getter_ops {write : SymId → Word → Option (List Byte)}
    (hwrite : write = IntelIBT.writePlt cfg c ∨ write = X86_64.writeFakePlt cfg c) {s : SymId}
    {va : Word} (pos : Fin 6) (hget : cfg.callb_get.lookup (c.syms s).name = some [(pos : Int)])
    (hfits : StubFits cfg c s va) :
    ∃ bs, write s va = some bs ∧ bs.length = 26 ∧ ops bs va = maskingOps cfg c (argReg pos) s := by
  obtain ⟨init, reg, rexR, field, hreg, hrex, hfield, harg⟩ := maskedReg_argReg pos
  exact ⟨_, write_getter hwrite va hget hreg, rfl, harg ▸ ops_maskingStub hrex hfield hfits⟩

-- The stub of a getter masks the register of the callback and no other, and goes through the
-- slot of its symbol.
theorem getterStub_masks (cfg : Config) (c : Ctx) (write : SymId → Word → Option (List Byte))
    (hwrite : write = IntelIBT.writePlt cfg c ∨ write = X86_64.writeFakePlt cfg c) (s : SymId)
    (pos : Fin 6) (va : Word) (hget : cfg.callb_get.lookup (c.syms s).name = some [(pos : Int)])
    (hfits : StubFits cfg c s va) :
    ∃ bs, write s va = some bs ∧ bs.length ≤ pltEntrySize.toNat ∧
      ops bs va =
        [.endbr64, .or (argReg pos) (c.ormask_offset + cfg.va .got),
          .and (argReg pos) (c.andmask_offset + cfg.va .got),
          .jmpThrough (c.getGotPltVA cfg s)] ∧
      ∀ cpu, ∃ cpu', runOps (ops bs va) cpu = some (cpu.mem (c.getGotPltVA cfg s), cpu') ∧
        cpu'.regs (argReg pos) =
          (cpu.regs (argReg pos) ||| cpu.mem (c.ormask_offset + cfg.va .got)) &&&
            cpu.mem (c.andmask_offset + cfg.va .got) ∧
        (∀ r ≠ argReg pos, cpu'.regs r = cpu.regs r) ∧ cpu'.mem = cpu.mem := by
  obtain ⟨bs, hbs, hlength, hops⟩ := getter_ops hwrite pos hget hfits
  refine ⟨bs, hbs, ?_, hops, fun cpu => ?_⟩
  · rw [hlength]
    decide
  · have hrun := runOps_maskingOps cfg c (argReg pos) s cpu
    rw [← hops] at hrun
    exact ⟨_, hrun, cpu.regs_set_self _ _, fun r hr => cpu.regs_set_of_ne _ hr, rfl⟩

-- The link of the demonstration, with its two masks in the second and third slot of `.got`.
def getterLink : Ctx :=
  { postScanRelocations (demoConfig .IntelIBT) demoLink [0, 1, 2] with
    ormask_offset := 0x8#64
    andmask_offset := 0x10#64 }

theorem getterStub_masks_qsort :
    ∃ bs, X86_64.writeFakePlt (demoConfig .IntelIBT) getterLink (.sym 1) 0x2020#64 = some bs ∧
      ops bs 0x2020#64 =
        [.endbr64, .or .rcx 0x4008#64, .and .rcx 0x4010#64, .jmpThrough 0x5020#64] := by
  obtain ⟨bs, hbs, -, hops, -⟩ := getterStub_masks (demoConfig .IntelIBT) getterLink _ (.inr rfl)
    (.sym 1) 3 0x2020#64 rfl ⟨by decide, by decide, by decide⟩
  exact ⟨bs, hbs, hops⟩

-- The stub as its callee sees it: the values in `special` arrive as they were, and all others
-- arrive inside the window.
def Spares (code : List Op) (reg : Reg) (slot : Word) (mem : Word → Word) (W : Bits.Window 64)
    (special : Set Word) : Prop :=
  ∀ cpu : Cpu, cpu.mem = mem → ∃ cpu', runOps code cpu = some (mem slot, cpu') ∧
    (cpu.regs reg ∈ special → cpu'.regs reg = cpu.regs reg) ∧
    (cpu.regs reg ∉ special → W.Contains (cpu'.regs reg))

theorem contains_zero_iff (W : Bits.Window 64) : W.Contains 0#64 ↔ W.base = 0#64 := by
  constructor
  · intro h
    exact BitVec.eq_of_toNat_eq (Nat.le_zero.mp (BitVec.le_def.mp h.1))
  · intro h
    exact ⟨h ▸ BitVec.le_refl _, BitVec.le_def.mpr (Nat.zero_le _)⟩

theorem maskingOps_spares_iff {s : SymId} (reg : Reg) {mem : Word → Word} {W : Bits.Window 64}
    (hor : mem (c.ormask_offset + cfg.va .got) = W.base)
    (hand : mem (c.andmask_offset + cfg.va .got) = W.top) (special : Set Word) :
    Spares (maskingOps cfg c reg s) reg (c.getGotPltVA cfg s) mem W special ↔
      ∀ v ∈ special, W.Contains v := by
  have hrun (cpu : Cpu) (hmem : cpu.mem = mem) : runOps (maskingOps cfg c reg s) cpu =
      some (mem (c.getGotPltVA cfg s), cpu.set reg (W.mask (cpu.regs reg))) := by
    rw [runOps_maskingOps, hmem, hor, hand, Bits.Window.mask]
  constructor
  · intro hspares v hv
    obtain ⟨cpu', hrun', hkeep, -⟩ := hspares ⟨fun _ => v, mem⟩ rfl
    rw [hrun _ rfl] at hrun'
    obtain ⟨-, rfl⟩ := Prod.mk.inj (Option.some.inj hrun')
    have hsame := hkeep hv
    rw [Cpu.regs_set_self] at hsame
    exact (W.mask_eq_self_iff v).mp hsame
  · intro hall cpu hmem
    refine ⟨_, hrun cpu hmem, fun hv => ?_, fun _ => ?_⟩
    · rw [Cpu.regs_set_self]
      exact (W.mask_eq_self_iff _).mpr (hall _ hv)
    · rw [Cpu.regs_set_self]
      exact W.mask_contains _

-- Values that are not addresses pass only if they happen to lie in the window, and the null
-- pointer lies in no window that sets a bit.
theorem getterStub_spares_iff (cfg : Config) (c : Ctx) (write : SymId → Word → Option (List Byte))
    (hwrite : write = IntelIBT.writePlt cfg c ∨ write = X86_64.writeFakePlt cfg c) (s : SymId)
    (pos : Fin 6) (va : Word) (hget : cfg.callb_get.lookup (c.syms s).name = some [(pos : Int)])
    (hfits : StubFits cfg c s va) (mem : Word → Word) (W : Bits.Window 64)
    (hor : mem (c.ormask_offset + cfg.va .got) = W.base)
    (hand : mem (c.andmask_offset + cfg.va .got) = W.top) (special : Set Word)
    (hnull : 0#64 ∈ special) :
    ∃ bs, write s va = some bs ∧
      (Spares (ops bs va) (argReg pos) (c.getGotPltVA cfg s) mem W special ↔
        W.base = 0#64 ∧ ∀ v ∈ special, v ≤ W.top) := by
  obtain ⟨bs, hbs, -, hops⟩ := getter_ops hwrite pos hget hfits
  refine ⟨bs, hbs, ?_⟩
  rw [hops, maskingOps_spares_iff (argReg pos) hor hand special]
  constructor
  · intro hall
    exact ⟨(contains_zero_iff W).mp (hall _ hnull), fun v hv => (hall v hv).2⟩
  · rintro ⟨hbase, htop⟩ v hv
    exact ⟨hbase ▸ BitVec.le_def.mpr (Nat.zero_le _), htop v hv⟩

-- The window of the lowest page, and one page of the address space of a library.

def lowWindow : Bits.Window 64 := ⟨0#64, 12, by decide, by decide⟩

def libraryWindow : Bits.Window 64 := ⟨0x7f0000001000#64, 12, by decide, by decide⟩

-- The two masks of a window in their slots.
def maskWords (W : Bits.Window 64) (a : Word) : Word :=
  if a = 0x4008#64 then W.base else if a = 0x4010#64 then W.top else 0#64

def getterStubOps : List Op :=
  [.endbr64, .or .rcx 0x4008#64, .and .rcx 0x4010#64, .jmpThrough 0x5020#64]

theorem getterStub_spares_lowWindow :
    ∃ bs, X86_64.writeFakePlt (demoConfig .IntelIBT) getterLink (.sym 1) 0x2020#64 = some bs ∧
      Spares (ops bs 0x2020#64) .rcx 0x5020#64 (maskWords lowWindow) lowWindow {0#64, 1#64} := by
  obtain ⟨bs, hbs, hiff⟩ := getterStub_spares_iff (demoConfig .IntelIBT) getterLink _ (.inr rfl)
    (.sym 1) 3 0x2020#64 rfl ⟨by decide, by decide, by decide⟩ (maskWords lowWindow) lowWindow
    (by decide) (by decide) {0#64, 1#64} (.inl rfl)
  refine ⟨bs, hbs, hiff.mpr ⟨rfl, ?_⟩⟩
  rintro v (rfl | rfl)
  · decide
  · decide

-- A null callback reaches the callee as the start of the window.
theorem getterStub_not_spares :
    libraryWindow.base ≠ 0#64 ∧
      (∃ bs, X86_64.writeFakePlt (demoConfig .IntelIBT) getterLink (.sym 1) 0x2020#64 = some bs ∧
        ops bs 0x2020#64 = getterStubOps) ∧
      (runOps getterStubOps ⟨fun _ => 0#64, maskWords libraryWindow⟩).map (·.2.regs .rcx) =
        some 0x7f0000001000#64 ∧
      ¬Spares getterStubOps .rcx 0x5020#64 (maskWords libraryWindow) libraryWindow {0#64, 1#64} := by
  have hrun : (runOps getterStubOps ⟨fun _ => 0#64, maskWords libraryWindow⟩).map (·.2.regs .rcx) =
      some 0x7f0000001000#64 := by decide
  refine ⟨by decide, ?_, hrun, fun hspares => ?_⟩
  · have hfits : StubFits (demoConfig .IntelIBT) getterLink (.sym 1) 0x2020#64 :=
      ⟨by decide, by decide, by decide⟩
    obtain ⟨bs, hbs, -, hops⟩ := getter_ops (.inr rfl) 3 rfl hfits
    exact ⟨bs, hbs, hops⟩
  · obtain ⟨cpu', hrun', hkeep, -⟩ := hspares ⟨fun _ => 0#64, maskWords libraryWindow⟩ rfl
    have hzero : cpu'.regs .rcx = 0#64 := hkeep (.inl rfl)
    rw [hrun', Option.map_some, Option.some_inj] at hrun
    exact absurd (hzero.symm.trans hrun) (by decide)

end Platypus.Linker
