import Platypus.Linker.GetterStub

-- The stub of a getter in `.plt`, with and without IBT.

namespace Platypus.Linker

open Bytes Machine

variable (cfg : Config) (c : Ctx)

-- The displacements of the stub without IBT fit in their fields.
structure LazyStubFits (s : SymId) (va : Word) : Prop where
  ormask : Fits (c.ormask_offset + cfg.va .got - (va + 7#64))
  slot : Fits (c.getGotPltVA cfg s - (va + 13#64))

variable {cfg c}

-- What follows the jump is only run by the lazy resolver.
theorem ops_writePlt_getter {s : SymId} {va : Word} (pos : Fin 6)
    (hget : cfg.callb_get.lookup (c.syms s).name = some [(pos : Int)])
    (hfits : LazyStubFits cfg c s va) :
    ∃ bs rest, X86_64.writePlt cfg c s va = some bs ∧
      ops bs va = .or (argReg pos) (c.ormask_offset + cfg.va .got) ::
        .jmpThrough (c.getGotPltVA cfg s) :: rest := by
  obtain ⟨init, reg, rexR, field, hreg, hrex, hfield, harg⟩ := maskedReg_argReg pos
  have hor (a : Word) : a - va - 7#64 = a - (va + 7#64) := by bv_omega
  have hslot (a : Word) : a - va - 6#64 - 7#64 = a - (va + 13#64) := by bv_omega
  have hnext : va + 7#64 + 6#64 = va + 13#64 := by bv_omega
  have hcode : ∃ bs rest, X86_64.writePlt cfg c s va = some bs ∧
      disassemble bs va =
        (.orMem (argReg pos) ((c.ormask_offset + cfg.va .got - (va + 7#64)).setWidth 32),
          va + 7#64) ::
        (.jmpMem ((c.getGotPltVA cfg s - (va + 13#64)).setWidth 32), va + 13#64) :: rest := by
    simp only [X86_64.writePlt, hget, hreg]
    refine ⟨_, ?rest, rfl, ?code⟩
    case code =>
      refine (sweep_cons 22 _ va _ (decode_orMem hrex hfield _ _)).trans ?_
      rw [harg, hor]
      refine congrArg _ ((sweep_cons 21 _ _ _ (decode_jmpMem _ _)).trans ?_)
      rw [hslot]
      change (_, va + 7#64 + 6#64) :: sweep 21 _ (va + 7#64 + 6#64) = _
      rw [hnext]
  obtain ⟨bs, rest, hbs, hdis⟩ := hcode
  refine ⟨bs, rest.map fun p => p.1.op p.2, hbs, ?_⟩
  rw [ops, hdis]
  simp only [List.map_cons, Insn.op, add_signExtend_of_fits _ _ hfits.ormask,
    add_signExtend_of_fits _ _ hfits.slot]

-- No `and` follows the `or`.
theorem runOps_writePlt_getter (reg : Reg) (ormask slot : Word) (rest : List Op) (cpu : Cpu) :
    runOps (.or reg ormask :: .jmpThrough slot :: rest) cpu =
      some (cpu.mem slot, cpu.set reg (cpu.regs reg ||| cpu.mem ormask)) := rfl

theorem or_eq_or_and_iff (x o a : Word) :
    x ||| o = (x ||| o) &&& a ↔ x &&& ~~~a = 0#64 ∧ o &&& ~~~a = 0#64 := by
  simp only [BitVec.eq_of_getElem_eq_iff, BitVec.getElem_or, BitVec.getElem_and,
    BitVec.getElem_not, BitVec.getElem_zero]
  rw [← forall_and]
  refine forall_congr' fun i => ?_
  rw [← forall_and]
  refine forall_congr' fun hi => ?_
  cases x[i] <;> cases o[i] <;> cases a[i] <;> decide

-- The two links may be laid out differently; what counts is that the stubs find the same masks
-- and the same argument.
theorem getterStubs_agree_iff (cfg cfg' : Config) (c c' : Ctx) (s s' : SymId) (pos : Fin 6)
    (va va' : Word) (hget : cfg.callb_get.lookup (c.syms s).name = some [(pos : Int)])
    (hget' : cfg'.callb_get.lookup (c'.syms s').name = some [(pos : Int)])
    (hfits : LazyStubFits cfg c s va) (hfits' : StubFits cfg' c' s' va') :
    ∃ bs bs', X86_64.writePlt cfg c s va = some bs ∧ IntelIBT.writePlt cfg' c' s' va' = some bs' ∧
      ∀ (cpu cpu' : Cpu) (x or_mask and_mask : Word),
        cpu.regs (argReg pos) = x → cpu'.regs (argReg pos) = x →
        cpu.mem (c.ormask_offset + cfg.va .got) = or_mask →
        cpu'.mem (c'.ormask_offset + cfg'.va .got) = or_mask →
        cpu'.mem (c'.andmask_offset + cfg'.va .got) = and_mask →
        ∃ out out', runOps (ops bs va) cpu = some (cpu.mem (c.getGotPltVA cfg s), out) ∧
          runOps (ops bs' va') cpu' = some (cpu'.mem (c'.getGotPltVA cfg' s'), out') ∧
          out'.regs (argReg pos) = (x ||| or_mask) &&& and_mask ∧
          (out.regs (argReg pos) = out'.regs (argReg pos) ↔
            x &&& ~~~and_mask = 0#64 ∧ or_mask &&& ~~~and_mask = 0#64) := by
  obtain ⟨bs, rest, hbs, hops⟩ := ops_writePlt_getter pos hget hfits
  obtain ⟨bs', hbs', -, hops'⟩ := getter_ops (.inl rfl) pos hget' hfits'
  refine ⟨bs, bs', hbs, hbs', ?_⟩
  rintro cpu cpu' x _ _ rfl hx rfl hor rfl
  have hrun := runOps_writePlt_getter (argReg pos) (c.ormask_offset + cfg.va .got)
    (c.getGotPltVA cfg s) rest cpu
  have hrun' := runOps_maskingOps cfg' c' (argReg pos) s' cpu'
  rw [← hops] at hrun
  rw [← hops', hx, hor] at hrun'
  refine ⟨_, _, hrun, hrun', Cpu.regs_set_self _ _ _, ?_⟩
  rw [Cpu.regs_set_self, Cpu.regs_set_self]
  exact or_eq_or_and_iff _ _ _

-- An argument in the window of the library, and one above it.

def argumentAt (x : Word) : Cpu := ⟨fun _ => x, maskWords libraryWindow⟩

theorem getterLink_fits : StubFits (demoConfig .IntelIBT) getterLink (.sym 1) 0x1000#64 :=
  ⟨by decide, by decide, by decide⟩

theorem getterLink_lazyFits : LazyStubFits (demoConfig .X86_64) getterLink (.sym 1) 0x1010#64 :=
  ⟨by decide, by decide⟩

theorem getterStubs_agree_inside :
    ∃ bs bs' out out', X86_64.writePlt (demoConfig .X86_64) getterLink (.sym 1) 0x1010#64 = some bs ∧
      IntelIBT.writePlt (demoConfig .IntelIBT) getterLink (.sym 1) 0x1000#64 = some bs' ∧
      runOps (ops bs 0x1010#64) (argumentAt 0x7f0000001139#64) = some (0#64, out) ∧
      runOps (ops bs' 0x1000#64) (argumentAt 0x7f0000001139#64) = some (0#64, out') ∧
      out.regs .rcx = out'.regs .rcx := by
  obtain ⟨bs, bs', hbs, hbs', hall⟩ := getterStubs_agree_iff (demoConfig .X86_64)
    (demoConfig .IntelIBT) getterLink getterLink (.sym 1) (.sym 1) 3 0x1010#64 0x1000#64 rfl rfl
    getterLink_lazyFits getterLink_fits
  obtain ⟨out, out', hrun, hrun', -, hiff⟩ := hall (argumentAt 0x7f0000001139#64)
    (argumentAt 0x7f0000001139#64) 0x7f0000001139#64 libraryWindow.base libraryWindow.top rfl rfl
    (by decide) (by decide) (by decide)
  exact ⟨bs, bs', out, out', hbs, hbs', hrun, hrun', hiff.mpr ⟨by decide, by decide⟩⟩

-- Without IBT the bits above the window stay.
theorem getterStubs_differ :
    ∃ bs bs' out out', X86_64.writePlt (demoConfig .X86_64) getterLink (.sym 1) 0x1010#64 = some bs ∧
      IntelIBT.writePlt (demoConfig .IntelIBT) getterLink (.sym 1) 0x1000#64 = some bs' ∧
      runOps (ops bs 0x1010#64) (argumentAt 0x800000000000#64) = some (0#64, out) ∧
      runOps (ops bs' 0x1000#64) (argumentAt 0x800000000000#64) = some (0#64, out') ∧
      out.regs .rcx = 0xff0000001000#64 ∧ out'.regs .rcx = 0x7f0000001000#64 := by
  obtain ⟨bs, rest, hbs, hops⟩ := ops_writePlt_getter 3 rfl getterLink_lazyFits
  obtain ⟨bs', hbs', -, hops'⟩ := getter_ops (.inl rfl) 3 rfl getterLink_fits
  have hrun := runOps_writePlt_getter .rcx 0x4008#64 0x5020#64 rest (argumentAt 0x800000000000#64)
  have hrun' := runOps_maskingOps (demoConfig .IntelIBT) getterLink .rcx (.sym 1)
    (argumentAt 0x800000000000#64)
  refine ⟨bs, bs', _, _, hbs, hbs', (congrArg (runOps · _) hops).trans hrun,
    (congrArg (runOps · _) hops').trans hrun', ?_, ?_⟩
  · rw [Cpu.regs_set_self]
    decide
  · rw [Cpu.regs_set_self]
    decide

end Platypus.Linker
