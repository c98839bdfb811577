import Platypus.Linker.CallbGetter
import Platypus.Linker.GetterStub

-- From the positions in a log to the register that a stub masks.

namespace Platypus.Linker

open Platypus.Text Platypus.Parser Bytes Machine

theorem lookup_entries {ν : Type} (es : List (List Char × ν)) (k : List Char) :
    es.lookup k = Dict.find es k := by
  induction es with
  | nil => rfl
  | cons e es ih =>
    obtain ⟨k₀, v⟩ := e
    by_cases h : k = k₀
    · rw [List.lookup_cons, beq_iff_eq.mpr h, Dict.find, if_pos h.symm]
    · rw [List.lookup_cons, beq_eq_false_iff_ne.mpr h, Dict.find, if_neg (Ne.symm h)]
      exact ih

-- All positions that the log records for a getter.
def recorded (log : List Printed) (name : List Char) : List Nat :=
  ((records log).filter fun r => r.item = name).flatMap fun r => r.positions.map (ofDigits 10)

-- The code leaves the argument at a position inside the window; only the first six arguments
-- have a register.
def Masks (code : List Op) (mem : Word → Word) (W : Bits.Window 64) (p : Nat) : Prop :=
  ∃ h : p < 6, ∀ cpu : Cpu, cpu.mem = mem → ∃ target cpu', runOps code cpu = some (target, cpu') ∧
    cpu'.regs (argReg ⟨p, h⟩) = W.mask (cpu.regs (argReg ⟨p, h⟩))

section Masks

variable {cfg : Config} {c : Ctx} {mem : Word → Word} {W : Bits.Window 64}

-- Code that keeps the register of a position does not mask it.
theorem not_masks_of_kept {code : List Op} {p : Nat} (hproper : ∃ v, ¬W.Contains v)
    (hkeep : ∀ h : p < 6, ∀ cpu : Cpu, ∀ target cpu', runOps code cpu = some (target, cpu') →
      cpu'.regs (argReg ⟨p, h⟩) = cpu.regs (argReg ⟨p, h⟩)) : ¬Masks code mem W p := by
  rintro ⟨h, hmask⟩
  obtain ⟨v, hv⟩ := hproper
  obtain ⟨target, cpu', hrun, hreg⟩ := hmask ⟨fun _ => v, mem⟩ rfl
  rw [hkeep h _ _ _ hrun] at hreg
  exact hv ((W.mask_eq_self_iff v).mp hreg.symm)

theorem maskingOps_masks_iff {s : SymId} (pos : Fin 6) (hproper : ∃ v, ¬W.Contains v)
    (hor : mem (c.ormask_offset + cfg.va .got) = W.base)
    (hand : mem (c.andmask_offset + cfg.va .got) = W.top) (p : Nat) :
    Masks (maskingOps cfg c (argReg pos) s) mem W p ↔ p = pos := by
  constructor
  · intro hmask
    by_contra hp
    refine not_masks_of_kept hproper (fun h cpu target cpu' hrun => ?_) hmask
    rw [runOps_maskingOps] at hrun
    obtain ⟨-, rfl⟩ := Prod.mk.inj (Option.some.inj hrun)
    refine cpu.regs_set_of_ne _ fun heq => hp ?_
    exact congrArg Fin.val (argReg_injective heq)
  · rintro rfl
    refine ⟨pos.isLt, fun cpu hmem => ⟨_, _, runOps_maskingOps cfg c _ s cpu, ?_⟩⟩
    rw [hmem, hor, hand]
    exact cpu.regs_set_self _ _

theorem plainStub_not_masks (d va : Word) (hproper : ∃ v, ¬W.Contains v) (p : Nat) :
    ¬Masks (ops (plainStub d) va) mem W p := by
  refine not_masks_of_kept hproper fun h cpu target cpu' hrun => ?_
  rw [ops, disassemble_plainStub] at hrun
  obtain ⟨-, rfl⟩ := Prod.mk.inj (Option.some.inj hrun)
  rfl

variable {write : SymId → Word → Option (List Byte)}

-- A function that is no getter has the plain stub.
theorem write_plain (hwrite : write = IntelIBT.writePlt cfg c ∨ write = X86_64.writeFakePlt cfg c)
    {s : SymId} (va : Word) (hget : cfg.callb_get.lookup (c.syms s).name = none) :
    ∃ d, write s va = some (plainStub d) := by
  rcases hwrite with rfl | rfl
  · simp only [IntelIBT.writePlt, hget]
    split
    · exact ⟨_, rfl⟩
    · exact ⟨_, rfl⟩
  · simp only [X86_64.writeFakePlt, hget]
    exact ⟨_, rfl⟩

-- The stub writers exit on a position without a register.
theorem write_stack (hwrite : write = IntelIBT.writePlt cfg c ∨ write = X86_64.writeFakePlt cfg c)
    {s : SymId} (va : Word) {pos : Nat} (hpos : 6 ≤ pos)
    (hget : cfg.callb_get.lookup (c.syms s).name = some [(pos : Int)]) : write s va = none := by
  have hreg : maskedReg [(pos : Int)] = none := by
    rw [maskedReg, if_neg (by omega), if_neg (by omega), if_neg (by omega)]
  rcases hwrite with rfl | rfl
  · simp only [IntelIBT.writePlt, hget, hreg, Option.map_none]
  · simp only [X86_64.writeFakePlt, hget, hreg, Option.map_none]

-- What of a list of positions the stub of a symbol masks.

theorem plain_masked_iff
    (hwrite : write = IntelIBT.writePlt cfg c ∨ write = X86_64.writeFakePlt cfg c) {s : SymId}
    (va : Word) (hget : cfg.callb_get.lookup (c.syms s).name = none)
    (hproper : ∃ v, ¬W.Contains v) (ps : List Nat) :
    (∃ bs, write s va = some bs ∧ ∀ p ∈ ps, Masks (ops bs va) mem W p) ↔ ps = [] := by
  obtain ⟨d, hd⟩ := write_plain hwrite va hget
  constructor
  · rintro ⟨bs, hbs, hall⟩
    obtain rfl := Option.some.inj (hd.symm.trans hbs)
    exact List.eq_nil_iff_forall_not_mem.mpr fun p hp =>
      plainStub_not_masks d va hproper p (hall p hp)
  · rintro rfl
    exact ⟨_, hd, fun p hp => absurd hp List.not_mem_nil⟩

theorem getter_masked_iff
    (hwrite : write = IntelIBT.writePlt cfg c ∨ write = X86_64.writeFakePlt cfg c) {s : SymId}
    {va : Word} {pos : Nat} (hget : cfg.callb_get.lookup (c.syms s).name = some [(pos : Int)])
    (hfits : StubFits cfg c s va) (hproper : ∃ v, ¬W.Contains v)
    (hor : mem (c.ormask_offset + cfg.va .got) = W.base)
    (hand : mem (c.andmask_offset + cfg.va .got) = W.top) (ps : List Nat) :
    (∃ bs, write s va = some bs ∧ ∀ p ∈ ps, Masks (ops bs va) mem W p) ↔
      pos < 6 ∧ ∀ p ∈ ps, p = pos := by
  by_cases hpos : pos < 6
  · obtain ⟨bs, hbs, -, hops⟩ := getter_ops hwrite ⟨pos, hpos⟩ hget hfits
    have hmasks (p : Nat) : Masks (ops bs va) mem W p ↔ p = pos := by
      rw [hops]
      exact maskingOps_masks_iff ⟨pos, hpos⟩ hproper hor hand p
    constructor
    · rintro ⟨bs', hbs', hall⟩
      obtain rfl := Option.some.inj (hbs.symm.trans hbs')
      exact ⟨hpos, fun p hp => (hmasks p).mp (hall p hp)⟩
    · rintro ⟨-, hall⟩
      exact ⟨bs, hbs, fun p hp => (hmasks p).mpr (hall p hp)⟩
  · have hexit := write_stack hwrite va (Nat.le_of_not_lt hpos) hget
    constructor
    · rintro ⟨bs, hbs, -⟩
      rw [hexit] at hbs
      cases hbs
    · rintro ⟨hlt, -⟩
      exact absurd hlt hpos

end Masks

theorem recorded_eq_nil {log : List Printed} {name : List Char} (h : lastRecord log name = none) :
    recorded log name = [] := by
  rw [recorded, List.getLast?_eq_none_iff.mp h, List.flatMap_nil]

theorem firstPrinted_mem {log : List Printed} {name : List Char} {r : GetterRecord}
    (hlog : ∀ x ∈ log, x.Plain) (h : lastRecord log name = some r) :
    ofDigits 10 (r.positions.headD []) ∈ recorded log name := by
  have hmem := List.mem_of_getLast? h
  have hplain : r.Plain := hlog _ (mem_records.mp (List.mem_filter.mp hmem).1)
  obtain ⟨p, ps, hps⟩ := List.exists_cons_of_ne_nil hplain.printed
  refine List.mem_flatMap.mpr ⟨r, hmem, List.mem_map.mpr ⟨p, ?_, ?_⟩⟩
  · rw [hps]
    exact List.mem_cons_self
  · rw [hps, List.headD_cons]

-- The stub masks one register, that of the position printed first in the last record. All
-- recorded positions are masked only if they are one position, and it has a register.
theorem recorded_masked_iff (log : List Printed) (hlog : ∀ x ∈ log, x.Plain)
    (hint : ∀ r ∈ records log, ∀ p ∈ r.positions, ofDigits 10 p < 2 ^ 31) (cfg : Config) (c : Ctx)
    (hcfg : (parseCallbGetter (getterFile log)).map Dict.entries = some cfg.callb_get)
    (write : SymId → Word → Option (List Byte))
    (hwrite : write = IntelIBT.writePlt cfg c ∨ write = X86_64.writeFakePlt cfg c) (s : SymId)
    (va : Word) (hfits : StubFits cfg c s va) (mem : Word → Word) (W : Bits.Window 64)
    (hproper : ∃ v, ¬W.Contains v) (hor : mem (c.ormask_offset + cfg.va .got) = W.base)
    (hand : mem (c.andmask_offset + cfg.va .got) = W.top) :
    (∃ bs, write s va = some bs ∧
        ∀ p ∈ recorded log (c.syms s).name, Masks (ops bs va) mem W p) ↔
      ∃ pos < 6, ∀ p ∈ recorded log (c.syms s).name, (c.syms s).name ≠ sigaction ∧ p = pos := by
  obtain ⟨m, hm, hcfg⟩ := Option.map_eq_some_iff.mp hcfg
  have hget : cfg.callb_get.lookup (c.syms s).name = if (c.syms s).name = sigaction then none
      else (lastRecord log (c.syms s).name).map fun r => [firstPrinted r] := by
    rw [← hcfg, lookup_entries]
    exact get?_of_log hlog hint hm _
  by_cases hplain : cfg.callb_get.lookup (c.syms s).name = none
  · -- No position is masked, so none may be recorded.
    rw [plain_masked_iff hwrite va hplain hproper]
    constructor
    · intro hnil
      refine ⟨0, by decide, fun p hp => ?_⟩
      rw [hnil] at hp
      exact absurd hp List.not_mem_nil
    · rintro ⟨pos, -, hall⟩
      refine List.eq_nil_iff_forall_not_mem.mpr fun p hp => ?_
      rw [hget, if_neg (hall p hp).1, Option.map_eq_none_iff] at hplain
      rw [recorded_eq_nil hplain] at hp
      exact List.not_mem_nil hp
  · have hsig : (c.syms s).name ≠ sigaction := by
      intro heq
      rw [hget, if_pos heq] at hplain
      exact hplain rfl
    rw [hget, if_neg hsig, Option.map_eq_none_iff] at hplain
    obtain ⟨r, hr⟩ := Option.ne_none_iff_exists'.mp hplain
    rw [if_neg hsig, hr, Option.map_some, firstPrinted] at hget
    have hfirst := firstPrinted_mem hlog hr
    rw [getter_masked_iff hwrite hget hfits hproper hor hand]
    constructor
    · rintro ⟨hpos, hall⟩
      exact ⟨_, hpos, fun p hp => ⟨hsig, hall p hp⟩⟩
    · rintro ⟨pos, hlt, hall⟩
      obtain rfl := (hall _ hfirst).2
      exact ⟨hlt, fun p hp => (hall p hp).2⟩

-- A getter with two records of one position.
def againLog : List Printed :=
  [.record ⟨"qsort".toList, "libc.so.6".toList, ["3".toList]⟩,
    .record ⟨"qsort".toList, "libm.so.6".toList, ["3".toList]⟩]

theorem againLog_plain : ∀ x ∈ againLog, x.Plain := by
  intro x hx
  simp only [againLog, List.mem_cons, List.not_mem_nil, or_false] at hx
  rcases hx with rfl | rfl
  · exact plain_of_isPlain (by decide)
  · exact plain_of_isPlain (by decide)

theorem libraryWindow_proper : ∃ v, ¬libraryWindow.Contains v := by
  refine ⟨0#64, ?_⟩
  rw [contains_zero_iff]
  decide

theorem recorded_masked_againLog :
    recorded againLog "qsort".toList = [3, 3] ∧
      ∃ bs, X86_64.writeFakePlt (demoConfig .IntelIBT) getterLink (.sym 1) 0x2020#64 = some bs ∧
        Masks (ops bs 0x2020#64) (maskWords libraryWindow) libraryWindow 3 := by
  obtain ⟨bs, hbs, hall⟩ := (recorded_masked_iff againLog againLog_plain (by decide)
    (demoConfig .IntelIBT) getterLink (by decide) _ (.inr rfl) (.sym 1) 0x2020#64
    ⟨by decide, by decide, by decide⟩ (maskWords libraryWindow) libraryWindow libraryWindow_proper
    (by decide) (by decide)).mpr ⟨3, by decide, by decide⟩
  exact ⟨by decide, bs, hbs, hall 3 (by decide)⟩

-- One record with two positions.
def twoLog : List Printed :=
  [.record ⟨"qsort".toList, "libc.so.6".toList, ["3".toList, "1".toList]⟩]

-- The second position of the record keeps whatever the caller put there.
theorem twoLog_not_masked :
    recorded twoLog "qsort".toList = [3, 1] ∧
      (parseCallbGetter (getterFile twoLog)).map Dict.entries =
        some (demoConfig .IntelIBT).callb_get ∧
      ∃ bs, X86_64.writeFakePlt (demoConfig .IntelIBT) getterLink (.sym 1) 0x2020#64 = some bs ∧
        ops bs 0x2020#64 = getterStubOps ∧
        ¬Masks (ops bs 0x2020#64) (maskWords libraryWindow) libraryWindow 1 := by
  have hfits : StubFits (demoConfig .IntelIBT) getterLink (.sym 1) 0x2020#64 :=
    ⟨by decide, by decide, by decide⟩
  obtain ⟨bs, hbs, -, hops⟩ := getter_ops (.inr rfl) 3 rfl hfits
  refine ⟨by decide, by decide, bs, hbs, hops, fun hmasks => ?_⟩
  rw [hops, maskingOps_masks_iff 3 libraryWindow_proper (by decide) (by decide)] at hmasks
  exact absurd hmasks (by decide)

end Platypus.Linker
