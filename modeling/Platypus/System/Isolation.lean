import Platypus.Loader.Sequence
import Platypus.Pass.Confined
import Platypus.System.Relocated

-- The code of a module does not call into another one.

namespace Platypus.Loader

theorem Run.mapped {os : Kernel} {p : Process} {loads : List Load} (h : Run os p loads) :
    ∀ ld ∈ loads, ∃ l, dlMapSegments os ld.obj l ld.before = .ok ld.map ld.after := by
  induction h with
  | nil => simp
  | cons _ hstep _ ih =>
    intro ld hld
    rcases List.mem_cons.mp hld with rfl | hld
    · exact ⟨_, hstep⟩
    · exact ih ld hld

-- The addresses that the masks of a loaded object leave alone are those of its window.
theorem Admissible.mask_eq_self_iff {os : Kernel} {ld : Load} {e : LoadCmd} {l : LinkMap}
    (hadm : Admissible os ld e) (h : dlMapSegments os ld.obj l ld.before = .ok ld.map ld.after)
    (x : Word) : (x ||| ld.map.l_exec_start) &&& ld.map.l_exec_end = x ↔ InWindow ld.map x := by
  have hend := hadm.exec_end_eq h
  have hstart : ld.map.l_exec_start = (hadm.pageSize.window (Admissible.target os ld)).base := by
    rw [(hadm.placed h).l_exec_start, hadm.proposed_eq, hend]
    rfl
  rw [← hadm.pageSize.window_top] at hend
  rw [InWindow, hstart, hend]
  exact (hadm.pageSize.window (Admissible.target os ld)).mask_eq_self_iff x

end Platypus.Loader

namespace Platypus.System

open Linker Loader
open Pass.BitMasks (Machine Analysis RunState Config CallBase Instr Func Op orMask andMask exempt
  CallLog logMachine applyBody applyModule throughArgument applyCut applySplit applyAnalysis
  origBlock splitCallee applyBody_proper applyBody_numbered)
open Header (toRela)

variable {σ : Type}

-- The code of an object reads the two masks from the words that their relocations leave.
structure ReadsMasks (T : Machine σ) (L : Linked) (map : LinkMap) (mem : Loader.Word → Loader.Word) :
    Prop where
  or_mask : ∃ r ∈ L.ctx.relaDyn, r.type = .R_X86_64_ORMASK ∧
    T.or_mask = mem (map.l_addr + L.getOffset r)
  and_mask : ∃ r ∈ L.ctx.relaDyn, r.type = .R_X86_64_ANDMASK ∧
    T.and_mask = mem (map.l_addr + L.getOffset r)
  or_const : T.const orMask = T.or_mask
  and_const : T.const andMask = T.and_mask

-- The relocation of a mask leaves the start, or the end, of the code of the object.
theorem ReadsMasks.masks {L : Linked} {E : RelaEnv} {rst rst' : RelaState} {T : Machine σ}
    (hT : ReadsMasks T L E.map rst'.mem) (h : L.Loaded E rst rst') (hmitigate : E.to_mitigate = true) :
    T.or_mask = E.map.l_exec_start ∧ T.and_mask = E.map.l_exec_end := by
  obtain ⟨raws, hraws, -⟩ := h.written.own
  obtain ⟨-, hsome⟩ := computeRelaDyn_perm hraws
  obtain ⟨r, hr, hor, hor_mem⟩ := hT.or_mask
  obtain ⟨s, hs, hand, hand_mem⟩ := hT.and_mask
  obtain ⟨raw_or, hraw_or⟩ := Option.isSome_iff_exists.mp (hsome r hr)
  obtain ⟨raw_and, hraw_and⟩ := Option.isSome_iff_exists.mp (hsome s hs)
  have hword_or := h.word (.dyn hr hraw_or)
  have hword_and := h.word (.dyn hs hraw_and)
  have htype_or : (toRela L.ctx raw_or).r_type = .R_X86_64_ORMASK :=
    (computeRaw_place hraw_or).1.trans hor
  have htype_and : (toRela L.ctx raw_and).r_type = .R_X86_64_ANDMASK :=
    (computeRaw_place hraw_and).1.trans hand
  rw [RelaEnv.word, htype_or, ← hor_mem] at hword_or
  rw [RelaEnv.word, htype_and, ← hand_mem] at hword_and
  simp only [hmitigate, if_true, Option.some_inj] at hword_or hword_and
  exact ⟨hword_or.symm, hword_and.symm⟩

def maskCtx : Ctx where
  syms
    | .sym 0 => { name := "or_mask".toList, kind := .Undefined, iscustomreloc := 0x2#32 }
    | _ => { name := "and_mask".toList, kind := .Undefined, iscustomreloc := 0xa#32 }
  relaDyn :=
    [gotReloc .R_X86_64_ORMASK 0x0#64 (.sym 0), gotReloc .R_X86_64_ANDMASK 0x8#64 (.sym 1)]

def maskLink : Linked :=
  .laid demoLinkConfig maskCtx (fun _ => 0) true 0x600#64
    [⟨0x4000#64, .R_X86_64_ORMASK, none, 0⟩, ⟨0x4008#64, .R_X86_64_ANDMASK, none, 0⟩] 0

def maskEnv : RelaEnv where
  to_mitigate := true
  call a := a
  skip_ifunc := false
  map := demoSecond.1
  found _ := none

def windowMachine : Machine CallLog :=
  { logMachine with
    or_mask := demoSecond.1.l_exec_start
    and_mask := demoSecond.1.l_exec_end
    const := fun v =>
      if v = orMask then demoSecond.1.l_exec_start
      else if v = andMask then demoSecond.1.l_exec_end
      else if v = .argument 0 then demoSecond.1.l_exec_end - 0x10#64 else 0 }

theorem maskLink_loaded : ∃ st', maskLink.Loaded maskEnv ⟨fun _ => 0#64, []⟩ st' ∧
    ReadsMasks windowMachine maskLink maskEnv.map st'.mem := by
  have hwritten : maskLink.Written := Linked.laid_written (by decide) (by decide) (by decide)
  have hwords : ∀ r raw, maskLink.Raw r raw → (maskEnv.word (toRela maskLink.ctx raw)).isSome := by
    intro r raw hraw
    have hmem := hwritten.mem_iff.mpr ⟨r, raw, hraw, rfl⟩
    have hall : ∀ r ∈ maskLink.inOrder, (maskEnv.word r).isSome := by decide
    exact hall _ (hwritten.perm_inOrder.mem_iff.mp hmem)
  have hplaces : WordsApart (maskLink.relocs.map fun r => maskEnv.map.l_addr + maskLink.getOffset r) := by
    decide
  obtain ⟨st', hst', hword, -⟩ :=
    Linked.relocated hwritten rfl hwords hplaces.nodup ⟨fun _ => 0#64, []⟩
  refine ⟨st', ⟨hwritten, rfl, hwords, hplaces, hst'⟩, ?_⟩
  have hor := hword (gotReloc .R_X86_64_ORMASK 0x0#64 (.sym 0))
    ⟨0x4000#64, .R_X86_64_ORMASK, none, 0⟩ (.dyn List.mem_cons_self (by decide))
  have hand := hword (gotReloc .R_X86_64_ANDMASK 0x8#64 (.sym 1))
    ⟨0x4008#64, .R_X86_64_ANDMASK, none, 0⟩
    (.dyn (List.mem_cons_of_mem _ List.mem_cons_self) (by decide))
  exact ⟨⟨_, List.mem_cons_self, rfl, Option.some_inj.mp hor⟩,
    ⟨_, List.mem_cons_of_mem _ List.mem_cons_self, rfl, Option.some_inj.mp hand⟩, rfl, rfl⟩

def windowCalls : Config CallLog :=
  windowMachine.runFor (fun _ => .plain) applySplit.func 4
    ⟨0, (origBlock (applyBody (.call throughArgument)) 1 applyCut).body, fun _ => 0, 0, []⟩

end Platypus.System
