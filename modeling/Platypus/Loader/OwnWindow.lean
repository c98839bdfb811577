import Platypus.Loader.Reservation

namespace Platypus.Loader

-- The code of an object is where `find_addr` put it and ends where the AND mask ends.
structure CodeExact (os : Kernel) (o : Object) (p : Process) (l' : LinkMap) (e : LoadCmd) : Prop where
  start : findAddrResult os o p = some (l'.l_addr + e.mapstart)
  fin : l'.l_addr + e.mapend - 1#64 = l'.l_exec_end
  inside : ∀ x, InSegment l' e x → InWindow l' x

theorem commonPrefixLen_le (a b : Word) : commonPrefixLen a b ≤ a := by
  rw [BitVec.le_def]
  exact Nat.and_le_left

theorem findAddrResult_eq_some (os : Kernel) (o : Object) (p : Process) (hmm : Word) :
    findAddrResult os o p = some hmm ↔
      0#32 < (findExecSize o.loadcmds).size ∧ proposed os o p = hmm := by
  unfold findAddrResult
  split_ifs with hsize <;> simp [hsize]

theorem sub_sub_eq_base {base e c : Word} (h : base = base + e - e - c) : c = 0#64 := by
  rw [BitVec.add_sub_cancel] at h
  bv_omega

theorem add_eq_sub_add (base e f : Word) : base + f = f - e + (base + e) := by
  bv_omega

theorem sub_eq_of_fin_eq {base e f n : Word} (h : base + f - 1#64 = n + (base + e) - 1#64) :
    f - e = n := by
  rw [BitVec.sub_left_inj, add_eq_sub_add base e f, BitVec.add_left_inj] at h
  exact h

theorem toNat_lt_of_setWidth_eq {x : Word} (h : x = (x.setWidth 32).setWidth 64) :
    x.toNat < 2 ^ 32 := by
  rw [h, BitVec.toNat_setWidth, Nat.mod_eq_of_lt (by omega)]
  exact (x.setWidth 32).isLt

-- `l_addr` is computed from the first segment, the masks from the first executable one, and
-- the size passes through a `uint32_t`.
theorem dlMapSegments_codeExact_iff (os : Kernel) (o : Object) (l l' : LinkMap) (p p' : Process)
    (e : LoadCmd) (htype : o.type = .ET_DYN) (he : firstExec o.loadcmds = some e)
    (h : dlMapSegments os o l p = .ok l' p') :
    CodeExact os o p l' e ↔
      o.c.mapstart = 0#64 ∧ 0 < (e.mapend - e.mapstart).toNat ∧
        (e.mapend - e.mapstart).toNat < 2 ^ 32 := by
  have hst := findExecSize_of_firstExec _ _ he
  constructor
  · rintro ⟨hstart, hfin, -⟩
    obtain ⟨hsize, hprop⟩ := (findAddrResult_eq_some _ _ _ _).mp hstart
    have hp := dlMapSegments_placed os o l l' p p' htype hsize h
    have haddr := hp.l_addr
    have hend := hp.l_exec_end
    rw [hp.l_map_start, hprop, hst] at haddr
    rw [hprop, hst, ← hfin] at hend
    rw [hst, BitVec.lt_def, BitVec.toNat_setWidth, BitVec.toNat_ofNat] at hsize
    refine ⟨sub_sub_eq_base haddr, by omega, ?_⟩
    exact toNat_lt_of_setWidth_eq (sub_eq_of_fin_eq hend)
  · rintro ⟨hfirst, hpos, hlt⟩
    have hsize : 0#32 < (findExecSize o.loadcmds).size := by
      rw [hst, BitVec.lt_def]
      simp only [BitVec.toNat_setWidth, BitVec.toNat_ofNat]
      omega
    have hp := dlMapSegments_placed os o l l' p p' htype hsize h
    have hwidth : ((e.mapend - e.mapstart).setWidth 32).setWidth 64 = e.mapend - e.mapstart := by
      apply BitVec.eq_of_toNat_eq
      simp only [BitVec.toNat_setWidth]
      omega
    have hstart : proposed os o p = l'.l_addr + e.mapstart := by
      rw [hp.l_addr, hp.l_map_start, hst, hfirst, BitVec.sub_zero, BitVec.sub_add_cancel]
    have hend : l'.l_addr + e.mapend - 1#64 = l'.l_exec_end := by
      rw [hp.l_exec_end, hst, hwidth, hstart]
      exact congrArg (· - 1#64) (add_eq_sub_add _ _ _)
    refine ⟨(findAddrResult_eq_some _ _ _ _).mpr ⟨hsize, hstart⟩, hend, ?_⟩
    rintro x ⟨hlo, hhi⟩
    refine ⟨?_, hend ▸ hhi⟩
    rw [hp.l_exec_start, hstart]
    exact BitVec.le_trans (commonPrefixLen_le _ _) hlo

theorem dlMapSegments_codeExact_demoObject :
    firstExec demoObject.loadcmds = some demoExec ∧
      CodeExact hintKernel demoObject demoStart hintFirst.1 demoExec :=
  ⟨by decide, (dlMapSegments_codeExact_iff hintKernel demoObject {} hintFirst.1 demoStart
    hintFirst.2 demoExec rfl (by decide) (ok_of_outcome _ _ _)).mpr (by decide)⟩

-- A library linked at 0x1000: a page of read-only data, then four pages of code.
def linkedHigh : List Phdr :=
  [⟨.PT_LOAD, 4, 0x0#64, 0x1000#64, 0x1000#64, 0x1000#64, 0x1000#64⟩,
    ⟨.PT_LOAD, 5, 0x1000#64, 0x2000#64, 0x4000#64, 0x4000#64, 0x1000#64⟩]

def linkedHighExec : LoadCmd :=
  ⟨0x2000#64, 0x6000#64, 0x6000#64, 0x6000#64, 0x1000#64, 0x1000#64, 5⟩

def linkedHighObject : Object :=
  (objectOf 3 ⟨0x40#64, 2#64⟩ .ET_DYN linkedHigh).toOption.get (by decide)

-- It is loaded after another library.
def linkedHighLoaded : LinkMap × Process :=
  (outcome (dlMapSegments hintKernel linkedHighObject {}) hintFirst.2).get (by decide +kernel)

-- Its code ends up one page below the window.
theorem linkedHigh_not_codeExact :
    Linux hintKernel ∧
      dlMapSegments hintKernel demoObject {} demoStart = .ok hintFirst.1 hintFirst.2 ∧
      objectOf 3 ⟨0x40#64, 2#64⟩ .ET_DYN linkedHigh = .ok linkedHighObject ∧
      firstExec linkedHighObject.loadcmds = some linkedHighExec ∧
      dlMapSegments hintKernel linkedHighObject {} hintFirst.2 =
        .ok linkedHighLoaded.1 linkedHighLoaded.2 ∧
      InSegment linkedHighLoaded.1 linkedHighExec
        (linkedHighLoaded.1.l_addr + linkedHighExec.mapstart) ∧
      ¬ InWindow linkedHighLoaded.1 (linkedHighLoaded.1.l_addr + linkedHighExec.mapstart) ∧
      ¬ CodeExact hintKernel linkedHighObject hintFirst.2 linkedHighLoaded.1 linkedHighExec := by
  have hin : InSegment linkedHighLoaded.1 linkedHighExec
      (linkedHighLoaded.1.l_addr + linkedHighExec.mapstart) := by
    unfold InSegment
    decide +kernel
  have hout : ¬ InWindow linkedHighLoaded.1
      (linkedHighLoaded.1.l_addr + linkedHighExec.mapstart) := by
    unfold InWindow
    decide +kernel
  refine ⟨hintKernel_linux, ok_of_outcome _ _ _, rfl, by decide, ok_of_outcome _ _ _, hin, hout, ?_⟩
  intro hexact
  exact hout (hexact.inside _ hin)

end Platypus.Loader
