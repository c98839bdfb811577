import Platypus.Linker.StubPointer

-- Whether the addresses that the linker gives to symbols are those of their own stubs.

namespace Platypus.Linker

open Bytes Machine

-- Each list of stubs is a part of `.got.plt`, and `.fakeplt` has fake symbols only.
structure StubInv (c : Ctx) : Prop where
  plt : c.plt.Sublist c.gotPlt
  fakeplt : c.fakeplt.Sublist c.gotPlt
  fake : ∀ s ∈ c.fakeplt, (c.syms s).isFake = true

section Preservation

variable {c c' : Ctx} {s : SymId} {fake plain : Bool} {done : List SymId}

theorem StubInv.step (h : StubInv c) (hinv : SlotInv c done) (hstep : Step c c' s fake plain)
    (hs : s ∉ done) (hcopy : s.copy ∉ done) : StubInv c' := by
  constructor
  · rw [hstep.plt, hstep.gotPlt]
    refine h.plt.append ?_
    cases fake <;> cases plain <;> simp
  · rw [hstep.fakeplt, hstep.gotPlt]
    refine h.fakeplt.append ?_
    cases fake <;> cases plain <;> simp
  · intro t ht
    rw [hstep.fakeplt] at ht
    rcases List.mem_append.mp ht with ht | ht
    · have hmem := hinv.done t (h.fakeplt.subset ht)
      obtain ⟨i, hi⟩ := List.mem_iff_getElem?.mp (h.fakeplt.subset ht)
      have hsame := hstep.others.sameSymbol (fun heq => hs (heq ▸ hmem))
        (fun heq => hcopy (heq ▸ hmem)) (hinv.slots i t hi).allocated
      rw [hsame.isFake]
      exact h.fake t ht
    · split at ht
      · rename_i hfake
        obtain rfl := List.mem_singleton.mp ht
        rw [(hstep.own (by rw [hfake, Bool.true_or])).1, hfake]
      · cases ht

end Preservation

theorem StubInv.run (cfg : Config) (syms : List Nat) (c : Ctx) (done : List SymId)
    (hstub : StubInv c) (hinv : SlotInv c done) (hdone : ∀ t ∈ done, ∃ m, t = .sym m)
    (hnodup : syms.Nodup) (hnew : ∀ n ∈ syms, .sym n ∉ done)
    (hpending : ∀ n ∈ syms, Pending c (.sym n)) :
    StubInv ((syms.map .sym).foldl (postScanSymbol cfg) c) := by
  induction syms generalizing c done with
  | nil => exact hstub
  | cons n syms ih =>
    have hfirst := hpending n List.mem_cons_self
    have hn := hnew n List.mem_cons_self
    obtain ⟨fake, plain, hstep, -⟩ :=
      postScanSymbol_step cfg c (.sym n) (SymId.copy_ne n) hfirst.isInIplt hfirst.odd
    have hcopy : (SymId.sym n).copy ∉ done := fun hmem => by
      obtain ⟨m, hm⟩ := hdone _ hmem
      cases hm
    refine ih _ (.sym n :: done) (hstub.step hinv hstep hn hcopy) (hinv.step hstep hn hcopy)
      (by simpa using hdone) (List.nodup_cons.mp hnodup).2 (fun m hm => ?_)
      (pending_rest cfg hnodup hpending)
    rw [List.mem_cons, not_or]
    refine ⟨?_, hnew m (List.mem_cons_of_mem _ hm)⟩
    rintro ⟨⟩
    exact (List.nodup_cons.mp hnodup).1 hm

theorem Link.stubInv {c : Ctx} {syms : List Nat} (h : Link c syms) (cfg : Config) :
    StubInv (postScanRelocations cfg c syms) := by
  have hfresh := h.fresh.addTlsLd cfg
  have hstart : StubInv (addTlsLd cfg c) := by
    constructor
    · simp [hfresh.plt, hfresh.gotPlt]
    · simp [hfresh.fakeplt, hfresh.gotPlt]
    · simp [hfresh.fakeplt]
  exact hstart.run cfg syms _ [] hfresh.slotInv (by simp) h.nodup (by simp) (h.pending cfg)

-- The address that the stored index gives is the one at which the stub is written.
theorem HasSlot.getFakePltVA_eq {c : Ctx} {s : SymId} {i : Nat} (h : HasSlot c s i) (cfg : Config)
    (hfake : (c.syms s).isFake = true) (hsize : 32 * c.fakeplt.length ≤ 2 ^ 32) :
    ∃ j, c.fakeplt[j]? = some s ∧ c.getFakePltVA cfg s = StubSection.stubVA cfg .fakeplt j := by
  obtain ⟨j, hj, hcorrected⟩ := h.stub
  rw [hfake, if_pos rfl] at hj
  have hlt := (List.getElem?_eq_some_iff.mp hj).1
  refine ⟨j, hj, ?_⟩
  rw [Ctx.getFakePltVA, h.isInIplt, if_neg Bool.false_ne_true, hcorrected,
    corrected_offset j (by omega), BitVec.add_zero, StubSection.stubVA, StubSection.offset,
    StubSection.headerSize, Nat.zero_add]
  rfl

theorem findFakePlt_iff {c : Ctx} {pre post : List SymId} {s : SymId}
    (hsplit : c.fakeplt = pre ++ s :: post) :
    findFakePlt c (c.syms s).name = some pre.length ↔
      ∀ t ∈ pre, (c.syms t).name ≠ (c.syms s).name := by
  rw [findFakePlt, hsplit]
  refine (findIdx?_append_cons _ pre post (decide_eq_true rfl)).trans ?_
  refine forall_congr' fun t => forall_congr' fun _ => ?_
  rw [decide_eq_false_iff_not]

-- The name search of `computeRaw` finds the stub of the symbol itself exactly if no entry before
-- it has its name.
theorem computeRaw_ownStub_iff (cfg : Config) (c : Ctx) (syms : List Nat) (h : Link c syms)
    (pre post : List SymId) (s : SymId)
    (hsplit : (postScanRelocations cfg c syms).fakeplt = pre ++ s :: post)
    (hsize : 32 * (postScanRelocations cfg c syms).fakeplt.length ≤ 2 ^ 32) (r : DynamicReloc)
    (hr : r.sym = some s) :
    ∃ raw, computeRaw cfg (postScanRelocations cfg c syms) r = some raw ∧ raw.r_sym = none ∧
      (raw.addend = ((postScanRelocations cfg c syms).getFakePltVA cfg s).toInt ↔
        ∀ t ∈ pre, ((postScanRelocations cfg c syms).syms t).name ≠
          ((postScanRelocations cfg c syms).syms s).name) := by
  have hinv := h.slotInv cfg
  have hstub := h.stubInv cfg
  generalize postScanRelocations cfg c syms = C at *
  have hmem : s ∈ C.fakeplt := by simp [hsplit]
  have hfake := hstub.fake s hmem
  obtain ⟨i, hi⟩ := List.mem_iff_getElem?.mp (hstub.fakeplt.subset hmem)
  obtain ⟨j, hj, hva⟩ := (hinv.slots i s hi).getFakePltVA_eq cfg hfake hsize
  obtain rfl : j = pre.length := by
    have hnodup := hinv.nodup.sublist hstub.fakeplt
    rw [hsplit] at hj hnodup
    obtain ⟨-, hpost, hdisjoint⟩ := List.nodup_append.mp hnodup
    exact eq_length_of_getElem? (fun hs => hdisjoint s hs s List.mem_cons_self rfl)
      (List.nodup_cons.mp hpost).1 hj
  have hlt := (List.getElem?_eq_some_iff.mp hj).1
  -- some entry has the name: the one of the symbol itself
  obtain ⟨k, hk⟩ : ∃ k, findFakePlt C (C.syms s).name = some k := by
    rw [← Option.isSome_iff_exists, findFakePlt, List.findIdx?_isSome, List.any_eq_true]
    exact ⟨s, hmem, decide_eq_true rfl⟩
  have hklt : k < C.fakeplt.length := (List.findIdx?_eq_some_iff_getElem.mp hk).1
  have hraw := computeRaw_fake cfg C hr hfake
  rw [hk, Option.map_some] at hraw
  refine ⟨_, hraw, rfl, ?_⟩
  rw [← findFakePlt_iff hsplit, hk, Option.some_inj, hva, BitVec.toInt_inj]
  constructor
  · exact fun heq => stubVA_inj hklt hlt (by omega) heq
  · rintro rfl
    rfl

-- Two versions of one function, whose names are equal without the versions.
def versionsLink : Ctx where
  syms
    | .sym 0 => { name := "memcpy".toList, iscustomreloc := 1#32 }
    | .sym 1 => { name := "memcpy".toList, iscustomreloc := 1#32 }
    | _ => { name := "free".toList, iscustomreloc := 1#32 }

theorem versionsLink_link : Link versionsLink [0, 1, 2] where
  fresh := ⟨rfl, rfl, rfl, rfl, rfl, by
    intro s
    rcases s with ((_ | _ | n) | n) <;> rfl⟩
  nodup := by decide
  odd := by decide

def versionsReloc (n : Nat) : DynamicReloc :=
  ⟨.R_X86_64_RELATIVE, .got, 0#64, .AgainstSymbol, some (.sym n), 0, .R_ABS⟩

theorem computeRaw_ownStub_free :
    ∃ raw, computeRaw (demoConfig .IntelIBT)
        (postScanRelocations (demoConfig .IntelIBT) versionsLink [0, 1, 2]) (versionsReloc 2) =
          some raw ∧
      raw.addend = ((postScanRelocations (demoConfig .IntelIBT) versionsLink [0, 1, 2]).getFakePltVA
        (demoConfig .IntelIBT) (.sym 2)).toInt := by
  obtain ⟨raw, hraw, -, hiff⟩ := computeRaw_ownStub_iff (demoConfig .IntelIBT) versionsLink [0, 1, 2]
    versionsLink_link [.sym 0, .sym 1] [] (.sym 2) rfl (by decide) (versionsReloc 2) rfl
  exact ⟨raw, hraw, hiff.mpr (by decide)⟩

-- The word of the second version gets the stub of the first.
theorem versions_not_ownStub :
    (postScanRelocations (demoConfig .IntelIBT) versionsLink [0, 1, 2]).fakeplt =
        [.sym 0, .sym 1, .sym 2] ∧
      (computeRaw (demoConfig .IntelIBT)
        (postScanRelocations (demoConfig .IntelIBT) versionsLink [0, 1, 2])
        (versionsReloc 1)).map RawReloc.addend = some 0x2000 ∧
      (postScanRelocations (demoConfig .IntelIBT) versionsLink [0, 1, 2]).getFakePltVA
        (demoConfig .IntelIBT) (.sym 1) = 0x2020#64 := by
  refine ⟨rfl, by decide, by decide⟩

end Platypus.Linker
