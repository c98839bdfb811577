import Platypus.Linker.PltStep

namespace Platypus.Linker

open Bytes Machine

-- The symbol at position `i` of `.got.plt`, as all its indices describe it.
structure HasSlot (c : Ctx) (s : SymId) (i : Nat) : Prop where
  isInIplt : (c.syms s).isInIplt = false
  odd : (c.syms s).isFake → (c.syms s).customrelocType = 1#32
  allocated : (c.syms s).auxIdx < c.symAux.length
  index : relocIndex c s = BitVec.ofNat 32 i
  stub : ∃ j, (if (c.syms s).isFake then c.fakeplt else c.plt)[j]? = some s ∧
    c.getCorrectedPltIdx s = BitVec.ofNat 32 j
  reloc : (jumpSlots c)[i]? = some (slotReloc c .R_X86_64_JUMP_SLOT .gotPlt s)

structure SlotInv (c : Ctx) (done : List SymId) : Prop where
  count : ∃ both, both ≤ c.plt.length ∧ c.bothplts = BitVec.ofNat 32 both ∧
    c.gotPlt.length + both = c.plt.length + c.fakeplt.length
  relocs : (jumpSlots c).length = c.gotPlt.length
  nodup : c.gotPlt.Nodup
  slots : ∀ i s, c.gotPlt[i]? = some s → HasSlot c s i
  covered : ∀ s, s ∈ c.plt ∨ s ∈ c.fakeplt → s ∈ c.gotPlt
  done : ∀ s ∈ c.gotPlt, s ∈ done

theorem getElem?_append_of_some {α : Type} {xs ys : List α} {i : Nat} {x : α}
    (h : xs[i]? = some x) : (xs ++ ys)[i]? = some x := by
  rw [List.getElem?_append_left (List.getElem?_eq_some_iff.mp h).1, h]

section Preservation

variable {c c' : Ctx} {s : SymId} {fake plain : Bool} {done : List SymId}

-- A slot that was there stays where it was.
theorem HasSlot.step {t : SymId} {i : Nat} (h : HasSlot c t i) (hstep : Step c c' s fake plain)
    (ht : t ≠ s) (ht' : t ≠ s.copy) : HasSlot c' t i := by
  have hsame := hstep.others.sameSymbol ht ht' h.allocated
  constructor
  · rw [hsame.isInIplt, h.isInIplt]
  · rw [hsame.isFake, hsame.customrelocType]
    exact h.odd
  · rw [hsame.auxIdx]
    exact Nat.lt_of_lt_of_le h.allocated hstep.others.grows
  · rw [hsame.relocIndex, h.index]
  · obtain ⟨j, hj, hcorrected⟩ := h.stub
    refine ⟨j, ?_, by rw [hsame.getCorrectedPltIdx, hcorrected]⟩
    rw [hsame.isFake, hstep.fakeplt, hstep.plt]
    split at hj
    · rw [if_pos ‹_›]
      exact getElem?_append_of_some hj
    · rw [if_neg ‹_›]
      exact getElem?_append_of_some hj
  · rw [hstep.jumpSlots, hsame.slotReloc]
    exact getElem?_append_of_some h.reloc

-- A new slot is the next one: the indices are the two sizes less the duplicates so far.
theorem HasSlot.new (hinv : SlotInv c done) (hstep : Step c c' s fake plain)
    (hadded : (fake || plain) = true) : HasSlot c' s c.gotPlt.length := by
  obtain ⟨hfake, hiplt, hidx, hindex, hcorrected, hodd⟩ := hstep.own hadded
  obtain ⟨both, _, hboth, hcount⟩ := hinv.count
  constructor
  · exact hiplt
  · rw [hfake]
    exact hodd
  · exact hidx
  · rw [hindex, hboth, show c.fakeplt.length + c.plt.length = c.gotPlt.length + both by omega,
      BitVec.ofNat_add, BitVec.add_sub_cancel]
  · refine ⟨_, ?_, hcorrected⟩
    rw [hfake, hstep.fakeplt, hstep.plt]
    cases fake
    · have hplain : plain = true := hadded
      simp [hplain]
    · simp
  · rw [hstep.jumpSlots, if_pos hadded, ← hinv.relocs, List.getElem?_concat_length]

theorem count_step (hstep : Step c c' s fake plain)
    (h : ∃ both, both ≤ c.plt.length ∧ c.bothplts = BitVec.ofNat 32 both ∧
      c.gotPlt.length + both = c.plt.length + c.fakeplt.length) :
    ∃ both, both ≤ c'.plt.length ∧ c'.bothplts = BitVec.ofNat 32 both ∧
      c'.gotPlt.length + both = c'.plt.length + c'.fakeplt.length := by
  obtain ⟨both, hle, hboth, hcount⟩ := h
  refine ⟨both + (if fake && plain then 1 else 0), ?_⟩
  rw [hstep.plt, hstep.fakeplt, hstep.gotPlt, hstep.bothplts, hboth]
  cases fake <;> cases plain <;> simp [BitVec.ofNat_add] <;> omega

theorem SlotInv.step (hinv : SlotInv c done) (hstep : Step c c' s fake plain)
    (hs : s ∉ done) (hcopy : s.copy ∉ done) : SlotInv c' (s :: done) := by
  have hs' : s ∉ c.gotPlt := fun h => hs (hinv.done s h)
  have hold : ∀ i t, c.gotPlt[i]? = some t → HasSlot c' t i := by
    intro i t ht
    have hmem := hinv.done t (List.mem_of_getElem? ht)
    refine (hinv.slots i t ht).step hstep ?_ ?_
    · rintro rfl
      exact hs hmem
    · rintro rfl
      exact hcopy hmem
  constructor
  · exact count_step hstep hinv.count
  · rw [hstep.jumpSlots, hstep.gotPlt, List.length_append, List.length_append, hinv.relocs]
    split <;> rfl
  · rw [hstep.gotPlt]
    split
    · exact List.nodup_append.mpr ⟨hinv.nodup, List.nodup_singleton s, by
        simp only [List.mem_singleton]
        rintro t ht _ rfl rfl
        exact hs' ht⟩
    · rw [List.append_nil]
      exact hinv.nodup
  · intro i t ht
    rw [hstep.gotPlt] at ht
    by_cases hadded : (fake || plain) = true
    · rw [if_pos hadded] at ht
      rcases Nat.lt_trichotomy i c.gotPlt.length with hi | rfl | hi
      · exact hold i t (by rwa [List.getElem?_append_left hi] at ht)
      · rw [List.getElem?_concat_length] at ht
        cases ht
        exact HasSlot.new hinv hstep hadded
      · rw [List.getElem?_eq_none (by simp; omega)] at ht
        cases ht
    · rw [if_neg hadded, List.append_nil] at ht
      exact hold i t ht
  · intro t ht
    rw [hstep.plt, hstep.fakeplt] at ht
    rw [hstep.gotPlt, List.mem_append]
    have hcovered := hinv.covered t
    cases fake <;> cases plain <;> simp at ht ⊢ <;> tauto
  · intro t ht
    rw [hstep.gotPlt, List.mem_append] at ht
    rcases ht with ht | ht
    · exact List.mem_cons_of_mem _ (hinv.done t ht)
    · split at ht
      · exact List.mem_cons.mpr (.inl (List.mem_singleton.mp ht))
      · cases ht

end Preservation

-- What the loop may assume of a symbol that it has not reached yet.
structure Pending (c : Ctx) (s : SymId) : Prop where
  isInIplt : (c.syms s).isInIplt = false
  odd : (c.syms s).isFake → (c.syms s).customrelocType = 1#32

theorem Pending.of_part {c c' : Ctx} {s : SymId} (h : Pending c s)
    (hpart : (c'.syms s).part = (c.syms s).part) : Pending c' s := by
  have hreloc : (c'.syms s).iscustomreloc = (c.syms s).iscustomreloc :=
    congrArg SymbolPart.iscustomreloc hpart
  constructor
  · exact (congrArg SymbolPart.isInIplt hpart).trans h.isInIplt
  · rw [Symbol.isFake, Symbol.customrelocType, hreloc]
    exact h.odd

-- Before the loop: no entries, and no symbol has been moved to `.iplt`.
structure Fresh (c : Ctx) : Prop where
  plt : c.plt = []
  fakeplt : c.fakeplt = []
  gotPlt : c.gotPlt = []
  relaPlt : c.relaPlt = []
  bothplts : c.bothplts = 0#32
  isInIplt : ∀ s, (c.syms s).isInIplt = false

theorem Fresh.slotInv {c : Ctx} (h : Fresh c) : SlotInv c [] where
  count := ⟨0, Nat.zero_le _, h.bothplts, by simp [h.plt, h.fakeplt, h.gotPlt]⟩
  relocs := by simp [jumpSlots, h.relaPlt, h.gotPlt]
  nodup := by simp [h.gotPlt]
  slots := by simp [h.gotPlt]
  covered := by simp [h.plt, h.fakeplt]
  done := by simp [h.gotPlt]

theorem SlotInv.postScanSymbol {c : Ctx} {done : List SymId} (cfg : Config) (n : Nat)
    (hinv : SlotInv c done) (hdone : ∀ t ∈ done, ∃ m, t = .sym m) (hnew : .sym n ∉ done)
    (hpending : Pending c (.sym n)) :
    SlotInv (postScanSymbol cfg c (.sym n)) (.sym n :: done) := by
  obtain ⟨fake, plain, hstep, _⟩ := postScanSymbol_step cfg c (.sym n) (SymId.copy_ne n)
    hpending.isInIplt hpending.odd
  refine hinv.step hstep hnew ?_
  intro hcopy
  obtain ⟨m, hm⟩ := hdone _ hcopy
  cases hm

theorem part_postScanSymbol {c : Ctx} (cfg : Config) {n m : Nat} (hpending : Pending c (.sym n))
    (hne : m ≠ n) :
    ((postScanSymbol cfg c (.sym n)).syms (.sym m)).part = (c.syms (.sym m)).part := by
  obtain ⟨fake, plain, hstep, _⟩ := postScanSymbol_step cfg c (.sym n) (SymId.copy_ne n)
    hpending.isInIplt hpending.odd
  exact hstep.others.syms _ (by simpa using hne) (by simp [SymId.copy])

theorem pending_rest (cfg : Config) {c : Ctx} {n : Nat} {syms : List Nat}
    (hnodup : (n :: syms).Nodup) (hpending : ∀ k ∈ n :: syms, Pending c (.sym k)) :
    ∀ k ∈ syms, Pending (postScanSymbol cfg c (.sym n)) (.sym k) := by
  intro k hk
  refine (hpending k (List.mem_cons_of_mem _ hk)).of_part
    (part_postScanSymbol cfg (hpending n List.mem_cons_self) ?_)
  rintro rfl
  exact (List.nodup_cons.mp hnodup).1 hk

theorem SlotInv.run (cfg : Config) (syms : List Nat) (c : Ctx) (done : List SymId)
    (hinv : SlotInv c done) (hdone : ∀ t ∈ done, ∃ m, t = .sym m) (hnodup : syms.Nodup)
    (hnew : ∀ n ∈ syms, .sym n ∉ done) (hpending : ∀ n ∈ syms, Pending c (.sym n)) :
    SlotInv ((syms.map .sym).foldl (Linker.postScanSymbol cfg) c)
      ((syms.map .sym).reverse ++ done) := by
  induction syms generalizing c done with
  | nil => exact hinv
  | cons n syms ih =>
    have hinv' := hinv.postScanSymbol cfg n hdone (hnew n List.mem_cons_self)
      (hpending n List.mem_cons_self)
    have hnew' : ∀ m ∈ syms, .sym m ∉ .sym n :: done := by
      intro m hm
      rw [List.mem_cons, not_or]
      refine ⟨?_, hnew m (List.mem_cons_of_mem _ hm)⟩
      rintro ⟨⟩
      exact (List.nodup_cons.mp hnodup).1 hm
    have hrun := ih (Linker.postScanSymbol cfg c (.sym n)) (.sym n :: done) hinv'
      (by simpa using hdone) (List.nodup_cons.mp hnodup).2 hnew' (pending_rest cfg hnodup hpending)
    simpa using hrun

-- What the loop has not reached is as it was, but for flags and addresses.
theorem part_run (cfg : Config) (syms : List Nat) (c : Ctx) (m : Nat) (hm : m ∉ syms)
    (hnodup : syms.Nodup) (hpending : ∀ n ∈ syms, Pending c (.sym n)) :
    (((syms.map .sym).foldl (postScanSymbol cfg) c).syms (.sym m)).part =
      (c.syms (.sym m)).part := by
  induction syms generalizing c with
  | nil => rfl
  | cons n syms ih =>
    rw [List.mem_cons, not_or] at hm
    exact (ih _ hm.2 (List.nodup_cons.mp hnodup).2 (pending_rest cfg hnodup hpending)).trans
      (part_postScanSymbol cfg (hpending n List.mem_cons_self) hm.1)

-- A slot, once added, stays.
theorem mem_gotPlt_run (cfg : Config) (syms : List Nat) (c : Ctx) (s : SymId) (hs : s ∈ c.gotPlt)
    (hnodup : syms.Nodup) (hpending : ∀ n ∈ syms, Pending c (.sym n)) :
    s ∈ ((syms.map .sym).foldl (postScanSymbol cfg) c).gotPlt := by
  induction syms generalizing c with
  | nil => exact hs
  | cons n syms ih =>
    have hfirst := hpending n List.mem_cons_self
    obtain ⟨fake, plain, hstep, _⟩ :=
      postScanSymbol_step cfg c (.sym n) (SymId.copy_ne n) hfirst.isInIplt hfirst.odd
    refine ih _ ?_ (List.nodup_cons.mp hnodup).2 (pending_rest cfg hnodup hpending)
    rw [hstep.gotPlt]
    exact List.mem_append_left _ hs

theorem Fresh.addTlsLd (cfg : Config) {c : Ctx} (h : Fresh c) : Fresh (addTlsLd cfg c) := by
  have hview := view_addTlsLd cfg c
  have hsame := SameEntries.of_view hview
  constructor
  · rw [hsame.plt, h.plt]
  · rw [hsame.fakeplt, h.fakeplt]
  · rw [hsame.gotPlt, h.gotPlt]
  · exact (congrArg PltView.relaPlt hview).trans h.relaPlt
  · rw [hsame.bothplts, h.bothplts]
  · intro s
    rw [(SameSymbol.of_view hview s).isInIplt, h.isInIplt]

-- The symbols of one link, before their relocations are processed.
structure Link (c : Ctx) (syms : List Nat) : Prop where
  fresh : Fresh c
  nodup : syms.Nodup
  odd : ∀ n ∈ syms, (c.syms (.sym n)).isFake → (c.syms (.sym n)).customrelocType = 1#32

theorem Link.pending {c : Ctx} {syms : List Nat} (h : Link c syms) (cfg : Config) :
    ∀ n ∈ syms, Pending (addTlsLd cfg c) (.sym n) := by
  intro n hn
  have hpending : Pending c (.sym n) := ⟨h.fresh.isInIplt _, h.odd n hn⟩
  exact hpending.of_part (SameSymbol.of_view (view_addTlsLd cfg c) _).sym

theorem Link.slotInv {c : Ctx} {syms : List Nat} (h : Link c syms) (cfg : Config) :
    SlotInv (postScanRelocations cfg c syms) (syms.map .sym).reverse := by
  have hrun := (h.fresh.addTlsLd cfg).slotInv.run cfg syms _ [] (by simp) h.nodup (by simp)
    (h.pending cfg)
  rwa [List.append_nil] at hrun

-- The offset of slot `i` in `.got.plt`, in the 32-bit arithmetic of the linker.
def slotOffset (i : Nat) : Word :=
  ((BitVec.ofNat 32 i + gotPltHeaderEntriesNum) * gotEntrySize).setWidth 64

theorem slotOffset_eq (i : Nat) (h : 8 * (i + 3) < 2 ^ 32) :
    slotOffset i = BitVec.ofNat 64 (8 * (i + 3)) := by
  apply BitVec.eq_of_toNat_eq
  simp only [slotOffset, gotPltHeaderEntriesNum, gotEntrySize, BitVec.toNat_setWidth,
    BitVec.toNat_mul, BitVec.toNat_add, BitVec.toNat_ofNat]
  omega

theorem slotOffset_inj (i j : Nat) (hi : 8 * (i + 3) < 2 ^ 32) (hj : 8 * (j + 3) < 2 ^ 32)
    (h : slotOffset i = slotOffset j) : i = j := by
  rw [slotOffset_eq i hi, slotOffset_eq j hj] at h
  have hnat := congrArg BitVec.toNat h
  simp only [BitVec.toNat_ofNat] at hnat
  omega

theorem HasSlot.getGotPltOffset {c : Ctx} {s : SymId} {i : Nat} (h : HasSlot c s i) :
    c.getGotPltOffset s = slotOffset i := by
  rw [getGotPltOffset_eq c s h.isInIplt h.odd, h.index, slotOffset]

-- Every index of every symbol with a PLT entry names the same slot.
structure SlotsAgree (cfg : Config) (c : Ctx) : Prop where
  count : ∃ both ≤ c.plt.length, c.bothplts = BitVec.ofNat 32 both ∧
    c.gotPlt.length = c.plt.length + c.fakeplt.length - both
  covered : ∀ s, s ∈ c.plt ∨ s ∈ c.fakeplt → s ∈ c.gotPlt
  nodup : c.gotPlt.Nodup
  offset : ∀ i s, c.gotPlt[i]? = some s → c.getGotPltOffset s = slotOffset i
  reloc : ∀ i s, c.gotPlt[i]? = some s → ∃ r, (computeRels c.relaPlt)[i]? = some r ∧
    r.type = .R_X86_64_JUMP_SLOT ∧ r.inputSec = .gotPlt ∧ r.offsetInSec = slotOffset i ∧
    r.sym = some s
  pushed : ∀ i s, c.gotPlt[i]? = some s → ∀ va bs, X86_64.writePlt cfg c s va = some bs →
    Machine.pushed (disassemble bs va) = some (BitVec.ofNat 32 i)
  distinct : 8 * (c.gotPlt.length + 3) ≤ 2 ^ 32 → ∀ s ∈ c.gotPlt, ∀ t ∈ c.gotPlt, s ≠ t →
    c.getGotPltOffset s ≠ c.getGotPltOffset t

theorem SlotInv.slotsAgree {c : Ctx} {done : List SymId} (cfg : Config) (h : SlotInv c done) :
    SlotsAgree cfg c := by
  constructor
  · obtain ⟨both, hle, hboth, hcount⟩ := h.count
    exact ⟨both, hle, hboth, by omega⟩
  · exact h.covered
  · exact h.nodup
  · intro i s hs
    exact (h.slots i s hs).getGotPltOffset
  · intro i s hs
    have hslot := h.slots i s hs
    refine ⟨_, getElem?_append_of_some hslot.reloc, rfl, rfl, hslot.getGotPltOffset, rfl⟩
  · intro i s hs va bs hbs
    rw [pushed_writePlt cfg c s va bs hbs, (h.slots i s hs).index]
  · intro hsize s hs t ht hne heq
    obtain ⟨i, hi⟩ := List.mem_iff_getElem?.mp hs
    obtain ⟨j, hj⟩ := List.mem_iff_getElem?.mp ht
    rw [(h.slots i s hi).getGotPltOffset, (h.slots j t hj).getGotPltOffset] at heq
    have hilt := (List.getElem?_eq_some_iff.mp hi).1
    have hjlt := (List.getElem?_eq_some_iff.mp hj).1
    obtain rfl := slotOffset_inj i j (by omega) (by omega) heq
    exact hne (Option.some.inj (hi.symm.trans hj))

theorem Link.take {c : Ctx} {syms : List Nat} (h : Link c syms) (k : Nat) :
    Link c (syms.take k) where
  fresh := h.fresh
  nodup := h.nodup.sublist (List.take_sublist k syms)
  odd n hn := h.odd n (List.mem_of_mem_take hn)

-- A link of a function whose address is taken, one that is also called, and one that is
-- only called.
def demoConfig (target : Target) : Config where
  target := target
  shared := false
  isPic := true
  zIfuncNoplt := false
  androidPackDynRelocs := false
  relrDyn := false
  needsTlsLd := false
  aliases _ := []
  callb_get := [(['q', 's', 'o', 'r', 't'], [3])]
  va
    | .plt => 0x1000#64
    | .fakeplt => 0x2000#64
    | .iplt => 0x3000#64
    | .got => 0x4000#64
    | .gotPlt => 0x5000#64
    | .igotPlt => 0x6000#64
    | _ => 0#64

def demoSymbol : SymId → Symbol
  | .sym 0 => { name := ['f'], iscustomreloc := 1#32 }
  | .sym 1 => { name := ['q', 's', 'o', 'r', 't'], iscustomreloc := 1#32, flags := { NEEDS_PLT := true } }
  | .sym _ => { name := ['p', 'u', 't', 's'], flags := { NEEDS_PLT := true } }
  | .direct _ => { name := [] }

def demoLink : Ctx := { syms := demoSymbol }

theorem demoLink_link : Link demoLink [0, 1, 2] where
  fresh := ⟨rfl, rfl, rfl, rfl, rfl, by
    intro s
    rcases s with ((_ | _ | n) | n) <;> rfl⟩
  nodup := by decide
  odd := by decide

end Platypus.Linker
