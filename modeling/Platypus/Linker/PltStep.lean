import Platypus.Linker.PltView
import Platypus.Linker.Stubs

namespace Platypus.Linker

-- Two states that agree on what the PLT code reads of one symbol.
structure SameSymbol (c c' : Ctx) (s : SymId) : Prop where
  sym : (c'.syms s).part = (c.syms s).part
  aux : (c'.aux s).part = (c.aux s).part

namespace SameSymbol

variable {c c' : Ctx} {s : SymId} (h : SameSymbol c c' s)
include h

theorem iscustomreloc :
    (c'.syms s).iscustomreloc = (c.syms s).iscustomreloc := congrArg SymbolPart.iscustomreloc h.sym

theorem name : (c'.syms s).name = (c.syms s).name :=
  congrArg SymbolPart.name h.sym

theorem isPreemptible :
    (c'.syms s).isPreemptible = (c.syms s).isPreemptible := congrArg SymbolPart.isPreemptible h.sym

theorem isInIplt : (c'.syms s).isInIplt = (c.syms s).isInIplt :=
  congrArg SymbolPart.isInIplt h.sym

theorem auxIdx : (c'.syms s).auxIdx = (c.syms s).auxIdx :=
  congrArg SymbolPart.auxIdx h.sym

theorem customrelocType : (c'.syms s).customrelocType = (c.syms s).customrelocType := by
  rw [Symbol.customrelocType, Symbol.customrelocType, h.iscustomreloc]

theorem isFake : (c'.syms s).isFake = (c.syms s).isFake := by
  rw [Symbol.isFake, Symbol.isFake, h.customrelocType]

theorem getPltIdx : c'.getPltIdx s = c.getPltIdx s :=
  congrArg AuxPart.pltIdx h.aux

theorem getFakePltIdx : c'.getFakePltIdx s = c.getFakePltIdx s :=
  congrArg AuxPart.fakepltIdx h.aux

theorem getCorrectedPltIdx :
    c'.getCorrectedPltIdx s = c.getCorrectedPltIdx s := congrArg AuxPart.non_fake_plt h.aux

theorem removeDuplicatePlts :
    c'.removeDuplicatePlts s = c.removeDuplicatePlts s := congrArg AuxPart.both_plts h.aux

theorem relocIndex : Linker.relocIndex c' s = Linker.relocIndex c s := by
  rw [Linker.relocIndex, Linker.relocIndex, h.isFake, h.getFakePltIdx, h.getPltIdx,
    h.removeDuplicatePlts]

theorem getGotPltOffset : c'.getGotPltOffset s = c.getGotPltOffset s := by
  rw [Ctx.getGotPltOffset, Ctx.getGotPltOffset, h.isInIplt, h.customrelocType, h.getFakePltIdx,
    h.getPltIdx, h.removeDuplicatePlts]

theorem slotReloc (type : RelType) (sec : Section) :
    Linker.slotReloc c' type sec s = Linker.slotReloc c type sec s := by
  rw [Linker.slotReloc, Linker.slotReloc, h.getGotPltOffset, h.isPreemptible]

end SameSymbol

theorem aux_part (c : Ctx) (s : SymId) :
    (c.aux s).part = c.view.auxs.getD (c.view.syms s).auxIdx ({} : SymbolAux).part := by
  simp only [Ctx.aux, Ctx.view, Symbol.part, List.getD_eq_getElem?_getD, List.getElem?_map]
  cases c.symAux[(c.syms s).auxIdx]? <;> rfl

theorem SameSymbol.of_view {c c' : Ctx} (h : c'.view = c.view) (s : SymId) : SameSymbol c c' s where
  sym := congrFun (congrArg PltView.syms h) s
  aux := by rw [aux_part, aux_part, h]

-- The relocations of `.rela.plt` in front of the IRELATIVE ones.
def jumpSlots (c : Ctx) : List DynamicReloc :=
  c.relaPlt.filter fun r => r.type ≠ .R_X86_64_IRELATIVE

-- Only `s` and its copy, and indices from `n` on, may differ between the two states. `s` keeps
-- its name.
structure Others (n : Nat) (s : SymId) (c c' : Ctx) : Prop where
  grows : c.symAux.length ≤ c'.symAux.length
  name : s ≠ s.copy → (c'.syms s).name = (c.syms s).name
  syms : ∀ t, t ≠ s → t ≠ s.copy → (c'.syms t).part = (c.syms t).part
  auxs : ∀ i < n, (c'.symAux[i]?).map SymbolAux.part = (c.symAux[i]?).map SymbolAux.part

namespace Others

variable {n : Nat} {s : SymId} {c c' c'' : Ctx}

theorem trans (h : Others n s c c') (h' : Others n s c' c'') : Others n s c c'' where
  grows := Nat.le_trans h.grows h'.grows
  name hs := (h'.name hs).trans (h.name hs)
  syms t ht ht' := (h'.syms t ht ht').trans (h.syms t ht ht')
  auxs i hi := (h'.auxs i hi).trans (h.auxs i hi)

theorem of_view (h : c'.view = c.view) : Others n s c c' where
  grows := by
    have hlen := congrArg (fun v => v.auxs.length) h
    simp only [Ctx.view, List.length_map] at hlen
    omega
  name _ := congrArg SymbolPart.name (congrFun (congrArg PltView.syms h) s)
  syms t _ _ := congrFun (congrArg PltView.syms h) t
  auxs i _ := by
    have hauxs := congrArg (fun v => v.auxs[i]?) h
    simpa only [Ctx.view, List.getElem?_map] using hauxs

theorem update (c : Ctx) {t : SymId} (ht : t = s ∨ t = s.copy) (f : Symbol → Symbol)
    (hf : t = s → ∀ sym, (f sym).name = sym.name) : Others n s c (c.update t f) where
  grows := Nat.le_refl _
  name _ := by
    by_cases hst : s = t
    · simp only [Ctx.update, if_pos hst, hf hst.symm]
    · simp only [Ctx.update, if_neg hst]
  syms u hu hu' := by
    have hne : u ≠ t := by rcases ht with rfl | rfl <;> assumption
    simp only [Ctx.update, if_neg hne]
  auxs _ _ := rfl

theorem updateAux (c : Ctx) (f : SymbolAux → SymbolAux) (h : n < c.symAux.length) :
    Others n s c (c.updateAux f) where
  grows := by simp [Ctx.updateAux]
  name _ := rfl
  syms _ _ _ := rfl
  auxs i hi := by
    have hne : c.symAux.length - 1 ≠ i := by omega
    simp [Ctx.updateAux, hne]

theorem allocateAux (c : Ctx) {t : SymId} (ht : t = s ∨ t = s.copy) (h : n ≤ c.symAux.length) :
    Others n s c (c.allocateAux t) := by
  have hupdate : Others n s c (c.update t fun sym => { sym with auxIdx := c.symAux.length }) :=
    update c ht _ fun _ _ => rfl
  constructor
  · simp [Ctx.allocateAux]
  · exact hupdate.name
  · exact hupdate.syms
  · intro i hi
    rw [Ctx.allocateAux, List.getElem?_append_left (by omega)]

-- A symbol that already had its indices keeps them.
theorem sameSymbol (h : Others n s c c') {t : SymId} (ht : t ≠ s) (ht' : t ≠ s.copy)
    (hidx : (c.syms t).auxIdx < n) : SameSymbol c c' t where
  sym := h.syms t ht ht'
  aux := by
    have hauxIdx : (c'.syms t).auxIdx = (c.syms t).auxIdx :=
      congrArg SymbolPart.auxIdx (h.syms t ht ht')
    have haux := h.auxs _ hidx
    rw [Ctx.aux, Ctx.aux, hauxIdx, List.getD_eq_getElem?_getD, List.getD_eq_getElem?_getD]
    rcases h₁ : c.symAux[(c.syms t).auxIdx]? with _ | a <;>
      rcases h₂ : c'.symAux[(c.syms t).auxIdx]? with _ | a' <;>
      simp only [h₁, h₂, Option.map_none, Option.map_some, Option.some.injEq, reduceCtorEq] at haux
    · rfl
    · exact haux

end Others

-- `c'` has the entries of `c`.
structure SameEntries (c c' : Ctx) : Prop where
  plt : c'.plt = c.plt
  fakeplt : c'.fakeplt = c.fakeplt
  gotPlt : c'.gotPlt = c.gotPlt
  bothplts : c'.bothplts = c.bothplts
  jumpSlots : jumpSlots c' = jumpSlots c

theorem SameEntries.trans {c c' c'' : Ctx} (h : SameEntries c c') (h' : SameEntries c' c'') :
    SameEntries c c'' where
  plt := h'.plt.trans h.plt
  fakeplt := h'.fakeplt.trans h.fakeplt
  gotPlt := h'.gotPlt.trans h.gotPlt
  bothplts := h'.bothplts.trans h.bothplts
  jumpSlots := h'.jumpSlots.trans h.jumpSlots

theorem SameEntries.of_view {c c' : Ctx} (h : c'.view = c.view) : SameEntries c c' where
  plt := congrArg PltView.plt h
  fakeplt := congrArg PltView.fakeplt h
  gotPlt := congrArg PltView.gotPlt h
  bothplts := congrArg PltView.bothplts h
  jumpSlots := congrArg (fun v => v.relaPlt.filter fun r => r.type ≠ .R_X86_64_IRELATIVE) h

-- The entries that one symbol adds: `fake` and `plain` tell in which of the two PLTs.
structure Step (c c' : Ctx) (s : SymId) (fake plain : Bool) : Prop where
  fakeplt : c'.fakeplt = c.fakeplt ++ (if fake then [s] else [])
  plt : c'.plt = c.plt ++ (if plain then [s] else [])
  gotPlt : c'.gotPlt = c.gotPlt ++ (if fake || plain then [s] else [])
  bothplts : c'.bothplts = c.bothplts + (if fake && plain then 1#32 else 0#32)
  jumpSlots : jumpSlots c' = jumpSlots c ++
    (if fake || plain then [slotReloc c' .R_X86_64_JUMP_SLOT .gotPlt s] else [])
  others : Others c.symAux.length s c c'
  own : fake || plain → (c'.syms s).isFake = fake ∧ (c'.syms s).isInIplt = false ∧
    (c'.syms s).auxIdx < c'.symAux.length ∧
    relocIndex c' s = BitVec.ofNat 32 (c.fakeplt.length + c.plt.length) - c.bothplts ∧
    c'.getCorrectedPltIdx s = BitVec.ofNat 32 (if fake then c.fakeplt.length else c.plt.length) ∧
    (fake → (c'.syms s).customrelocType = 1#32)

theorem Step.of_same {c c' : Ctx} {s : SymId} (hsame : SameEntries c c')
    (hothers : Others c.symAux.length s c c') : Step c c' s false false where
  fakeplt := by simp [hsame.fakeplt]
  plt := by simp [hsame.plt]
  gotPlt := by simp [hsame.gotPlt]
  bothplts := by simp [hsame.bothplts]
  jumpSlots := by simp [hsame.jumpSlots]
  others := hothers
  own := by simp

theorem Step.of_view {c c' c'' : Ctx} {s : SymId} {fake plain : Bool} (h : Step c c' s fake plain)
    (hview : c''.view = c'.view) : Step c c'' s fake plain := by
  have hentries := SameEntries.of_view hview
  have hothers : Others c.symAux.length s c' c'' := .of_view hview
  have hsame := SameSymbol.of_view hview s
  constructor
  · rw [hentries.fakeplt, h.fakeplt]
  · rw [hentries.plt, h.plt]
  · rw [hentries.gotPlt, h.gotPlt]
  · rw [hentries.bothplts, h.bothplts]
  · rw [hentries.jumpSlots, h.jumpSlots, hsame.slotReloc]
  · exact h.others.trans hothers
  · intro hadded
    obtain ⟨hfake, hiplt, hidx, hindex, hcorrected, hodd⟩ := h.own hadded
    rw [hsame.isFake, hsame.isInIplt, hsame.auxIdx, hsame.relocIndex, hsame.getCorrectedPltIdx,
      hsame.customrelocType]
    exact ⟨hfake, hiplt, Nat.lt_of_lt_of_le hidx hothers.grows, hindex, hcorrected, hodd⟩

theorem getGotPltOffset_eq (c : Ctx) (s : SymId) (hiplt : (c.syms s).isInIplt = false)
    (hodd : (c.syms s).isFake → (c.syms s).customrelocType = 1#32) :
    c.getGotPltOffset s =
      ((relocIndex c s + gotPltHeaderEntriesNum) * gotEntrySize).setWidth 64 := by
  rw [Ctx.getGotPltOffset, hiplt, relocIndex]
  by_cases hfake : (c.syms s).isFake
  · simp [hodd hfake, hfake]
  · have hne : (c.syms s).customrelocType ≠ 1#32 := by
      intro h
      simp [Symbol.isFake, h] at hfake
    simp [hne, hfake]

-- `s` has just been given the last entry of `symAux`, as the asserts of `addEntry` demand.
structure Ready (c c₁ : Ctx) (s : SymId) : Prop where
  others : Others c.symAux.length s c c₁
  last : (c₁.syms s).auxIdx + 1 = c₁.symAux.length
  fresh : c.symAux.length < c₁.symAux.length
  isInIplt : (c₁.syms s).isInIplt = false
  odd : (c₁.syms s).isFake → (c₁.syms s).customrelocType = 1#32

theorem aux_updateAux (c : Ctx) (s : SymId) (f : SymbolAux → SymbolAux)
    (h : (c.syms s).auxIdx + 1 = c.symAux.length) : (c.updateAux f).aux s = f (c.aux s) := by
  have hidx : (c.syms s).auxIdx = c.symAux.length - 1 := by omega
  have hlt : c.symAux.length - 1 < c.symAux.length := by omega
  simp only [Ctx.aux, Ctx.updateAux, hidx, List.getD_eq_getElem?_getD, List.getElem?_modify]
  simp [hlt]

namespace Ready

variable {c c₁ c₂ : Ctx} {s : SymId}

theorem updateAux (h : Ready c c₁ s) (f : SymbolAux → SymbolAux) : Ready c (c₁.updateAux f) s where
  others := h.others.trans (.updateAux _ _ h.fresh)
  last := by
    have hlast := h.last
    simp only [Ctx.updateAux, List.length_modify] at hlast ⊢
    exact hlast
  fresh := by simpa [Ctx.updateAux] using h.fresh
  isInIplt := h.isInIplt
  odd := h.odd

theorem congr (h : Ready c c₁ s) (hsyms : c₂.syms = c₁.syms) (haux : c₂.symAux = c₁.symAux) :
    Ready c c₂ s where
  others := by
    constructor
    · rw [haux]
      exact h.others.grows
    · rw [hsyms]
      exact h.others.name
    · rw [hsyms]
      exact h.others.syms
    · rw [haux]
      exact h.others.auxs
  last := by rw [hsyms, haux, h.last]
  fresh := by rw [haux]; exact h.fresh
  isInIplt := by rw [hsyms, h.isInIplt]
  odd := by rw [hsyms]; exact h.odd

theorem allocated (h : Ready c c₁ s) : (c₁.syms s).auxIdx < c₁.symAux.length := by
  have hlast := h.last
  omega

end Ready

theorem addFakePltEntry_ready {c c₁ : Ctx} {s : SymId} (h : Ready c c₁ s) :
    Ready c (addFakePltEntry c₁ s) s :=
  ((h.updateAux _).updateAux _).congr rfl rfl

theorem aux_addFakePltEntry {c c₁ : Ctx} {s : SymId} (h : Ready c c₁ s) :
    (addFakePltEntry c₁ s).aux s =
      .setFakePltIdx (c₁.fakeplt.length + c₁.plt.length)
        (.setCorrected c₁.fakeplt.length c₁.bothplts (c₁.aux s)) := by
  have haux := aux_updateAux c₁ s (.setCorrected c₁.fakeplt.length c₁.bothplts) h.last
  rw [← haux]
  exact aux_updateAux _ s _ (h.updateAux _).last

theorem jumpSlots_addRelaPlt (c : Ctx) (s : SymId) :
    jumpSlots (addRelaPlt c (slotReloc c .R_X86_64_JUMP_SLOT .gotPlt s)) =
      jumpSlots c ++ [slotReloc c .R_X86_64_JUMP_SLOT .gotPlt s] := by
  simp [jumpSlots, addRelaPlt, slotReloc]

theorem addFakePltEntry_step {c c₁ : Ctx} {s : SymId} (h : Ready c c₁ s) (hsame : SameEntries c c₁)
    (hfake : (c₁.syms s).isFake = true) : Step c (addFakePltEntry c₁ s) s true false := by
  have hready := addFakePltEntry_ready h
  have haux := aux_addFakePltEntry h
  have hfake' : ((addFakePltEntry c₁ s).syms s).isFake = true := hfake
  constructor
  · exact congrArg (· ++ [s]) hsame.fakeplt
  · exact hsame.plt.trans (List.append_nil _).symm
  · exact congrArg (· ++ [s]) hsame.gotPlt
  · exact hsame.bothplts.trans (BitVec.add_zero _).symm
  · exact (jumpSlots_addRelaPlt _ s).trans (congrArg (· ++ _) hsame.jumpSlots)
  · exact hready.others
  · intro _
    refine ⟨hfake', hready.isInIplt, hready.allocated, ?_, ?_, fun _ => hready.odd hfake'⟩
    · rw [relocIndex, hfake', if_pos rfl, Ctx.getFakePltIdx, Ctx.removeDuplicatePlts, haux,
        hsame.fakeplt, hsame.plt, hsame.bothplts]
      rfl
    · rw [Ctx.getCorrectedPltIdx, haux, hsame.fakeplt]
      rfl

-- The two ways through `addPltEntry`.

theorem addPltEntry_of_plain {c : Ctx} {s : SymId} (h : (c.syms s).isFake = false) :
    addPltEntry c s =
      let c₁ := c.updateAux (.setCorrected c.plt.length c.bothplts)
      let c₂ := c₁.updateAux (.setPltIdx (c.plt.length + c.fakeplt.length))
      let c₃ := { c₂ with plt := c.plt ++ [s], gotPlt := c.gotPlt ++ [s] }
      addRelaPlt c₃ (slotReloc c₃ .R_X86_64_JUMP_SLOT .gotPlt s) := by
  have hnote : PltSection.noteDuplicate c s =
      c.updateAux (.setCorrected c.plt.length c.bothplts) := by
    simp only [PltSection.noteDuplicate, h, Bool.false_eq_true, if_false]
  unfold addPltEntry PltSection.addEntry
  rw [hnote]
  exact if_neg (by simp [Ctx.updateAux, h])

theorem addPltEntry_of_fake {c : Ctx} {s : SymId} (h : (c.syms s).isFake = true) :
    addPltEntry c s =
      let c₁ := { c with bothplts := c.bothplts + 1#32 }
      { c₁.updateAux (.setPltIdx (c.plt.length + c.fakeplt.length)) with plt := c.plt ++ [s] } := by
  have hnote : PltSection.noteDuplicate c s = { c with bothplts := c.bothplts + 1#32 } := by
    simp only [PltSection.noteDuplicate, h, if_true]
  unfold addPltEntry PltSection.addEntry
  rw [hnote]
  exact if_pos (by simp [Ctx.updateAux, h])

theorem addPltEntry_step {c c₁ : Ctx} {s : SymId} (h : Ready c c₁ s) (hsame : SameEntries c c₁)
    (hfake : (c₁.syms s).isFake = false) : Step c (addPltEntry c₁ s) s false true := by
  have hready : Ready c (addPltEntry c₁ s) s := by
    rw [addPltEntry_of_plain hfake]
    exact ((h.updateAux _).updateAux _).congr rfl rfl
  have haux : (addPltEntry c₁ s).aux s =
      .setPltIdx (c₁.plt.length + c₁.fakeplt.length)
        (.setCorrected c₁.plt.length c₁.bothplts (c₁.aux s)) := by
    have haux := aux_updateAux c₁ s (.setCorrected c₁.plt.length c₁.bothplts) h.last
    rw [addPltEntry_of_plain hfake, ← haux]
    exact aux_updateAux _ s _ (h.updateAux _).last
  have hfake' : ((addPltEntry c₁ s).syms s).isFake = false := by
    rw [addPltEntry_of_plain hfake]
    exact hfake
  constructor
  · rw [addPltEntry_of_plain hfake]
    exact hsame.fakeplt.trans (List.append_nil _).symm
  · rw [addPltEntry_of_plain hfake]
    exact congrArg (· ++ [s]) hsame.plt
  · rw [addPltEntry_of_plain hfake]
    exact congrArg (· ++ [s]) hsame.gotPlt
  · rw [addPltEntry_of_plain hfake]
    exact hsame.bothplts.trans (BitVec.add_zero _).symm
  · rw [addPltEntry_of_plain hfake]
    exact (jumpSlots_addRelaPlt _ s).trans (congrArg (· ++ _) hsame.jumpSlots)
  · exact hready.others
  · intro _
    refine ⟨hfake', hready.isInIplt, hready.allocated, ?_, ?_, by simp⟩
    · rw [relocIndex, hfake', Ctx.getPltIdx, Ctx.removeDuplicatePlts, haux, hsame.fakeplt,
        hsame.plt, hsame.bothplts, Nat.add_comm]
      rfl
    · rw [Ctx.getCorrectedPltIdx, haux, hsame.plt]
      rfl

-- The PLT entry of a symbol that has a fake one changes none of the indices of the slot.
theorem addPltEntry_step_both {c c₁ : Ctx} {s : SymId} (h : Ready c c₁ s)
    (hstep : Step c c₁ s true false) : Step c (addPltEntry c₁ s) s true true := by
  obtain ⟨hfake, hiplt, hidx, hindex, hcorrected, hodd⟩ := hstep.own rfl
  have hready : Ready c (addPltEntry c₁ s) s := by
    rw [addPltEntry_of_fake hfake]
    exact (h.updateAux _).congr rfl rfl
  have haux : (addPltEntry c₁ s).aux s =
      .setPltIdx (c₁.plt.length + c₁.fakeplt.length) (c₁.aux s) := by
    rw [addPltEntry_of_fake hfake]
    exact aux_updateAux c₁ s _ h.last
  have hsyms : (addPltEntry c₁ s).syms = c₁.syms := by
    rw [addPltEntry_of_fake hfake]
    rfl
  have hindex' : relocIndex (addPltEntry c₁ s) s = relocIndex c₁ s := by
    simp only [relocIndex, hsyms, hfake, if_true, Ctx.getFakePltIdx, Ctx.removeDuplicatePlts, haux]
    rfl
  have hreloc : slotReloc (addPltEntry c₁ s) .R_X86_64_JUMP_SLOT .gotPlt s =
      slotReloc c₁ .R_X86_64_JUMP_SLOT .gotPlt s := by
    simp only [slotReloc, getGotPltOffset_eq _ s hready.isInIplt hready.odd,
      getGotPltOffset_eq _ s h.isInIplt h.odd, hindex', hsyms]
  constructor
  · rw [addPltEntry_of_fake hfake]
    exact hstep.fakeplt
  · rw [addPltEntry_of_fake hfake]
    exact congrArg (· ++ [s]) (hstep.plt.trans (List.append_nil _))
  · rw [addPltEntry_of_fake hfake]
    exact hstep.gotPlt
  · rw [addPltEntry_of_fake hfake]
    exact congrArg (· + 1#32) (hstep.bothplts.trans (BitVec.add_zero _))
  · rw [hreloc, addPltEntry_of_fake hfake]
    exact hstep.jumpSlots
  · exact hready.others
  · intro _
    refine ⟨?_, hready.isInIplt, hready.allocated, hindex'.trans hindex, ?_, ?_⟩
    · rw [hsyms, hfake]
    · rw [Ctx.getCorrectedPltIdx, haux]
      exact hcorrected
    · rw [hsyms]
      exact hodd

theorem Ready.of_view {c c₁ c₂ : Ctx} {s : SymId} (h : Ready c c₁ s) (hview : c₂.view = c₁.view) :
    Ready c c₂ s := by
  have hsame := SameSymbol.of_view hview s
  have hothers : Others c.symAux.length s c₁ c₂ := .of_view hview
  have hothers' : Others c.symAux.length s c₂ c₁ := .of_view hview.symm
  have hlen : c₂.symAux.length = c₁.symAux.length :=
    Nat.le_antisymm hothers'.grows hothers.grows
  constructor
  · exact h.others.trans hothers
  · rw [hsame.auxIdx, hlen, h.last]
  · rw [hlen]
    exact h.fresh
  · rw [hsame.isInIplt, h.isInIplt]
  · rw [hsame.isFake, hsame.customrelocType]
    exact h.odd

theorem addPltEntries_step {c c₁ : Ctx} {s : SymId} (tmp : Bool) (flags : Flags)
    (h : Ready c c₁ s) (hsame : SameEntries c c₁) :
    ∃ fake plain, Step c (addPltEntries tmp flags c₁ s) s fake plain ∧
      fake = (c₁.syms s).isFake ∧
      plain = (flags.NEEDS_PLT && !tmp && !(c₁.syms s).startsWith "placeholder") := by
  unfold addPltEntries
  by_cases hfake : (c₁.syms s).isFake = true
  · have hstep := addFakePltEntry_step h hsame hfake
    have hname : ((addFakePltEntry c₁ s).syms s).startsWith "placeholder" =
        (c₁.syms s).startsWith "placeholder" := rfl
    simp only [hfake, if_true, hname]
    by_cases hplain : (flags.NEEDS_PLT && !tmp && !(c₁.syms s).startsWith "placeholder") = true
    · rw [if_pos hplain, hplain]
      exact ⟨_, _, addPltEntry_step_both (addFakePltEntry_ready h) hstep, rfl, rfl⟩
    · rw [if_neg hplain, Bool.eq_false_iff.mpr hplain]
      exact ⟨_, _, hstep, rfl, rfl⟩
  · rw [Bool.not_eq_true] at hfake
    simp only [hfake, Bool.false_eq_true, if_false]
    by_cases hplain : (flags.NEEDS_PLT && !tmp && !(c₁.syms s).startsWith "placeholder") = true
    · rw [if_pos hplain, hplain]
      exact ⟨_, _, addPltEntry_step h hsame hfake, rfl, rfl⟩
    · rw [if_neg hplain, Bool.eq_false_iff.mpr hplain]
      exact ⟨_, _, .of_same hsame h.others, rfl, rfl⟩

theorem allocateAux_ready {c c₀ : Ctx} {s : SymId} (hview : c₀.view = c.view)
    (hiplt : (c.syms s).isInIplt = false)
    (hodd : (c.syms s).isFake → (c.syms s).customrelocType = 1#32) :
    Ready c (c₀.allocateAux s) s := by
  have hlen : c.symAux.length ≤ c₀.symAux.length := (Others.of_view hview : Others 0 s c c₀).grows
  have hsame := SameSymbol.of_view hview s
  have hsym : (c₀.allocateAux s).syms s = { c₀.syms s with auxIdx := c₀.symAux.length } := by
    simp [Ctx.allocateAux, Ctx.update]
  constructor
  · exact (Others.of_view hview).trans (.allocateAux _ (.inl rfl) hlen)
  · rw [hsym]
    simp [Ctx.allocateAux]
  · simp only [Ctx.allocateAux, List.length_append, List.length_singleton]
    omega
  · rw [hsym]
    exact hsame.isInIplt.trans hiplt
  · rw [hsym]
    intro hfake
    exact hsame.customrelocType.trans (hodd (hsame.isFake ▸ hfake))

theorem addEntries_step {c c₀ : Ctx} {s : SymId} (cfg : Config) (tmp : Bool) (flags : Flags)
    (hview : c₀.view = c.view) (hiplt : (c.syms s).isInIplt = false)
    (hodd : (c.syms s).isFake → (c.syms s).customrelocType = 1#32) :
    ∃ fake plain, Step c (addEntries cfg tmp flags c₀ s) s fake plain ∧
      fake = (c.syms s).isFake ∧
      plain = (flags.NEEDS_PLT && !tmp && !(c.syms s).startsWith "placeholder") := by
  let c₁ := c₀.allocateAux s
  let c₂ := if flags.NEEDS_GOT then addGotEntry cfg c₁ s else c₁
  have hview₂ : c₂.view = c₁.view := view_ite _ _ _ (view_addGotEntry cfg c₁ s)
  have hready : Ready c c₂ s := (allocateAux_ready hview hiplt hodd).of_view hview₂
  have hsame : SameEntries c c₂ :=
    ((SameEntries.of_view hview).trans ⟨rfl, rfl, rfl, rfl, rfl⟩ : SameEntries c c₁).trans
      (.of_view hview₂)
  obtain ⟨fake, plain, hstep, hfake, hplain⟩ := addPltEntries_step tmp flags hready hsame
  -- the flags of `s` change on the way, its name and its custom type do not
  have hsym : (c₂.syms s).iscustomreloc = (c.syms s).iscustomreloc ∧
      (c₂.syms s).name = (c.syms s).name := by
    have h₀ := SameSymbol.of_view hview s
    have h₂ := SameSymbol.of_view hview₂ s
    have h₁ : (c₁.syms s).part = { (c₀.syms s).part with auxIdx := c₀.symAux.length } := by
      simp [c₁, Ctx.allocateAux, Ctx.update, Symbol.part]
    exact ⟨h₂.iscustomreloc.trans ((congrArg SymbolPart.iscustomreloc h₁).trans h₀.iscustomreloc),
      h₂.name.trans ((congrArg SymbolPart.name h₁).trans h₀.name)⟩
  refine ⟨fake, plain, ?_, ?_, ?_⟩
  · refine (hstep.of_view ?_).of_view (view_ite _ _ _ (view_addTls cfg flags _ s))
    exact view_ite _ _ _ (view_addCopy cfg _ s)
  · rw [hfake, Symbol.isFake, Symbol.isFake, Symbol.customrelocType, Symbol.customrelocType,
      hsym.1]
  · rw [hplain, Symbol.startsWith, Symbol.startsWith, hsym.2]

section Ifunc

variable (cfg : Config) (c : Ctx) (s : SymId)

theorem addIpltEntry_same : SameEntries c (addIpltEntry cfg c s) := by
  unfold addIpltEntry
  dsimp only
  split_ifs
  · exact ⟨rfl, rfl, rfl, rfl, rfl⟩
  · refine ⟨rfl, rfl, rfl, rfl, ?_⟩
    simp [jumpSlots, addRelaPlt, slotReloc, IgotPltSection.addEntry, IpltSection.addEntry,
      Ctx.updateAux]
  · exact ⟨rfl, rfl, rfl, rfl, rfl⟩

theorem addIpltEntry_others {n : Nat} {t : SymId} (h : n < c.symAux.length) :
    Others n t c (addIpltEntry cfg c s) := by
  have hothers : Others n t c (c.updateAux (.setPltIdx c.iplt.length)) := .updateAux _ _ h
  unfold addIpltEntry
  dsimp only
  split_ifs <;> exact ⟨hothers.grows, hothers.name, hothers.syms, hothers.auxs⟩

theorem addIfuncGot_same (flags : Flags) : SameEntries c (addIfuncGot cfg flags c s) := by
  unfold addIfuncGot
  dsimp only
  split_ifs
  · have hredirect : SameEntries c (redirectToIplt c s) := ⟨rfl, rfl, rfl, rfl, rfl⟩
    exact hredirect.trans (.of_view (view_addGotEntry cfg _ s))
  all_goals exact ⟨rfl, rfl, rfl, rfl, rfl⟩

theorem addIfuncGot_others {n : Nat} (flags : Flags) : Others n s c (addIfuncGot cfg flags c s) := by
  have hredirect : Others n s c (redirectToIplt c s) := .update c (.inl rfl) _ fun _ _ => rfl
  unfold addIfuncGot
  dsimp only
  split_ifs
  · exact hredirect.trans (.of_view (view_addGotEntry cfg _ s))
  · exact hredirect
  · exact .update c (.inl rfl) _ fun _ _ => rfl
  · exact .of_view rfl

theorem addIfunc_step (hcopy : s.copy ≠ s) : Step c (addIfunc cfg c s) s false false := by
  let c₁ := c.update s fun sym => { sym with isInIplt := true }
  let c₂ := (c₁.update s.copy fun _ => c₁.syms s).allocateAux s.copy
  let c₃ := addIpltEntry cfg c₂ s.copy
  let c₄ := (c₃.allocateAux s).updateAux fun a => { a with pltIdx := c₃.getPltIdx s.copy }
  have hlen₂ : c₂.symAux.length = c.symAux.length + 1 := by
    simp [c₂, c₁, Ctx.allocateAux, Ctx.update]
  have h₁ : Others c.symAux.length s c c₁ := .update c (.inl rfl) _ fun _ _ => rfl
  have h₂ : Others c.symAux.length s c₁ c₂ :=
    (Others.update c₁ (.inr rfl) _ fun h => absurd h hcopy).trans
      (.allocateAux _ (.inr rfl) (Nat.le_refl _))
  have h₃ : Others c.symAux.length s c₂ c₃ := addIpltEntry_others cfg c₂ _ (by omega)
  have hlen₃ := h₃.grows
  have h₄ : Others c.symAux.length s c₃ c₄ :=
    (Others.allocateAux c₃ (.inl rfl) (by omega)).trans
      (.updateAux _ _ (by simp only [Ctx.allocateAux, List.length_append]; omega))
  have hsame₂ : SameEntries c c₂ := ⟨rfl, rfl, rfl, rfl, rfl⟩
  have hsame₃ : SameEntries c c₃ := hsame₂.trans (addIpltEntry_same cfg c₂ s.copy)
  have hsame₄ : SameEntries c₃ c₄ := ⟨rfl, rfl, rfl, rfl, rfl⟩
  exact .of_same ((hsame₃.trans hsame₄).trans (addIfuncGot_same cfg c₄ s _))
    (((h₁.trans h₂).trans (h₃.trans h₄)).trans (addIfuncGot_others cfg c₄ s _))

end Ifunc

-- The symbols that `handleNonPreemptibleIfunc` takes.
def isOwnIfunc (cfg : Config) (sym : Symbol) : Bool :=
  sym.isGnuIFunc && !sym.isPreemptible && !cfg.zIfuncNoplt

theorem handleNonPreemptibleIfunc_eq_none (cfg : Config) (c : Ctx) (s : SymId) :
    handleNonPreemptibleIfunc cfg c s = none ↔ isOwnIfunc cfg (c.syms s) = false := by
  unfold handleNonPreemptibleIfunc isOwnIfunc
  dsimp only
  cases (c.syms s).isGnuIFunc <;> cases (c.syms s).isPreemptible <;> cases cfg.zIfuncNoplt <;>
    simp
  split <;> simp

-- The ways in which a round of the loop goes: a local ifunc without and with references, a symbol
-- without an entry, and every other one.
inductive Turn (cfg : Config) (c : Ctx) (s : SymId) : Ctx → Prop
  | unused (hown : isOwnIfunc cfg (c.syms s) = true)
      (hflags : ((c.syms s).flags.NEEDS_GOT || (c.syms s).flags.NEEDS_PLT ||
        (c.syms s).flags.HAS_DIRECT_RELOC) = false) : Turn cfg c s c
  | ifunc (hown : isOwnIfunc cfg (c.syms s) = true) : Turn cfg c s (addIfunc cfg c s)
  | skipped (hown : isOwnIfunc cfg (c.syms s) = false)
      (hdyn : ((setNeedsPlt c s).syms s).needsDynReloc = false)
      (hcustom : ((setNeedsPlt c s).syms s).customrelocType < 2#32) :
      Turn cfg c s (setNeedsPlt c s)
  | entries (hown : isOwnIfunc cfg (c.syms s) = false) :
      Turn cfg c s (addEntries cfg (isFakeOnly (c.syms s)) ((setNeedsPlt c s).syms s).flags
        (setNeedsPlt c s) s)

theorem postScanSymbol_turn (cfg : Config) (c : Ctx) (s : SymId) :
    Turn cfg c s (postScanSymbol cfg c s) := by
  unfold postScanSymbol
  split
  · rename_i c' hifunc
    have hown : isOwnIfunc cfg (c.syms s) = true := by
      by_contra hown
      rw [(handleNonPreemptibleIfunc_eq_none cfg c s).mpr (Bool.not_eq_true _ ▸ hown)] at hifunc
      cases hifunc
    unfold handleNonPreemptibleIfunc at hifunc
    dsimp only at hifunc
    split_ifs at hifunc with hother hflags
    · cases hifunc
      exact .unused hown (Bool.not_eq_true' _ ▸ hflags)
    · cases hifunc
      exact .ifunc hown
  · rename_i hnone
    have hown := (handleNonPreemptibleIfunc_eq_none cfg c s).mp hnone
    dsimp only
    split_ifs with hskip
    · simp only [Bool.and_eq_true, Bool.not_eq_true', decide_eq_true_eq] at hskip
      exact .skipped hown hskip.1 hskip.2
    · exact .entries hown

-- A symbol of custom type 1 has NEEDS_PLT from here on, and a called symbol has it anyway.
theorem setNeedsPlt_flag (c : Ctx) (s : SymId)
    (h : (c.syms s).customrelocType = 1#32 ∨ (c.syms s).flags.NEEDS_PLT = true) :
    ((setNeedsPlt c s).syms s).flags.NEEDS_PLT = true := by
  unfold setNeedsPlt
  split
  · simp [Ctx.update]
  · rename_i honly
    by_cases hplt : (c.syms s).flags.NEEDS_PLT = true
    · exact hplt
    · simp [isFakeOnly, h.resolve_right hplt, hplt] at honly

-- All that one round of the loop can do to the PLT sections, and which symbols get entries:
-- those of a fake custom type, and those that are called.
theorem postScanSymbol_step (cfg : Config) (c : Ctx) (s : SymId) (hcopy : s.copy ≠ s)
    (hiplt : (c.syms s).isInIplt = false)
    (hodd : (c.syms s).isFake → (c.syms s).customrelocType = 1#32) :
    ∃ fake plain, Step c (postScanSymbol cfg c s) s fake plain ∧
      (isOwnIfunc cfg (c.syms s) = false →
        (c.syms s).isFake = true ∨ (c.syms s).flags.NEEDS_PLT = true →
        (c.syms s).startsWith "placeholder" = false → (fake || plain) = true) := by
  have hturn := postScanSymbol_turn cfg c s
  have hview := view_setNeedsPlt c s
  have hflag : (c.syms s).isFake = true ∨ (c.syms s).flags.NEEDS_PLT = true →
      ((setNeedsPlt c s).syms s).flags.NEEDS_PLT = true :=
    fun h => setNeedsPlt_flag c s (h.imp_left hodd)
  generalize postScanSymbol cfg c s = c' at hturn ⊢
  cases hturn with
  | unused hown =>
    exact ⟨_, _, .of_same (.of_view rfl) (.of_view rfl), fun h => absurd hown (h ▸ nofun)⟩
  | ifunc hown => exact ⟨_, _, addIfunc_step cfg c s hcopy, fun h => absurd hown (h ▸ nofun)⟩
  | skipped hown hdyn =>
    refine ⟨_, _, .of_same (.of_view hview) (.of_view hview), ?_⟩
    intro _ hcalled _
    simp [Symbol.needsDynReloc, hflag hcalled] at hdyn
  | entries hown =>
    obtain ⟨fake, plain, hstep, hfake, hplain⟩ := addEntries_step cfg
      (isFakeOnly (c.syms s)) ((setNeedsPlt c s).syms s).flags hview hiplt hodd
    refine ⟨fake, plain, hstep, ?_⟩
    intro _ hcalled hname
    rcases hcalled with hcalled | hplt
    · simp [hfake, hcalled]
    · have honly : isFakeOnly (c.syms s) = false := by simp [isFakeOnly, hplt]
      simp [hplain, hflag (.inr hplt), honly, hname]

end Platypus.Linker
