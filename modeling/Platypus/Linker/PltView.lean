import Platypus.Linker.PostScan

namespace Platypus.Linker

-- What the PLT sections read of a symbol and of its indices. Everything else that
-- `postScanRelocations` does leaves this part alone.
structure SymbolPart where
  iscustomreloc : BitVec 32
  name : Name
  type : SymType
  isPreemptible : Bool
  isInIplt : Bool
  auxIdx : Nat

def Symbol.part (s : Symbol) : SymbolPart :=
  ⟨s.iscustomreloc, s.name, s.type, s.isPreemptible, s.isInIplt, s.auxIdx⟩

structure AuxPart where
  pltIdx : BitVec 32
  fakepltIdx : BitVec 32
  non_fake_plt : BitVec 32
  both_plts : BitVec 32

def SymbolAux.part (a : SymbolAux) : AuxPart :=
  ⟨a.pltIdx, a.fakepltIdx, a.non_fake_plt, a.both_plts⟩

structure PltView where
  plt : List SymId
  fakeplt : List SymId
  gotPlt : List SymId
  bothplts : BitVec 32
  relaPlt : List DynamicReloc
  auxs : List AuxPart
  syms : SymId → SymbolPart

def Ctx.view (c : Ctx) : PltView where
  plt := c.plt
  fakeplt := c.fakeplt
  gotPlt := c.gotPlt
  bothplts := c.bothplts
  relaPlt := c.relaPlt
  auxs := c.symAux.map SymbolAux.part
  syms := fun s => (c.syms s).part

theorem view_update (c : Ctx) (s : SymId) (f : Symbol → Symbol)
    (h : ∀ sym, (f sym).part = sym.part) : (c.update s f).view = c.view := by
  have hsyms : (fun t => ((c.update s f).syms t).part) = fun t => (c.syms t).part := by
    funext t
    simp only [Ctx.update]
    split
    · exact h _
    · rfl
  simp only [Ctx.view, hsyms]
  rfl

theorem map_modify {α β : Type} (g : α → β) (f : α → α) (h : ∀ a, g (f a) = g a) (xs : List α)
    (i : Nat) : (xs.modify i f).map g = xs.map g := by
  apply List.ext_getElem
  · simp
  · intro j hj hj'
    simp only [List.getElem_map, List.getElem_modify]
    split
    · exact h _
    · rfl

theorem view_updateAux (c : Ctx) (f : SymbolAux → SymbolAux)
    (h : ∀ a, (f a).part = a.part) : (c.updateAux f).view = c.view := by
  have haux : (c.updateAux f).symAux.map SymbolAux.part = c.symAux.map SymbolAux.part :=
    map_modify _ _ h _ _
  simp only [Ctx.view, haux]
  rfl

theorem view_got_addEntry (c : Ctx) : (GotSection.addEntry c).view = c.view :=
  view_updateAux c _ fun _ => rfl

theorem view_addTlsDescEntry (c : Ctx) : (GotSection.addTlsDescEntry c).view = c.view :=
  view_updateAux c _ fun _ => rfl

theorem view_addDynTlsEntry (c : Ctx) : (GotSection.addDynTlsEntry c).view = c.view :=
  view_updateAux c _ fun _ => rfl

theorem view_addRelativeReloc (cfg : Config) (c : Ctx) (off : Word) (s : SymId) :
    (addRelativeReloc cfg c off s).view = c.view := by
  unfold addRelativeReloc
  split <;> rfl

theorem view_noteOrMask (c : Ctx) (off : Word) : (noteOrMask c off).view = c.view := by
  unfold noteOrMask
  split <;> rfl

theorem view_noteAndMask (c : Ctx) (off : Word) : (noteAndMask c off).view = c.view := by
  unfold noteAndMask
  split <;> rfl

theorem view_customGotReloc (c c' : Ctx) (s : SymId) (off : Word)
    (h : customGotReloc c s off = some c') : c'.view = c.view := by
  unfold customGotReloc at h
  dsimp only at h
  split_ifs at h <;> cases h
  · exact view_noteOrMask c off
  · exact view_noteAndMask c off
  all_goals rfl

theorem view_plainGotReloc (cfg : Config) (c : Ctx) (s : SymId) (off : Word) :
    (plainGotReloc cfg c s off).view = c.view := by
  unfold plainGotReloc
  dsimp only
  split_ifs
  on_goal 6 => exact view_addRelativeReloc cfg c off s
  all_goals rfl

theorem view_addGotEntry (cfg : Config) (c : Ctx) (s : SymId) :
    (addGotEntry cfg c s).view = c.view := by
  unfold addGotEntry
  dsimp only
  split
  · split
    · rename_i c' h
      rw [view_customGotReloc _ _ _ _ h, view_got_addEntry]
    · rw [view_plainGotReloc, view_got_addEntry]
  · rw [view_plainGotReloc, view_got_addEntry]

theorem view_replaceWithDefined (c : Ctx) (s : SymId) (sec : Section) (value size : Word) :
    (replaceWithDefined c s sec value size).view = c.view :=
  view_update c s _ fun _ => rfl

theorem view_replaceAliases (n : Nat) (c : Ctx) (ss : List SymId) :
    (replaceAliases n c ss).view = c.view := by
  induction ss generalizing c with
  | nil => rfl
  | cons t ss ih =>
    rw [replaceAliases, List.foldl_cons]
    exact (ih _).trans (view_replaceWithDefined _ _ _ _ _)

theorem view_addCopyRelSymbol (cfg : Config) (c : Ctx) (s : SymId) :
    (addCopyRelSymbol cfg c s).view = c.view := by
  have hcheck : (checkCopySize c s).view = c.view := by
    unfold checkCopySize
    split <;> rfl
  exact (view_replaceAliases _ _ _).trans hcheck

theorem view_addCopy (cfg : Config) (c : Ctx) (s : SymId) : (addCopy cfg c s).view = c.view := by
  unfold addCopy
  dsimp only
  split_ifs
  · exact view_addCopyRelSymbol cfg c s
  · rfl
  · rw [view_update, view_replaceWithDefined]
    exact fun _ => rfl

theorem view_addTlsReloc (c : Ctx) (type : RelType) (off : Word) (s : SymId) :
    (addTlsReloc c type off s).view = c.view := by
  unfold addTlsReloc
  split <;> rfl

theorem view_addTlsDesc (c : Ctx) (s : SymId) : (addTlsDesc c s).view = c.view :=
  (view_addTlsReloc _ _ _ _).trans (view_addTlsDescEntry c)

theorem view_addTlsGd (cfg : Config) (c : Ctx) (s : SymId) : (addTlsGd cfg c s).view = c.view := by
  have hmodule : ∀ c off, (addTlsGdModule cfg c off s).view = c.view := by
    intro c off
    unfold addTlsGdModule
    split <;> rfl
  have hoffset : ∀ c off, (addTlsGdOffset c off s).view = c.view := by
    intro c off
    unfold addTlsGdOffset
    split <;> rfl
  exact (hoffset _ _).trans ((hmodule _ _).trans (view_addDynTlsEntry c))

theorem view_addTlsGdToIe (c : Ctx) (s : SymId) : (addTlsGdToIe c s).view = c.view :=
  view_got_addEntry c

theorem view_addGotDtprel (c : Ctx) (s : SymId) : (addGotDtprel c s).view = c.view :=
  view_got_addEntry c

theorem view_addTpOffsetGotEntry (cfg : Config) (c : Ctx) (s : SymId) :
    (addTpOffsetGotEntry cfg c s).view = c.view := by
  unfold addTpOffsetGotEntry
  dsimp only
  split
  · exact view_got_addEntry c
  · exact (view_addTlsReloc _ _ _ _).trans (view_got_addEntry c)

theorem view_ite (b : Bool) (c c' : Ctx) (h : c'.view = c.view) :
    (if b then c' else c).view = c.view := by
  cases b
  · rfl
  · exact h

theorem view_addTls (cfg : Config) (flags : Flags) (c : Ctx) (s : SymId) :
    (addTls cfg flags c s).view = c.view := by
  unfold addTls
  refine (view_ite _ _ _ (view_addTpOffsetGotEntry cfg _ s)).trans ?_
  refine (view_ite _ _ _ (view_addGotDtprel _ s)).trans ?_
  refine (view_ite _ _ _ (view_addTlsGdToIe _ s)).trans ?_
  refine (view_ite _ _ _ (view_addTlsGd cfg _ s)).trans ?_
  exact view_ite _ _ _ (view_addTlsDesc c s)

theorem view_setNeedsPlt (c : Ctx) (s : SymId) : (setNeedsPlt c s).view = c.view := by
  unfold setNeedsPlt
  split
  · exact view_update c s _ fun _ => rfl
  · rfl

theorem view_addTlsLd (cfg : Config) (c : Ctx) : (addTlsLd cfg c).view = c.view := by
  unfold addTlsLd
  dsimp only
  split_ifs <;> rfl

end Platypus.Linker
