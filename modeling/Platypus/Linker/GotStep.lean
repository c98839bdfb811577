import Platypus.Linker.PltStep

namespace Platypus.Linker

-- What no round of the loop changes of a symbol.
structure FixedPart where
  name : Name
  iscustomreloc : BitVec 32
  isPreemptible : Bool
  NEEDS_GOT : Bool

def Symbol.fixed (s : Symbol) : FixedPart :=
  ⟨s.name, s.iscustomreloc, s.isPreemptible, s.flags.NEEDS_GOT⟩

-- The relocations that do not come from `addGotEntry`.
def serviceTypes : List RelType :=
  [.R_X86_64_IRELATIVE, .R_X86_64_COPY, .R_X86_64_TLSDESC, .R_X86_64_DTPMOD64, .R_X86_64_DTPOFF64,
    .R_X86_64_TPOFF64]

-- What the parts of a round do that do not add an address to `.got`.
structure Quiet (c c' : Ctx) : Prop where
  ormask_offset : c'.ormask_offset = c.ormask_offset
  andmask_offset : c'.andmask_offset = c.andmask_offset
  relaDyn : ∃ new, c'.relaDyn = c.relaDyn ++ new ∧ ∀ r ∈ new, r.type ∈ serviceTypes
  fixed : ∀ n, (c'.syms (.sym n)).fixed = (c.syms (.sym n)).fixed

namespace Quiet

variable {c c' c'' : Ctx}

theorem of_same (hor : c'.ormask_offset = c.ormask_offset)
    (hand : c'.andmask_offset = c.andmask_offset) (hrela : c'.relaDyn = c.relaDyn)
    (hsyms : c'.syms = c.syms) : Quiet c c' where
  ormask_offset := hor
  andmask_offset := hand
  relaDyn := ⟨[], by simp [hrela], by simp⟩
  fixed n := by rw [hsyms]

theorem refl (c : Ctx) : Quiet c c := .of_same rfl rfl rfl rfl

theorem trans (h : Quiet c c') (h' : Quiet c' c'') : Quiet c c'' where
  ormask_offset := h'.ormask_offset.trans h.ormask_offset
  andmask_offset := h'.andmask_offset.trans h.andmask_offset
  relaDyn := by
    obtain ⟨new, heq, hnew⟩ := h.relaDyn
    obtain ⟨new', heq', hnew'⟩ := h'.relaDyn
    refine ⟨new ++ new', by rw [heq', heq, List.append_assoc], fun r hr => ?_⟩
    exact (List.mem_append.mp hr).elim (hnew r) (hnew' r)
  fixed n := (h'.fixed n).trans (h.fixed n)

theorem ite (b : Bool) (h : Quiet c c') : Quiet c (if b then c' else c) := by
  cases b
  · exact .refl c
  · exact h

theorem update (c : Ctx) (s : SymId) (f : Symbol → Symbol) (h : ∀ sym, (f sym).fixed = sym.fixed) :
    Quiet c (c.update s f) where
  ormask_offset := rfl
  andmask_offset := rfl
  relaDyn := ⟨[], (List.append_nil _).symm, by simp⟩
  fixed n := by
    simp only [Ctx.update]
    split
    · exact h _
    · rfl

-- The copies of ifuncs are not symbols of the link.
theorem update_copy (c : Ctx) (n : Nat) (f : Symbol → Symbol) :
    Quiet c (c.update (SymId.sym n).copy f) where
  ormask_offset := rfl
  andmask_offset := rfl
  relaDyn := ⟨[], (List.append_nil _).symm, by simp⟩
  fixed m := by simp [Ctx.update, SymId.copy]

theorem addRelaDyn (type : RelType) (htype : type ∈ serviceTypes) {r : DynamicReloc}
    (hr : r.type = type) (h : Quiet c c') : Quiet c (c'.addRelaDyn r) := by
  refine h.trans ⟨rfl, rfl, ⟨[r], rfl, ?_⟩, fun _ => rfl⟩
  simpa [hr] using htype

theorem allocateAux (c : Ctx) (s : SymId) : Quiet c (c.allocateAux s) :=
  (Quiet.update c s (fun sym => { sym with auxIdx := c.symAux.length }) fun _ => rfl).trans
    (.of_same rfl rfl rfl rfl)

end Quiet

section Parts

variable (cfg : Config) (flags : Flags) (c : Ctx) (s : SymId)

theorem addTlsLd_quiet : Quiet c (addTlsLd cfg c) := by
  unfold addTlsLd
  dsimp only
  split_ifs
  · exact .addRelaDyn .R_X86_64_DTPMOD64 (by decide) rfl (.of_same rfl rfl rfl rfl)
  · exact .of_same rfl rfl rfl rfl
  · exact .refl c

theorem setNeedsPlt_quiet : Quiet c (setNeedsPlt c s) := by
  unfold setNeedsPlt
  split
  · exact .update c s _ fun _ => rfl
  · exact .refl c

theorem addFakePltEntry_quiet : Quiet c (addFakePltEntry c s) := .of_same rfl rfl rfl rfl

theorem addPltEntry_quiet : Quiet c (addPltEntry c s) := by
  have hduplicate : Quiet c (PltSection.addEntry c s) := by
    unfold PltSection.addEntry PltSection.noteDuplicate
    dsimp only
    split <;> exact .of_same rfl rfl rfl rfl
  unfold addPltEntry
  dsimp only
  split
  · exact hduplicate
  · exact hduplicate.trans (.of_same rfl rfl rfl rfl)

theorem addPltEntries_quiet (tmp : Bool) : Quiet c (addPltEntries tmp flags c s) := by
  unfold addPltEntries
  dsimp only
  exact (Quiet.ite _ (addFakePltEntry_quiet c s)).trans (.ite _ (addPltEntry_quiet _ s))

theorem replaceWithDefined_quiet (sec : Section) (value size : Word) :
    Quiet c (replaceWithDefined c s sec value size) := .update c s _ fun _ => rfl

theorem replaceAliases_quiet (n : Nat) (ss : List SymId) : Quiet c (replaceAliases n c ss) := by
  induction ss generalizing c with
  | nil => exact .refl c
  | cons t ss ih =>
    rw [replaceAliases, List.foldl_cons]
    exact (replaceWithDefined_quiet c t _ _ _).trans (ih _)

theorem addCopy_quiet : Quiet c (addCopy cfg c s) := by
  unfold addCopy
  dsimp only
  split_ifs
  · have hcheck : Quiet c (checkCopySize c s) := by
      unfold checkCopySize
      split
      · exact .of_same rfl rfl rfl rfl
      · exact .refl c
    have haliases := hcheck.trans (replaceAliases_quiet (checkCopySize c s) (checkCopySize c s).copies.length
      ((cfg.aliases s).filter (fun t => ((checkCopySize c s).syms t).kind = .Shared) ++ [s]))
    exact .addRelaDyn .R_X86_64_COPY (by decide) rfl (haliases.trans (.of_same rfl rfl rfl rfl))
  · exact .refl c
  · exact (replaceWithDefined_quiet c s _ _ _).trans (.update _ s _ fun _ => rfl)

theorem addTlsReloc_quiet (type : RelType) (off : Word) (h : type ∈ serviceTypes) :
    Quiet c (addTlsReloc c type off s) := by
  unfold addTlsReloc
  split <;> exact .addRelaDyn type h rfl (.refl c)

theorem addTlsGd_quiet : Quiet c (addTlsGd cfg c s) := by
  have hmodule : ∀ c off, Quiet c (addTlsGdModule cfg c off s) := by
    intro c off
    unfold addTlsGdModule
    split
    · exact .of_same rfl rfl rfl rfl
    · exact .addRelaDyn .R_X86_64_DTPMOD64 (by decide) rfl (.refl c)
  have hoffset : ∀ c off, Quiet c (addTlsGdOffset c off s) := by
    intro c off
    unfold addTlsGdOffset
    split
    · exact .addRelaDyn .R_X86_64_DTPOFF64 (by decide) rfl (.refl c)
    · exact .of_same rfl rfl rfl rfl
  have hentry : Quiet c (GotSection.addDynTlsEntry c) := .of_same rfl rfl rfl rfl
  exact hentry.trans ((hmodule _ _).trans (hoffset _ _))

theorem addTpOffsetGotEntry_quiet : Quiet c (addTpOffsetGotEntry cfg c s) := by
  have hentry : Quiet c (GotSection.addEntry c) := .of_same rfl rfl rfl rfl
  unfold addTpOffsetGotEntry
  dsimp only
  split
  · exact hentry.trans (.of_same rfl rfl rfl rfl)
  · exact hentry.trans (addTlsReloc_quiet _ s _ _ (by decide))

theorem addTls_quiet : Quiet c (addTls cfg flags c s) := by
  have hdesc : ∀ c, Quiet c (addTlsDesc c s) := by
    intro c
    have hentry : Quiet c (GotSection.addTlsDescEntry c) := .of_same rfl rfl rfl rfl
    exact hentry.trans (addTlsReloc_quiet _ s .R_X86_64_TLSDESC _ (by decide))
  have hie : ∀ c, Quiet c (addTlsGdToIe c s) := fun c =>
    .addRelaDyn .R_X86_64_TPOFF64 (by decide) rfl (.of_same rfl rfl rfl rfl)
  have hdtprel : ∀ c, Quiet c (addGotDtprel c s) := fun c => .of_same rfl rfl rfl rfl
  unfold addTls
  exact ((((Quiet.ite _ (hdesc _)).trans (.ite _ (addTlsGd_quiet cfg _ s))).trans
    (.ite _ (hie _))).trans (.ite _ (hdtprel _))).trans (.ite _ (addTpOffsetGotEntry_quiet cfg _ s))

theorem addIpltEntry_quiet : Quiet c (addIpltEntry cfg c s) := by
  unfold addIpltEntry
  dsimp only
  split_ifs
  · exact .of_same rfl rfl rfl rfl
  · exact .of_same rfl rfl rfl rfl
  · exact .addRelaDyn .R_X86_64_IRELATIVE (by decide) rfl (.of_same rfl rfl rfl rfl)

end Parts

theorem syms_customGotReloc {c c' : Ctx} {s : SymId} {off : Word}
    (h : customGotReloc c s off = some c') : c'.syms = c.syms := by
  unfold customGotReloc noteOrMask noteAndMask at h
  dsimp only at h
  split_ifs at h <;> obtain rfl := Option.some_inj.mp h <;> rfl

theorem syms_plainGotReloc (cfg : Config) (c : Ctx) (s : SymId) (off : Word) :
    (plainGotReloc cfg c s off).syms = c.syms := by
  unfold plainGotReloc addRelativeReloc
  dsimp only
  split_ifs <;> rfl

theorem syms_addGotEntry (cfg : Config) (c : Ctx) (s : SymId) :
    (addGotEntry cfg c s).syms = c.syms := by
  have hentry : (GotSection.addEntry c).syms = c.syms := rfl
  unfold addGotEntry
  dsimp only
  split
  · split
    · exact (syms_customGotReloc ‹_›).trans hentry
    · exact (syms_plainGotReloc _ _ _ _).trans hentry
  · exact (syms_plainGotReloc _ _ _ _).trans hentry

-- The symbols that get an entry in `.got` for their address.
def getsGot (cfg : Config) (sym : Symbol) : Bool :=
  sym.flags.NEEDS_GOT && (!isOwnIfunc cfg sym || sym.flags.HAS_DIRECT_RELOC)

-- Between two states of a round there is nothing, or an entry in `.got`.
def GotRound (cfg : Config) (c c' : Ctx) (s : SymId) : Bool → Prop
  | false => Quiet c c'
  | true => ∃ c₁, Quiet c c₁ ∧ Quiet (addGotEntry cfg c₁ s) c'

section Round

variable {cfg : Config} {c c₁ c' c'' : Ctx} {s : SymId} {got : Bool}

theorem GotRound.before (h : Quiet c c₁) (h' : GotRound cfg c₁ c' s got) :
    GotRound cfg c c' s got := by
  cases got with
  | false => exact h.trans h'
  | true =>
    obtain ⟨c₂, hbefore, hafter⟩ := h'
    exact ⟨c₂, h.trans hbefore, hafter⟩

theorem GotRound.after (h : GotRound cfg c c' s got) (h' : Quiet c' c'') :
    GotRound cfg c c'' s got := by
  cases got with
  | false => exact Quiet.trans h h'
  | true =>
    obtain ⟨c₂, hbefore, hafter⟩ := h
    exact ⟨c₂, hbefore, hafter.trans h'⟩

theorem GotRound.entry (cfg : Config) (c : Ctx) (s : SymId) (got : Bool) :
    GotRound cfg c (if got then addGotEntry cfg c s else c) s got := by
  cases got with
  | false => exact .refl c
  | true => exact ⟨c, .refl c, .refl _⟩

variable (cfg c)

theorem addEntries_round (tmp : Bool) (flags : Flags) (s : SymId) :
    GotRound cfg c (addEntries cfg tmp flags c s) s flags.NEEDS_GOT := by
  unfold addEntries
  refine .before (.allocateAux c s) (.after (.entry cfg _ s _) ?_)
  exact ((addPltEntries_quiet flags _ s tmp).trans (.ite _ (addCopy_quiet cfg _ s))).trans
    (.ite _ (addTls_quiet cfg flags _ s))

theorem addIfuncGot_round (flags : Flags) (s : SymId) :
    GotRound cfg c (addIfuncGot cfg flags c s) s (flags.NEEDS_GOT && flags.HAS_DIRECT_RELOC) := by
  unfold addIfuncGot
  cases flags.HAS_DIRECT_RELOC with
  | true =>
    rw [Bool.and_true]
    have hiplt : Quiet c (redirectToIplt c s) := .update c s _ fun _ => rfl
    exact .before hiplt (.entry cfg _ s _)
  | false =>
    rw [Bool.and_false]
    exact Quiet.ite _ (.update c s _ fun _ => rfl)

theorem addIfunc_round (n : Nat) :
    GotRound cfg c (addIfunc cfg c (.sym n)) (.sym n)
      ((c.syms (.sym n)).flags.NEEDS_GOT && (c.syms (.sym n)).flags.HAS_DIRECT_RELOC) := by
  unfold addIfunc
  dsimp only
  refine .before ?_ (addIfuncGot_round cfg _ _ _)
  have hiplt := Quiet.update c (.sym n) (fun sym => { sym with isInIplt := true }) fun _ => rfl
  generalize c.update (.sym n) (fun sym => { sym with isInIplt := true }) = c₁ at hiplt ⊢
  have hcopy := hiplt.trans (.update_copy c₁ n fun _ => c₁.syms (.sym n))
  generalize c₁.update (SymId.sym n).copy (fun _ => c₁.syms (.sym n)) = c₂ at hcopy ⊢
  have hentry := (hcopy.trans (.allocateAux c₂ (SymId.sym n).copy)).trans
    (addIpltEntry_quiet cfg _ (SymId.sym n).copy)
  generalize addIpltEntry cfg (c₂.allocateAux (SymId.sym n).copy) (SymId.sym n).copy = c₃
    at hentry ⊢
  have haux : Quiet (c₃.allocateAux (.sym n)) ((c₃.allocateAux (.sym n)).updateAux
      fun a => { a with pltIdx := c₃.getPltIdx (SymId.sym n).copy }) := .of_same rfl rfl rfl rfl
  exact (hentry.trans (.allocateAux c₃ (.sym n))).trans haux

-- A round of the loop adds an address to `.got` exactly for the symbols that get an entry.
theorem postScanSymbol_round (n : Nat) :
    GotRound cfg c (postScanSymbol cfg c (.sym n)) (.sym n) (getsGot cfg (c.syms (.sym n))) := by
  have hturn := postScanSymbol_turn cfg c (.sym n)
  have hquiet := setNeedsPlt_quiet c (.sym n)
  have hgot : ((setNeedsPlt c (.sym n)).syms (.sym n)).flags.NEEDS_GOT =
      (c.syms (.sym n)).flags.NEEDS_GOT := congrArg FixedPart.NEEDS_GOT (hquiet.fixed n)
  generalize postScanSymbol cfg c (.sym n) = c' at hturn ⊢
  cases hturn with
  | unused hown hflags =>
    simp only [Bool.or_eq_false_iff] at hflags
    rw [getsGot, hown, Bool.not_true, Bool.false_or, hflags.1.1]
    exact .refl c
  | ifunc hown =>
    rw [getsGot, hown, Bool.not_true, Bool.false_or]
    exact addIfunc_round cfg c n
  | skipped hown hdyn =>
    have hnot : ((setNeedsPlt c (.sym n)).syms (.sym n)).flags.NEEDS_GOT = false := by
      by_contra hgot
      simp [Symbol.needsDynReloc, hgot] at hdyn
    rw [getsGot, hown, Bool.not_false, Bool.true_or, Bool.and_true, ← hgot, hnot]
    exact hquiet
  | entries hown =>
    rw [getsGot, hown, Bool.not_false, Bool.true_or, Bool.and_true, ← hgot]
    exact .before hquiet (addEntries_round cfg _ _ _ _)

theorem GotRound.fixed {cfg : Config} {c c' : Ctx} {s : SymId} {got : Bool}
    (h : GotRound cfg c c' s got) (n : Nat) :
    (c'.syms (.sym n)).fixed = (c.syms (.sym n)).fixed := by
  cases got with
  | false => exact Quiet.fixed h n
  | true =>
    obtain ⟨c₁, hbefore, hafter⟩ := h
    rw [hafter.fixed n, syms_addGotEntry, hbefore.fixed n]

end Round

end Platypus.Linker
