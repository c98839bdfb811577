import Platypus.Linker.OwnStub

-- The address of a function whose PLT entry stands for it.

namespace Platypus.Linker

open Bytes Machine

-- What a round for another symbol does to a symbol that has its definition.

section Untouched

variable (cfg : Config) (c : Ctx) (s : SymId)

theorem syms_addPltEntry : (addPltEntry c s).syms = c.syms := by
  unfold addPltEntry PltSection.addEntry PltSection.noteDuplicate
  dsimp only
  split_ifs <;> rfl

theorem syms_addPltEntries (tmp : Bool) (flags : Flags) :
    (addPltEntries tmp flags c s).syms = c.syms := by
  unfold addPltEntries
  dsimp only
  split_ifs
  · exact syms_addPltEntry _ s
  · rfl
  · exact syms_addPltEntry c s
  · rfl

theorem syms_addTlsReloc (type : RelType) (off : Word) :
    (addTlsReloc c type off s).syms = c.syms := by
  unfold addTlsReloc
  split <;> rfl

theorem syms_addTlsGd : (addTlsGd cfg c s).syms = c.syms := by
  unfold addTlsGd addTlsGdOffset addTlsGdModule
  dsimp only
  split_ifs <;> rfl

theorem syms_addTpOffsetGotEntry : (addTpOffsetGotEntry cfg c s).syms = c.syms := by
  unfold addTpOffsetGotEntry
  dsimp only
  split
  · rfl
  · exact syms_addTlsReloc _ s _ _

theorem syms_ite {c c' : Ctx} (b : Bool) (h : c'.syms = c.syms) :
    (if b then c' else c).syms = c.syms := by
  cases b
  · rfl
  · exact h

theorem syms_addTls (flags : Flags) : (addTls cfg flags c s).syms = c.syms := by
  have hdtprel (c : Ctx) : (addGotDtprel c s).syms = c.syms := rfl
  have hie (c : Ctx) : (addTlsGdToIe c s).syms = c.syms := rfl
  have hdesc (c : Ctx) : (addTlsDesc c s).syms = c.syms := syms_addTlsReloc _ s _ _
  unfold addTls
  dsimp only
  rw [syms_ite _ (syms_addTpOffsetGotEntry cfg _ s), syms_ite _ (hdtprel _), syms_ite _ (hie _),
    syms_ite _ (syms_addTlsGd cfg _ s), syms_ite _ (hdesc c)]

theorem syms_addIpltEntry : (addIpltEntry cfg c s).syms = c.syms := by
  unfold addIpltEntry
  dsimp only
  split_ifs <;> rfl

variable {c s} {t : SymId}

theorem syms_update_of_ne (h : t ≠ s) (f : Symbol → Symbol) : (c.update s f).syms t = c.syms t :=
  if_neg h

theorem syms_allocateAux_of_ne (h : t ≠ s) : (c.allocateAux s).syms t = c.syms t := if_neg h

theorem syms_replaceAliases (n : Nat) (ss : List SymId) (h : t ∉ ss) :
    (replaceAliases n c ss).syms t = c.syms t := by
  induction ss generalizing c with
  | nil => rfl
  | cons u ss ih =>
    rw [List.mem_cons, not_or] at h
    rw [replaceAliases, List.foldl_cons]
    exact (ih h.2).trans (syms_update_of_ne h.1 _)

-- Only aliases that are still shared symbols move to a copy.
theorem syms_addCopy (h : t ≠ s) (hkind : (c.syms t).kind = .Defined) :
    (addCopy cfg c s).syms t = c.syms t := by
  unfold addCopy
  dsimp only
  split_ifs
  · have hcheck : (checkCopySize c s).syms = c.syms := by
      unfold checkCopySize
      split <;> rfl
    refine (syms_replaceAliases _ _ ?_).trans (congrFun hcheck t)
    rw [List.mem_append, not_or, List.mem_singleton, List.mem_filter, hcheck, hkind]
    exact ⟨by simp, h⟩
  · rfl
  · exact (syms_update_of_ne h _).trans (syms_update_of_ne h _)

theorem syms_addEntries (tmp : Bool) (flags : Flags) (h : t ≠ s) (hkind : (c.syms t).kind = .Defined) :
    (addEntries cfg tmp flags c s).syms t = c.syms t := by
  unfold addEntries
  dsimp only
  rw [syms_ite _ (syms_addTls cfg _ s flags)]
  have hentries : (addPltEntries tmp flags (if flags.NEEDS_GOT then addGotEntry cfg (c.allocateAux s) s
      else c.allocateAux s) s).syms t = c.syms t := by
    rw [syms_addPltEntries, syms_ite _ (syms_addGotEntry cfg _ s), syms_allocateAux_of_ne h]
  split
  · rw [syms_addCopy cfg h (hentries ▸ hkind), hentries]
  · exact hentries

theorem syms_addIfunc (h : t ≠ s) (hcopy : t ≠ s.copy) : (addIfunc cfg c s).syms t = c.syms t := by
  have hgot (flags : Flags) (c : Ctx) : (addIfuncGot cfg flags c s).syms t = c.syms t := by
    unfold addIfuncGot
    dsimp only
    split_ifs
    · rw [syms_addGotEntry]
      exact syms_update_of_ne h _
    · exact syms_update_of_ne h _
    · exact syms_update_of_ne h _
    · rfl
  unfold addIfunc
  dsimp only
  rw [hgot]
  refine (syms_allocateAux_of_ne h).trans ?_
  rw [syms_addIpltEntry, syms_allocateAux_of_ne hcopy, syms_update_of_ne hcopy, syms_update_of_ne h]

end Untouched

theorem syms_postScanSymbol (cfg : Config) {c : Ctx} {n m : Nat} (hne : m ≠ n)
    (hkind : (c.syms (.sym m)).kind = .Defined) :
    (postScanSymbol cfg c (.sym n)).syms (.sym m) = c.syms (.sym m) := by
  have h : SymId.sym m ≠ .sym n := by simpa using hne
  have hneeds : (setNeedsPlt c (.sym n)).syms (.sym m) = c.syms (.sym m) := by
    unfold setNeedsPlt
    split
    · exact syms_update_of_ne h _
    · rfl
  have hturn := postScanSymbol_turn cfg c (.sym n)
  generalize postScanSymbol cfg c (.sym n) = c' at hturn ⊢
  cases hturn with
  | unused => rfl
  | ifunc => exact syms_addIfunc cfg h (by simp [SymId.copy])
  | skipped => exact hneeds
  | entries => rw [syms_addEntries cfg _ _ h (hneeds ▸ hkind), hneeds]

theorem syms_run (cfg : Config) {m : Nat} (syms : List Nat) (c : Ctx) (hm : m ∉ syms)
    (hkind : (c.syms (.sym m)).kind = .Defined) :
    ((syms.map .sym).foldl (postScanSymbol cfg) c).syms (.sym m) = c.syms (.sym m) := by
  induction syms generalizing c with
  | nil => rfl
  | cons n syms ih =>
    rw [List.mem_cons, not_or] at hm
    have hround := syms_postScanSymbol cfg hm.1 hkind
    exact (ih _ hm.2 (hround ▸ hkind)).trans hround

-- An undefined function that is called and whose address the scan wants to be its PLT entry.
structure Canonical (sym : Symbol) : Prop where
  type : sym.type = .STT_FUNC
  kind : sym.kind ≠ .Defined
  needsCopy : sym.flags.NEEDS_COPY = true
  needsPlt : sym.flags.NEEDS_PLT = true

theorem getPltIdx_addPltEntry {c : Ctx} {s : SymId} (h : (c.syms s).auxIdx + 1 = c.symAux.length) :
    (addPltEntry c s).getPltIdx s = BitVec.ofNat 32 (c.plt.length + c.fakeplt.length) := by
  cases hfake : (c.syms s).isFake with
  | true =>
    rw [addPltEntry_of_fake hfake]
    exact congrArg SymbolAux.pltIdx
      (aux_updateAux c s (.setPltIdx (c.plt.length + c.fakeplt.length)) h)
  | false =>
    have hlast : ((c.updateAux (.setCorrected c.plt.length c.bothplts)).syms s).auxIdx + 1 =
        (c.updateAux (.setCorrected c.plt.length c.bothplts)).symAux.length := by
      rw [Ctx.updateAux, List.length_modify]
      exact h
    rw [addPltEntry_of_plain hfake]
    exact congrArg SymbolAux.pltIdx
      (aux_updateAux _ s (.setPltIdx (c.plt.length + c.fakeplt.length)) hlast)

-- The index counts the entries of both PLTs, the fake one of the symbol itself included.
theorem getPltIdx_addPltEntries {c c₁ : Ctx} {s : SymId} {flags : Flags} (h : Ready c c₁ s)
    (hplt : flags.NEEDS_PLT = true) (hname : (c₁.syms s).startsWith "placeholder" = false) :
    (addPltEntries false flags c₁ s).getPltIdx s =
      BitVec.ofNat 32 (c₁.plt.length +
        (c₁.fakeplt.length + if (c₁.syms s).isFake then 1 else 0)) := by
  have hnext (c₂ : Ctx) (hsyms : c₂.syms = c₁.syms) :
      (flags.NEEDS_PLT && !false && !(c₂.syms s).startsWith "placeholder") = true := by
    rw [hsyms, hname, hplt]
    rfl
  unfold addPltEntries
  cases (c₁.syms s).isFake with
  | true =>
    rw [if_pos rfl]
    dsimp only
    rw [if_pos (hnext (addFakePltEntry c₁ s) rfl),
      getPltIdx_addPltEntry (addFakePltEntry_ready h).last]
    change BitVec.ofNat 32 (c₁.plt.length + (c₁.fakeplt ++ [s]).length) = _
    rw [List.length_append]
    rfl
  | false =>
    rw [if_neg Bool.false_ne_true]
    dsimp only
    rw [if_pos (hnext c₁ rfl), getPltIdx_addPltEntry h.last]
    rfl

section Turn

variable (cfg : Config) {c : Ctx} {n : Nat}

theorem Canonical.postScanSymbol_eq (h : Canonical (c.syms (.sym n))) :
    postScanSymbol cfg c (.sym n) =
      addEntries cfg false (c.syms (.sym n)).flags c (.sym n) := by
  have hifunc : handleNonPreemptibleIfunc cfg c (.sym n) = none := by
    rw [handleNonPreemptibleIfunc_eq_none]
    simp [isOwnIfunc, Symbol.isGnuIFunc, h.type]
  have honly : isFakeOnly (c.syms (.sym n)) = false := by simp [isFakeOnly, h.needsPlt]
  have hneeds : setNeedsPlt c (.sym n) = c := by simp [setNeedsPlt, honly]
  have hdyn : (c.syms (.sym n)).needsDynReloc = true := by
    simp [Symbol.needsDynReloc, h.needsPlt]
  simp [postScanSymbol, hifunc, honly, hneeds, hdyn]

-- The state of the turn before the symbol gets its entries in the PLTs.
def allocated (cfg : Config) (c : Ctx) (s : SymId) : Ctx :=
  if (c.syms s).flags.NEEDS_GOT then addGotEntry cfg (c.allocateAux s) s else c.allocateAux s

-- The state of the turn before the symbol gets its address.
def entered (cfg : Config) (c : Ctx) (s : SymId) : Ctx :=
  let flags := (c.syms s).flags
  let c₁ := c.allocateAux s
  addPltEntries false flags (if flags.NEEDS_GOT then addGotEntry cfg c₁ s else c₁) s

theorem entered_eq (cfg : Config) (c : Ctx) (s : SymId) :
    entered cfg c s = addPltEntries false (c.syms s).flags (allocated cfg c s) s := rfl

theorem view_allocated (cfg : Config) (c : Ctx) (s : SymId) :
    (allocated cfg c s).view = (c.allocateAux s).view :=
  view_ite _ _ _ (view_addGotEntry cfg _ s)

theorem syms_allocated (cfg : Config) (c : Ctx) (s : SymId) :
    (allocated cfg c s).syms s = { c.syms s with auxIdx := c.symAux.length } := by
  rw [allocated, syms_ite _ (syms_addGotEntry cfg _ s)]
  simp [Ctx.allocateAux, Ctx.update]

theorem syms_entered (cfg : Config) (c : Ctx) (s : SymId) :
    (entered cfg c s).syms s = { c.syms s with auxIdx := c.symAux.length } := by
  rw [entered_eq, syms_addPltEntries]
  exact syms_allocated cfg c s

theorem Canonical.postScanSymbol_own (h : Canonical (c.syms (.sym n))) :
    ((postScanSymbol cfg c (.sym n)).syms (.sym n)).kind = .Defined ∧
      ((postScanSymbol cfg c (.sym n)).syms (.sym n)).section_ = some .plt ∧
      ((postScanSymbol cfg c (.sym n)).syms (.sym n)).value =
        (BitVec.ofNat 32 cfg.target.pltHeaderSize +
          pltEntrySize * (entered cfg c (.sym n)).getPltIdx (.sym n)).setWidth 64 := by
  have hsym := syms_entered cfg c (.sym n)
  have htype : ((entered cfg c (.sym n)).syms (.sym n)).type = .STT_FUNC := by
    rw [hsym]
    exact h.type
  have hobject : ((entered cfg c (.sym n)).syms (.sym n)).isObject = false := by
    simp [Symbol.isObject, htype]
  have hdefined : ((entered cfg c (.sym n)).syms (.sym n)).isDefined = false := by
    rw [hsym]
    simp [Symbol.isDefined, h.kind]
  have htls : ((addCopy cfg (entered cfg c (.sym n)) (.sym n)).syms (.sym n)).isTls = false := by
    simp [addCopy, hobject, hdefined, replaceWithDefined, Ctx.update, Symbol.isTls, htype]
  have hturn : postScanSymbol cfg c (.sym n) = addCopy cfg (entered cfg c (.sym n)) (.sym n) := by
    rw [h.postScanSymbol_eq cfg, addEntries]
    rw [h.needsCopy, if_pos rfl]
    exact if_neg (Bool.eq_false_iff.mp htls)
  rw [hturn]
  simp [addCopy, hobject, hdefined, replaceWithDefined, Ctx.update]

variable (hpending : Pending c (.sym n))

include hpending

theorem Canonical.getPltIdx_entered (h : Canonical (c.syms (.sym n)))
    (hname : (c.syms (.sym n)).startsWith "placeholder" = false) :
    (entered cfg c (.sym n)).getPltIdx (.sym n) =
      BitVec.ofNat 32 (c.plt.length +
        (c.fakeplt.length + if (c.syms (.sym n)).isFake then 1 else 0)) := by
  have hview := view_allocated cfg c (.sym n)
  have hsym := syms_allocated cfg c (.sym n)
  have hready := (allocateAux_ready rfl hpending.isInIplt hpending.odd).of_view hview
  have hsame := SameEntries.of_view hview
  have hplt : (allocated cfg c (.sym n)).plt = c.plt := hsame.plt
  have hfakeplt : (allocated cfg c (.sym n)).fakeplt = c.fakeplt := hsame.fakeplt
  have hfake : ((allocated cfg c (.sym n)).syms (.sym n)).isFake = (c.syms (.sym n)).isFake := by
    rw [hsym]
    rfl
  have hname₁ : ((allocated cfg c (.sym n)).syms (.sym n)).startsWith "placeholder" = false := by
    rw [hsym]
    exact hname
  rw [entered_eq, getPltIdx_addPltEntries hready h.needsPlt hname₁, hplt, hfakeplt, hfake]

theorem Canonical.step (h : Canonical (c.syms (.sym n))) :
    ∃ fake plain, Step c (postScanSymbol cfg c (.sym n)) (.sym n) fake plain ∧
      fake = (c.syms (.sym n)).isFake ∧
      plain = !(c.syms (.sym n)).startsWith "placeholder" := by
  rw [h.postScanSymbol_eq cfg]
  obtain ⟨fake, plain, hstep, hfake, hplain⟩ := addEntries_step cfg false (c.syms (.sym n)).flags
    rfl hpending.isInIplt hpending.odd
  refine ⟨fake, plain, hstep, hfake, ?_⟩
  rw [hplain, h.needsPlt]
  rfl

end Turn

-- The other rounds add entries of their symbols only.
theorem plt_run (cfg : Config) (syms : List Nat) (c : Ctx) (hnodup : syms.Nodup)
    (hpending : ∀ n ∈ syms, Pending c (.sym n)) :
    ∃ new, ((syms.map .sym).foldl (postScanSymbol cfg) c).plt = c.plt ++ new ∧
      (∀ t ∈ new, t ∈ syms.map SymId.sym) ∧
      c.fakeplt.length ≤ ((syms.map .sym).foldl (postScanSymbol cfg) c).fakeplt.length := by
  induction syms generalizing c with
  | nil => exact ⟨[], (List.append_nil _).symm, by simp, le_rfl⟩
  | cons n syms ih =>
    have hfirst := hpending n List.mem_cons_self
    obtain ⟨fake, plain, hstep, -⟩ :=
      postScanSymbol_step cfg c (.sym n) (SymId.copy_ne n) hfirst.isInIplt hfirst.odd
    obtain ⟨new, hnew, hmem, hle⟩ := ih (postScanSymbol cfg c (.sym n))
      (List.nodup_cons.mp hnodup).2 (pending_rest cfg hnodup hpending)
    refine ⟨(if plain then [.sym n] else []) ++ new, ?_, fun t ht => ?_, ?_⟩
    · rw [← List.append_assoc, ← hstep.plt]
      exact hnew
    · rcases List.mem_append.mp ht with ht | ht
      · split at ht
        · exact List.mem_cons.mpr (.inl (List.mem_singleton.mp ht))
        · cases ht
      · exact List.mem_cons_of_mem _ (hmem t ht)
    · refine le_trans ?_ hle
      rw [hstep.fakeplt, List.length_append]
      exact Nat.le_add_right _ _

-- The address of `s` is that of an entry of `.plt` that is written for `s`.
def AtOwnPlt (cfg : Config) (c : Ctx) (s : SymId) : Prop :=
  ∃ j, c.plt[j]? = some s ∧ c.getVA cfg s 0 = StubSection.stubVA cfg .plt j

theorem canonical_value (header idx : Nat) (h : header + 32 * idx < 2 ^ 32) :
    (BitVec.ofNat 32 header + pltEntrySize * BitVec.ofNat 32 idx).setWidth 64 =
      BitVec.ofNat 64 (header + 32 * idx) := by
  apply BitVec.eq_of_toNat_eq
  simp only [pltEntrySize, BitVec.toNat_setWidth, BitVec.toNat_add, BitVec.toNat_mul,
    BitVec.toNat_ofNat]
  omega

-- The offset counts `f` entries of `.fakeplt`; that of the stub does not.
theorem canonical_offset_iff (base : Word) (header p f : Nat) (h : header + 32 * (p + f) < 2 ^ 32) :
    base + (BitVec.ofNat 32 header + pltEntrySize * BitVec.ofNat 32 (p + f)).setWidth 64 =
      base + BitVec.ofNat 64 (header + 32 * p) ↔ f = 0 := by
  rw [canonical_value _ _ h, BitVec.add_right_inj]
  constructor
  · intro heq
    have hoffset := congrArg BitVec.toNat heq
    rw [BitVec.toNat_ofNat, BitVec.toNat_ofNat, Nat.mod_eq_of_lt (by omega),
      Nat.mod_eq_of_lt (by omega)] at hoffset
    omega
  · rintro rfl
    rfl

-- What a whole run leaves of the turn of the symbol: its address, its entry among the others, and
-- the number of fake entries at that time.
structure Followed (cfg : Config) (B C : Ctx) (n : Nat) (new : List SymId) : Prop where
  va : C.getVA cfg (.sym n) 0 = cfg.va .plt + (BitVec.ofNat 32 cfg.target.pltHeaderSize +
    pltEntrySize * (entered cfg B (.sym n)).getPltIdx (.sym n)).setWidth 64
  plt : C.plt =
    B.plt ++ ((if !(B.syms (.sym n)).startsWith "placeholder" then [.sym n] else []) ++ new)
  rest : .sym n ∉ new
  fakeplt : B.fakeplt.length + (if (B.syms (.sym n)).isFake then 1 else 0) ≤ C.fakeplt.length

theorem Canonical.followed (cfg : Config) {B : Ctx} {n : Nat} {post : List Nat}
    (h : Canonical (B.syms (.sym n))) (hnodup : (n :: post).Nodup)
    (hpending : ∀ m ∈ n :: post, Pending B (.sym m)) :
    ∃ new, Followed cfg B (((n :: post).map .sym).foldl (postScanSymbol cfg) B) n new := by
  obtain ⟨hn, hpost⟩ := List.nodup_cons.mp hnodup
  obtain ⟨fake, plain, hstep, hfake, hplain⟩ := h.step cfg (hpending n List.mem_cons_self)
  obtain ⟨hkind, hsec, hvalue⟩ := h.postScanSymbol_own cfg
  obtain ⟨new, hnew, hmem, hle⟩ := plt_run cfg post (postScanSymbol cfg B (.sym n)) hpost
    (pending_rest cfg hnodup hpending)
  have hsame := syms_run cfg post (postScanSymbol cfg B (.sym n)) hn hkind
  rw [List.map_cons, List.foldl_cons]
  refine ⟨new, ?_, ?_, fun hin => ?_, le_trans ?_ hle⟩
  · rw [Ctx.getVA, hsame, hkind, hsec, hvalue]
    exact BitVec.add_zero _
  · rw [hnew, hstep.plt, List.append_assoc, hplain]
  · obtain ⟨m, hm, heq⟩ := List.mem_map.mp (hmem _ hin)
    exact hn (SymId.sym.inj heq ▸ hm)
  · rw [hstep.fakeplt, List.length_append, hfake]
    split <;> rfl

section Followed

variable {cfg : Config} {B C : Ctx} {n : Nat} {new : List SymId} (h : Followed cfg B C n new)
  (hplt : .sym n ∉ B.plt)

include h hplt

theorem Followed.not_atOwnPlt (hname : (B.syms (.sym n)).startsWith "placeholder" = true) :
    ¬AtOwnPlt cfg C (.sym n) := by
  rintro ⟨j, hj, -⟩
  have hentries := h.plt
  rw [hname] at hentries
  rw [hentries] at hj
  rcases List.mem_append.mp (List.mem_of_getElem? hj) with hin | hin
  · exact hplt hin
  · exact h.rest (by simpa using hin)

theorem Followed.atOwnPlt_iff (hsym : Canonical (B.syms (.sym n))) (hpending : Pending B (.sym n))
    (hname : (B.syms (.sym n)).startsWith "placeholder" = false)
    (hsize : 16 + 32 * (C.plt.length + C.fakeplt.length) < 2 ^ 32) :
    AtOwnPlt cfg C (.sym n) ↔ B.fakeplt = [] ∧ (B.syms (.sym n)).isFake = false := by
  have hentries : C.plt = B.plt ++ .sym n :: new := by
    rw [h.plt, hname]
    rfl
  have hlen : C.plt.length = B.plt.length + (new.length + 1) := by
    rw [hentries, List.length_append, List.length_cons]
  have hheader : cfg.target.pltHeaderSize ≤ 16 := by cases cfg.target <;> decide
  have hfakes := h.fakeplt
  -- the only entry is the one after those of `B`
  have hentry (j : Nat) : C.plt[j]? = some (.sym n) ↔ j = B.plt.length := by
    rw [hentries]
    constructor
    · exact eq_length_of_getElem? hplt h.rest
    · rintro rfl
      rw [List.getElem?_append_right (Nat.le_refl _), Nat.sub_self]
      rfl
  have hzero : B.fakeplt.length + (if (B.syms (.sym n)).isFake then 1 else 0) = 0 ↔
      B.fakeplt = [] ∧ (B.syms (.sym n)).isFake = false := by
    rw [Nat.add_eq_zero_iff, List.length_eq_zero_iff]
    cases (B.syms (.sym n)).isFake <;> simp
  simp only [AtOwnPlt, hentry, exists_eq_left]
  rw [h.va, hsym.getPltIdx_entered cfg hpending hname, ← hzero]
  exact canonical_offset_iff _ _ _ _ (by omega)

end Followed

theorem Link.notMem_plt {c : Ctx} {pre post : List Nat} {n : Nat} (h : Link c (pre ++ n :: post))
    (cfg : Config) : .sym n ∉ (postScanRelocations cfg c pre).plt := by
  intro hmem
  have hlink : Link c pre := by simpa using h.take pre.length
  have hdone := (hlink.slotInv cfg).done _ ((hlink.stubInv cfg).plt.subset hmem)
  rw [List.mem_reverse, List.mem_map] at hdone
  obtain ⟨m, hm, heq⟩ := hdone
  exact (List.nodup_append.mp h.nodup).2.2 m hm n List.mem_cons_self (SymId.sym.inj heq)

-- The address counts fake entries, and the entries of `.plt` do not.
theorem canonicalPlt_iff (cfg : Config) (c : Ctx) (pre post : List Nat) (n : Nat)
    (h : Link c (pre ++ n :: post))
    (hsym : Canonical ((postScanRelocations cfg c pre).syms (.sym n)))
    (hsize : 16 + 32 * ((postScanRelocations cfg c (pre ++ n :: post)).plt.length +
      (postScanRelocations cfg c (pre ++ n :: post)).fakeplt.length) < 2 ^ 32) :
    AtOwnPlt cfg (postScanRelocations cfg c (pre ++ n :: post)) (.sym n) ↔
      (postScanRelocations cfg c pre).fakeplt = [] ∧ (c.syms (.sym n)).isFake = false ∧
        (c.syms (.sym n)).startsWith "placeholder" = false := by
  have hnodup := (List.nodup_append.mp h.nodup).2.1
  have hpending := h.pending_rest cfg
  have hplt := h.notMem_plt cfg
  obtain ⟨new, hfollowed⟩ := hsym.followed cfg hnodup hpending
  rw [← h.isFake_rest cfg, ← h.startsWith_rest cfg]
  rw [postScanRelocations_append] at hsize ⊢
  cases hname : ((postScanRelocations cfg c pre).syms (.sym n)).startsWith "placeholder" with
  | true =>
    -- no entry at all
    exact iff_of_false (hfollowed.not_atOwnPlt hplt hname) (by simp)
  | false =>
    have hiff := hfollowed.atOwnPlt_iff hplt hsym (hpending n List.mem_cons_self) hname hsize
    simpa using hiff

-- A program that is not position independent, with a function that gets a fake entry and one
-- whose PLT entry is its address.
def fixedConfig : Config := { demoConfig .X86_64 with isPic := false }

def canonicalLink : Ctx where
  syms
    | .sym 0 => { name := "free".toList, iscustomreloc := 1#32 }
    | _ => { name := "puts".toList, flags := { NEEDS_PLT := true, NEEDS_COPY := true } }

theorem canonicalLink_link (syms : List Nat) (hnodup : syms.Nodup)
    (hodd : ∀ n ∈ syms, (canonicalLink.syms (.sym n)).isFake →
      (canonicalLink.syms (.sym n)).customrelocType = 1#32) : Link canonicalLink syms where
  fresh := ⟨rfl, rfl, rfl, rfl, rfl, by
    intro s
    rcases s with ((_ | n) | n) <;> rfl⟩
  nodup := hnodup
  odd := hodd

theorem canonicalPlt_first :
    AtOwnPlt fixedConfig (postScanRelocations fixedConfig canonicalLink [1, 0]) (.sym 1) :=
  (canonicalPlt_iff fixedConfig canonicalLink [] [0] 1
    (canonicalLink_link [1, 0] (by decide) (by decide))
    ⟨rfl, by decide, rfl, rfl⟩ (by decide)).mpr ⟨rfl, by decide, by decide⟩

-- After a fake entry the address is 32 bytes behind the only stub of `.plt`.
theorem canonicalPlt_after_fake :
    Link canonicalLink [0, 1] ∧
      Canonical ((postScanRelocations fixedConfig canonicalLink [0]).syms (.sym 1)) ∧
      (postScanRelocations fixedConfig canonicalLink [0, 1]).plt = [.sym 1] ∧
      StubSection.stubVA fixedConfig .plt 0 = 0x1010#64 ∧
      (postScanRelocations fixedConfig canonicalLink [0, 1]).getVA fixedConfig (.sym 1) 0 =
        0x1030#64 ∧
      ¬AtOwnPlt fixedConfig (postScanRelocations fixedConfig canonicalLink [0, 1]) (.sym 1) := by
  refine ⟨canonicalLink_link [0, 1] (by decide) (by decide), ⟨rfl, by decide, rfl, rfl⟩, rfl, rfl,
    by decide, ?_⟩
  rintro ⟨j, hj, heq⟩
  have hlt : j < 1 := (List.getElem?_eq_some_iff.mp hj).1
  obtain rfl : j = 0 := by omega
  exact absurd heq (by decide)

end Platypus.Linker
