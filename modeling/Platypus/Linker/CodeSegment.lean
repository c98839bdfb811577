import Platypus.Linker.Phdrs

namespace Platypus.Linker

def commandSections (cmds : List SectionCommand) : List OutputSection :=
  cmds.filterMap SectionCommand.osec?

-- The output sections of a dynamic object that is linked without a linker script: where there is a
-- PLT there is `.got.plt`.
structure DynamicObject (cfg : LayoutConfig) (cmds : List SectionCommand) : Prop where
  sectionStart : cfg.sectionStartMap = []
  notLarge : ∀ osec ∈ commandSections cmds, osec.flags.SHF_X86_64_LARGE = false
  notBoth : ∀ osec ∈ commandSections cmds,
    osec.flags.SHF_WRITE = true → osec.flags.SHF_EXECINSTR = false
  relro : ∀ osec ∈ commandSections cmds, osec.relro = false
  align : ∀ osec ∈ commandSections cmds, 0 < osec.addralign
  gotPlt : ∀ osec ∈ commandSections cmds, 1 ≤ sortClass osec →
    ∃ got ∈ commandSections cmds, got.name = ".got.plt".toList ∧ got.type = .SHT_PROGBITS ∧
      got.flags.SHF_ALLOC = true ∧ got.flags.SHF_WRITE = true ∧ got.partition = osec.partition

-- What a sorted section keeps of this.
structure Ranked (cfg : LayoutConfig) (osec : OutputSection) : Prop where
  rank : osec.flags.SHF_ALLOC = true →
    osec.sortRank = 2 ^ 27 + osec.partition.val * 2 ^ 18 + lowRank cfg osec
  read : osec.flags.SHF_WRITE = false → osec.flags.SHF_EXECINSTR = false →
    lowRank cfg osec < 2 ^ 12
  exec : osec.flags.SHF_WRITE = false → osec.flags.SHF_EXECINSTR = true →
    2 ^ 12 ≤ lowRank cfg osec ∧ lowRank cfg osec < 2 ^ 13
  write : osec.flags.SHF_WRITE = true → osec.flags.SHF_EXECINSTR = false ∧
    2 ^ 14 ≤ lowRank cfg osec ∧ lowRank cfg osec < 2 ^ 15
  relro : isRelroSection cfg osec = true → osec.flags.SHF_WRITE = true

section Ranked

variable {cfg : LayoutConfig} {cmds : List SectionCommand}

theorem lowRank_bound (osec : OutputSection) (hlarge : osec.flags.SHF_X86_64_LARGE = false)
    (hboth : osec.flags.SHF_WRITE = true → osec.flags.SHF_EXECINSTR = false) :
    lowRank cfg osec < 2 ^ 18 := by
  have hlarge' : isLarge cfg osec = false := by simp [isLarge, hlarge]
  cases hw : osec.flags.SHF_WRITE with
  | true =>
    have h := (lowRank_write cfg osec hlarge' hw (hboth hw)).2
    omega
  | false =>
    cases hx : osec.flags.SHF_EXECINSTR with
    | true =>
      have h := (lowRank_exec cfg osec hw hx).2
      omega
    | false =>
      have h := lowRank_read cfg osec hlarge' hw hx
      omega

-- A section that is marked as relro is one anyway.

theorem isRelroSection_eq (osec : OutputSection) :
    isRelroSection cfg osec =
      (cfg.zRelro && (osec.relro || isRelroSection cfg { osec with relro := false })) := by
  unfold isRelroSection
  cases cfg.zRelro <;> cases osec.relro <;>
    simp only [Bool.not_true, Bool.not_false, Bool.false_eq_true, if_true, if_false, Bool.true_and,
      Bool.false_and, Bool.true_or, Bool.false_or]

theorem isRelroSection_setRank (osec : OutputSection) :
    isRelroSection cfg (setRank cfg osec) = isRelroSection cfg osec := by
  have hplain : isRelroSection cfg { setRank cfg osec with relro := false } =
      isRelroSection cfg { osec with relro := false } := rfl
  have hrelro : (setRank cfg osec).relro = (osec.relro || _ && isRelroSection cfg osec) := rfl
  rw [isRelroSection_eq (setRank cfg osec), hplain, hrelro, isRelroSection_eq osec]
  cases cfg.zRelro <;> cases osec.relro <;>
    cases isRelroSection cfg { osec with relro := false } <;> simp

theorem lowRank_setRank (osec : OutputSection) :
    lowRank cfg (setRank cfg osec) = lowRank cfg osec := by
  have hwrite : writeRank cfg (setRank cfg osec) = writeRank cfg osec := by
    rw [writeRank, isRelroSection_setRank]
    rfl
  have haccess : accessRank cfg (setRank cfg osec) = accessRank cfg osec := by
    rw [accessRank, hwrite]
    rfl
  rw [lowRank, haccess]
  rfl

theorem DynamicObject.ranked (h : DynamicObject cfg cmds) {osec : OutputSection}
    (hosec : osec ∈ sortedSections cfg cmds) : Ranked cfg osec := by
  obtain ⟨osec, hmem, rfl⟩ := List.mem_map.mp ((sortedSections_perm cfg cmds).mem_iff.mp hosec)
  have hlarge : isLarge cfg osec = false := by simp [isLarge, h.notLarge osec hmem]
  constructor
  · intro halloc
    rw [lowRank_setRank]
    exact getSectionRank_alloc cfg osec h.sectionStart halloc
      (lowRank_bound osec (h.notLarge osec hmem) (h.notBoth osec hmem))
  · intro hw hx
    rw [lowRank_setRank]
    exact lowRank_read cfg osec hlarge hw hx
  · intro hw hx
    rw [lowRank_setRank]
    exact lowRank_exec cfg osec hw hx
  · intro hw
    rw [lowRank_setRank]
    exact ⟨h.notBoth osec hmem hw, lowRank_write cfg osec hlarge hw (h.notBoth osec hmem hw)⟩
  · intro hrelro
    rw [isRelroSection_setRank, isRelroSection_eq, h.relro osec hmem, Bool.false_or,
      Bool.and_eq_true] at hrelro
    have hrest := hrelro.2
    change osec.flags.SHF_WRITE = true
    by_contra hw
    rw [Bool.not_eq_true] at hw
    simp only [isRelroSection, hw, Bool.not_false, Bool.or_true, if_true, Bool.false_eq_true,
      if_false, ite_self] at hrest

end Ranked

-- The ranks of the code of a partition.

def codeStart (part : Fin 256) : Nat := 2 ^ 27 + part.val * 2 ^ 18 + 2 ^ 12

def codeEnd (part : Fin 256) : Nat := 2 ^ 27 + part.val * 2 ^ 18 + 2 ^ 13

section Split

variable (cfg : LayoutConfig) (cmds : List SectionCommand) (part : Fin 256)

def beforeCode : List OutputSection := (otherSections cfg cmds).filter (·.sortRank < codeStart part)

def fromCode : List OutputSection := (otherSections cfg cmds).filter (codeStart part ≤ ·.sortRank)

def codeSections : List OutputSection := (fromCode cfg cmds part).filter (·.sortRank < codeEnd part)

def afterCode : List OutputSection := (fromCode cfg cmds part).filter (codeEnd part ≤ ·.sortRank)

theorem sortedSections_split :
    beforeCode cfg cmds part ++ codeSections cfg cmds part ++
      (afterCode cfg cmds part ++ pltSections cfg cmds) = sortedSections cfg cmds := by
  have hothers := otherSections_pairwise cfg cmds
  have hcode := filter_lt_append_filter OutputSection.sortRank (codeEnd part)
    (hothers.filter (codeStart part ≤ ·.sortRank))
  have hall := filter_lt_append_filter OutputSection.sortRank (codeStart part) hothers
  rw [← sortedSections_eq, ← List.append_assoc, List.append_assoc (beforeCode cfg cmds part)]
  congr 1
  exact (congrArg (beforeCode cfg cmds part ++ ·) hcode).trans hall

theorem zipIdx_sortedSections :
    (sortedSections cfg cmds).zipIdx =
      (beforeCode cfg cmds part).zipIdx ++
        (codeSections cfg cmds part).zipIdx (beforeCode cfg cmds part).length ++
      ((afterCode cfg cmds part).zipIdx
          (beforeCode cfg cmds part ++ codeSections cfg cmds part).length ++
        (pltSections cfg cmds).zipIdx
          ((beforeCode cfg cmds part ++ codeSections cfg cmds part).length +
            (afterCode cfg cmds part).length)) := by
  rw [← sortedSections_split cfg cmds part, List.zipIdx_append, List.zipIdx_append,
    List.zipIdx_append, Nat.zero_add, Nat.zero_add]

variable {cfg cmds part} {osec : OutputSection}

theorem mem_codeSections_iff :
    osec ∈ codeSections cfg cmds part ↔ osec ∈ otherSections cfg cmds ∧
      codeStart part ≤ osec.sortRank ∧ osec.sortRank < codeEnd part := by
  simp only [codeSections, fromCode, List.mem_filter, decide_eq_true_eq, and_assoc]

theorem mem_beforeCode_iff :
    osec ∈ beforeCode cfg cmds part ↔
      osec ∈ otherSections cfg cmds ∧ osec.sortRank < codeStart part := by
  simp [beforeCode]

theorem mem_afterCode_iff :
    osec ∈ afterCode cfg cmds part ↔ osec ∈ otherSections cfg cmds ∧
      codeStart part ≤ osec.sortRank ∧ codeEnd part ≤ osec.sortRank := by
  simp only [afterCode, fromCode, List.mem_filter, decide_eq_true_eq, and_assoc]

theorem mem_otherSections_iff :
    osec ∈ otherSections cfg cmds ↔ osec ∈ sortedSections cfg cmds ∧ sortClass osec = 0 := by
  simp [otherSections]

theorem Loaded.alloc (h : Loaded part osec) : osec.flags.SHF_ALLOC = true := by
  have hneeds := h.1
  simp only [needsPtLoad, Bool.and_eq_true] at hneeds
  exact hneeds.1

variable (h : DynamicObject cfg cmds)

include h

-- The rank of a section of the partition says which access it has.
theorem DynamicObject.access (hosec : osec ∈ sortedSections cfg cmds) (hloaded : Loaded part osec) :
    (osec.sortRank < codeStart part ↔
      osec.flags.SHF_WRITE = false ∧ osec.flags.SHF_EXECINSTR = false) ∧
    (codeEnd part ≤ osec.sortRank ↔ osec.flags.SHF_WRITE = true) := by
  have hranked := h.ranked hosec
  have hrank := hranked.rank hloaded.alloc
  rw [hloaded.2] at hrank
  unfold codeStart codeEnd
  cases hw : osec.flags.SHF_WRITE with
  | true =>
    obtain ⟨hx, hlow, -⟩ := hranked.write hw
    simp only [Bool.true_eq_false, false_and, iff_false, iff_true]
    omega
  | false =>
    cases hx : osec.flags.SHF_EXECINSTR with
    | true =>
      have hlow := hranked.exec hw hx
      simp only [Bool.true_eq_false, and_false, iff_false, Bool.false_eq_true]
      omega
    | false =>
      have hlow := hranked.read hw hx
      simp only [and_self, iff_true, Bool.false_eq_true, iff_false]
      omega

theorem DynamicObject.not_reserved (hosec : osec ∈ sortedSections cfg cmds)
    (hrank : osec.sortRank < codeEnd part) : ¬Reserved part osec := by
  rintro ⟨hneeds, rfl, hend⟩
  simp only [needsPtLoad, Bool.and_eq_true] at hneeds
  have heq := (h.ranked hosec).rank hneeds.1
  rw [hend] at heq
  simp only [codeEnd, Fin.val_one] at hrank
  have h255 : (255 : Fin 256).val = 255 := rfl
  omega

theorem DynamicObject.code (hosec : osec ∈ codeSections cfg cmds part)
    (hloaded : Loaded part osec) :
    osec.flags.SHF_WRITE = false ∧ osec.flags.SHF_EXECINSTR = true := by
  obtain ⟨hother, hstart, hend⟩ := mem_codeSections_iff.mp hosec
  obtain ⟨hread, hwrite⟩ := h.access (mem_otherSections_iff.mp hother).1 hloaded
  have hw : osec.flags.SHF_WRITE = false := by
    by_contra hw
    exact Nat.not_le_of_lt hend (hwrite.mpr (Bool.not_eq_false _ ▸ hw))
  refine ⟨hw, ?_⟩
  by_contra hx
  exact Nat.not_lt_of_le hstart (hread.mpr ⟨hw, Bool.not_eq_true _ ▸ hx⟩)

theorem DynamicObject.nobits_last {a b : OutputSection} (ha : a ∈ codeSections cfg cmds part)
    (hb : b ∈ codeSections cfg cmds part) (hab : a.sortRank ≤ b.sortRank)
    (hloaded : Loaded part a) (hloaded' : Loaded part b) (htype : a.type = .SHT_NOBITS) :
    b.type = .SHT_NOBITS := by
  obtain ⟨hwa, hxa⟩ := h.code ha hloaded
  obtain ⟨hwb, hxb⟩ := h.code hb hloaded'
  have hranka := (h.ranked (mem_otherSections_iff.mp (mem_codeSections_iff.mp ha).1).1).rank
    hloaded.alloc
  have hrankb := (h.ranked (mem_otherSections_iff.mp (mem_codeSections_iff.mp hb).1).1).rank
    hloaded'.alloc
  rw [hloaded.2] at hranka
  rw [hloaded'.2] at hrankb
  rw [← lowRank_nobits cfg b hwb hxb]
  have hlow := (lowRank_nobits cfg a hwa hxa).mpr htype
  omega

end Split

theorem firstWrites_of_not_loaded {part : Fin 256} {secs : List (OutputSection × Nat)}
    (h : ∀ sec ∈ secs, ¬Loaded part sec.1) : FirstWrites part secs := by
  induction secs with
  | nil => trivial
  | cons sec secs ih =>
    refine ⟨fun hloaded => absurd hloaded (h sec List.mem_cons_self), fun _ => ih fun s hs => ?_⟩
    exact h s (List.mem_cons_of_mem _ hs)

theorem firstWrites_append {part : Fin 256} {secs rest : List (OutputSection × Nat)}
    (hsecs : ∀ sec ∈ secs, Loaded part sec.1 → sec.1.flags.SHF_WRITE = true)
    (hrest : (∃ sec ∈ rest, Loaded part sec.1) → ∃ sec ∈ secs, Loaded part sec.1) :
    FirstWrites part (secs ++ rest) := by
  induction secs with
  | nil =>
    refine firstWrites_of_not_loaded fun sec hsec hloaded => ?_
    obtain ⟨s, hs, -⟩ := hrest ⟨sec, hsec, hloaded⟩
    exact absurd hs List.not_mem_nil
  | cons sec secs ih =>
    refine ⟨hsecs sec List.mem_cons_self, fun hnot => ih ?_ fun hex => ?_⟩
    · exact fun s hs => hsecs s (List.mem_cons_of_mem _ hs)
    · obtain ⟨s, hs, hloaded⟩ := hrest hex
      rcases List.mem_cons.mp hs with rfl | hs
      · exact absurd hloaded hnot
      · exact ⟨s, hs, hloaded⟩

theorem exists_mem_zipIdx {α : Type} {l : List α} {a : α} (h : a ∈ l) (k : Nat) :
    ∃ i, (a, i) ∈ l.zipIdx k := by
  rw [← List.zipIdx_map_fst k l] at h
  obtain ⟨⟨b, i⟩, hb, rfl⟩ := List.mem_map.mp h
  exact ⟨i, hb⟩

-- The first executable segment of a partition: it holds the code, but not the PLT.
structure CodeSegment (part : Fin 256) (secs : List OutputSection) (phdrs : List PhdrEntry)
    (i : Nat) (e : PhdrEntry) : Prop where
  entry : phdrs[i]? = some e
  exec : e.p_flags.PF_X = true
  first : ∀ j < i, ∀ e', phdrs[j]? = some e' → e'.p_flags.PF_X = false
  code : ∀ osec ∈ secs, sortClass osec = 0 → Loaded part osec →
    osec.flags.SHF_EXECINSTR = true → ∃ k, (osec, k) ∈ e.secs
  noPlt : ∀ sec ∈ e.secs, sortClass sec.1 = 0
  mem : ∀ sec ∈ e.secs, sec ∈ secs.zipIdx ∧ needsPtLoad sec.1 = true
  order : e.secs.Pairwise fun a b => a.2 < b.2
  -- a section of the partition, at or before each PLT section, starts another segment
  next : ∀ sec ∈ secs.zipIdx, sortClass sec.1 ≠ 0 → Loaded part sec.1 →
    ∃ first ∈ secs.zipIdx, (∃ e' ∈ phdrs, e'.headers = false ∧ e'.secs.head? = some first) ∧
      Loaded part first.1 ∧ (∀ s ∈ e.secs, s.2 < first.2) ∧ first.2 ≤ sec.2

-- The entry in which the code ends is the segment, since a writable section follows it.
theorem CodeSegment.of_sealed {cfg : LayoutConfig} {part : Fin 256} {secs : List OutputSection}
    {pre post : List (OutputSection × Nat)} {stop : Option Nat} {i : Nat} {e : PhdrEntry}
    (homagic : cfg.omagic = false) (hsplit : secs.zipIdx = pre ++ post)
    (hsealed : Sealed i e (pre.foldl (loadStep cfg part stop) (startPhdrs cfg part)))
    (hload : (pre.foldl (loadStep cfg part stop) (startPhdrs cfg part)).load = some i)
    (hexec : e.p_flags.PF_X = true)
    (hcode : ∀ osec ∈ secs, sortClass osec = 0 → Loaded part osec →
      osec.flags.SHF_EXECINSTR = true → ∃ k, (osec, k) ∈ e.secs)
    (hnoPlt : ∀ sec ∈ e.secs, sortClass sec.1 = 0) (hpre : ∀ sec ∈ pre, sortClass sec.1 = 0)
    (hpost : FirstWrites part post) :
    CodeSegment part secs
      (secs.zipIdx.foldl (loadStep cfg part stop) (startPhdrs cfg part)).ret i e := by
  have hpairwise := zipIdx_pairwise secs
  rw [hsplit] at hpairwise
  obtain ⟨hpairwise₁, hpairwise₂, hlt⟩ := List.pairwise_append.mp hpairwise
  have hrun := hsealed.run stop homagic post hpost
  have hwithin : Within pre (pre.foldl (loadStep cfg part stop) (startPhdrs cfg part)) :=
    (Within.start cfg part).run pre hpairwise₁
  obtain ⟨horder, hmem⟩ := hwithin e (List.mem_of_getElem? hsealed.entry)
  rw [hsplit, List.foldl_append]
  refine ⟨hrun.entry, hexec, fun j hj e' he' => hrun.before j hj e' he', hcode, hnoPlt, ?_,
    horder, ?_⟩
  · intro sec hsec
    rw [hsplit]
    exact ⟨List.mem_append_left _ (hmem sec hsec).1, (hmem sec hsec).2⟩
  · intro sec hsec hclass hloaded
    rw [hsplit] at hsec ⊢
    replace hsec : sec ∈ post := by
      rcases List.mem_append.mp hsec with hsec | hsec
      · exact absurd (hpre sec hsec) hclass
      · exact hsec
    obtain ⟨l₁, first, l₂, rfl, hnot, hfirst, hstarts⟩ :=
      hsealed.starts stop hload homagic post hpost ⟨sec, hsec, hloaded⟩
    have hfirstMem : first ∈ l₁ ++ first :: l₂ := List.mem_append_right _ List.mem_cons_self
    refine ⟨first, List.mem_append_right _ hfirstMem, hstarts, hfirst, fun s hs => ?_, ?_⟩
    · exact hlt s (hmem s hs).1 first hfirstMem
    · rcases List.mem_append.mp hsec with hsec | hsec
      · exact absurd hloaded (hnot sec hsec)
      · rcases List.mem_cons.mp hsec with rfl | hsec
        · exact Nat.le_refl _
        · have hrest := (List.pairwise_append.mp hpairwise₂).2.1
          exact Nat.le_of_lt ((List.pairwise_cons.mp hrest).1 sec hsec)

section Segment

variable {cfg : LayoutConfig} {cmds : List SectionCommand} {part : Fin 256}
  (h : DynamicObject cfg cmds)

include h

-- The relro sections end after all code.
theorem DynamicObject.relroEnd_ne {sec : OutputSection × Nat}
    (hsec : sec ∈ (codeSections cfg cmds part).zipIdx (beforeCode cfg cmds part).length) :
    some sec.2 ≠ relroEnd cfg part (sortedSections cfg cmds) := by
  intro heq
  obtain ⟨s, hs, hloaded, hrelro, hlt⟩ := relroEnd_after heq.symm
  have hidx := List.snd_lt_of_mem_zipIdx hsec
  rw [← sortedSections_split cfg cmds part, List.zipIdx_append, List.mem_append] at hs
  rcases hs with hs | hs
  · have hfst := List.fst_mem_of_mem_zipIdx hs
    have hsorted : s.1 ∈ sortedSections cfg cmds := by
      rw [← sortedSections_split cfg cmds part]
      exact List.mem_append_left _ hfst
    have hw := (h.ranked hsorted).relro hrelro
    rcases List.mem_append.mp hfst with hfst | hfst
    · have hread := ((h.access hsorted hloaded).1.mp (mem_beforeCode_iff.mp hfst).2).1
      rw [hw] at hread
      exact absurd hread (by decide)
    · have hcode := (h.code hfst hloaded).1
      rw [hw] at hcode
      exact absurd hcode (by decide)
  · have hge := List.le_snd_of_mem_zipIdx hs
    rw [List.length_append] at hge
    omega

theorem DynamicObject.firstWrites (part : Fin 256) (k l : Nat) :
    FirstWrites part ((afterCode cfg cmds part).zipIdx k ++ (pltSections cfg cmds).zipIdx l) := by
  have hafter : ∀ osec ∈ afterCode cfg cmds part, Loaded part osec → osec.flags.SHF_WRITE = true := by
    intro osec hosec hloaded
    obtain ⟨hother, -, hend⟩ := mem_afterCode_iff.mp hosec
    exact (h.access (mem_otherSections_iff.mp hother).1 hloaded).2.mp hend
  refine firstWrites_append (fun sec hsec => hafter _ (List.fst_mem_of_mem_zipIdx hsec)) ?_
  rintro ⟨sec, hsec, hloaded⟩
  obtain ⟨hsorted, hclass⟩ := List.mem_filter.mp (List.fst_mem_of_mem_zipIdx hsec)
  obtain ⟨osec, hosec, heq⟩ := List.mem_map.mp ((sortedSections_perm cfg cmds).mem_iff.mp hsorted)
  obtain ⟨got, hgot, hname, htype, halloc, hwrite, hpart⟩ := h.gotPlt osec hosec (by
    rw [← heq] at hclass
    exact of_decide_eq_true hclass)
  have hgot' : setRank cfg got ∈ sortedSections cfg cmds :=
    (sortedSections_perm cfg cmds).mem_iff.mpr (List.mem_map_of_mem hgot)
  have hgotClass : sortClass (setRank cfg got) = 0 := by
    have hne : ".got.plt".toList ≠ ".plt".toList ∧ ".got.plt".toList ≠ ".plt.sec".toList := by decide
    change (if got.name = ".plt".toList then 2 else if got.name = ".plt.sec".toList then 1 else 0) = 0
    rw [hname, if_neg hne.1, if_neg hne.2]
  have hgotLoaded : Loaded part (setRank cfg got) := by
    refine ⟨?_, hpart.trans ?_⟩
    · change (got.flags.SHF_ALLOC && !(got.flags.SHF_TLS && decide (got.type = .SHT_NOBITS))) = true
      rw [halloc, htype]
      simp
    · rw [← hloaded.2, ← heq]
      rfl
  have hend := (h.access hgot' hgotLoaded).2.mpr hwrite
  have hstart : codeStart part ≤ codeEnd part := by
    unfold codeStart codeEnd
    omega
  have hmem := mem_afterCode_iff.mpr
    ⟨mem_otherSections_iff.mpr ⟨hgot', hgotClass⟩, hstart.trans hend, hend⟩
  obtain ⟨i, hi⟩ := exists_mem_zipIdx hmem k
  exact ⟨_, hi, hgotLoaded⟩

theorem DynamicObject.mem_codeSections {osec : OutputSection}
    (hosec : osec ∈ sortedSections cfg cmds) (hclass : sortClass osec = 0)
    (hloaded : Loaded part osec) (hx : osec.flags.SHF_EXECINSTR = true) :
    osec ∈ codeSections cfg cmds part := by
  obtain ⟨hread, hwrite⟩ := h.access hosec hloaded
  refine mem_codeSections_iff.mpr ⟨mem_otherSections_iff.mpr ⟨hosec, hclass⟩, ?_, ?_⟩
  · by_contra hlt
    rw [(hread.mp (Nat.lt_of_not_le hlt)).2] at hx
    exact absurd hx Bool.false_ne_true
  · by_contra hge
    rw [((h.ranked hosec).write (hwrite.mp (Nat.le_of_not_lt hge))).1] at hx
    exact absurd hx Bool.false_ne_true

-- Before the code comes data, so that no segment is executable.
theorem DynamicObject.readPhase (part : Fin 256) (homagic : cfg.omagic = false) (stop : Option Nat) :
    ReadPhase (sortClass · = 0)
      ((beforeCode cfg cmds part).zipIdx.foldl (loadStep cfg part stop) (startPhdrs cfg part)) := by
  refine .run homagic _ (fun sec hsec => ?_) (.start _ homagic)
  obtain ⟨hother, hrank⟩ := mem_beforeCode_iff.mp (List.fst_mem_of_mem_zipIdx hsec)
  obtain ⟨hsorted, hclass⟩ := mem_otherSections_iff.mp hother
  have hlt : sec.1.sortRank < codeEnd part := by
    unfold codeStart at hrank
    unfold codeEnd
    omega
  refine ⟨h.not_reserved hsorted hlt, fun hloaded => ?_⟩
  obtain ⟨hw, hx⟩ := (h.access hsorted hloaded).1.mp hrank
  exact ⟨hw, hx, hclass⟩

theorem DynamicObject.codeIn (homagic : cfg.omagic = false) (stop : Option Nat) (st : PhdrState)
    (hstop : ∀ sec ∈ (codeSections cfg cmds part).zipIdx (beforeCode cfg cmds part).length,
      some sec.2 ≠ stop)
    (hread : ReadPhase (sortClass · = 0) st) :
    ∃ done, (∀ osec ∈ codeSections cfg cmds part, Loaded part osec → ∃ k, (osec, k) ∈ done) ∧
      CodeIn cfg (sortClass · = 0) done
        (((codeSections cfg cmds part).zipIdx (beforeCode cfg cmds part).length).foldl
          (loadStep cfg part stop) st) := by
  have hpairwise : (codeSections cfg cmds part).Pairwise fun a b => Loaded part a →
      Loaded part b → a.type = .SHT_NOBITS → b.type = .SHT_NOBITS := by
    have hrank := ((otherSections_pairwise cfg cmds).filter (codeStart part ≤ ·.sortRank)).filter
      (·.sortRank < codeEnd part)
    exact hrank.imp_of_mem fun ha hb hab => h.nobits_last ha hb hab
  rw [← List.zipIdx_map_fst (beforeCode cfg cmds part).length (codeSections cfg cmds part),
    List.pairwise_map] at hpairwise
  have hcode : ∀ sec ∈ (codeSections cfg cmds part).zipIdx (beforeCode cfg cmds part).length,
      ¬Reserved part sec.1 ∧ (Loaded part sec.1 → sec.1.flags.SHF_WRITE = false ∧
        sec.1.flags.SHF_EXECINSTR = true ∧ sortClass sec.1 = 0 ∧ some sec.2 ≠ stop) := by
    intro sec hsec
    have hfst := List.fst_mem_of_mem_zipIdx hsec
    obtain ⟨hother, -, hrank⟩ := mem_codeSections_iff.mp hfst
    obtain ⟨hsorted, hclass⟩ := mem_otherSections_iff.mp hother
    refine ⟨h.not_reserved hsorted hrank, fun hloaded => ?_⟩
    obtain ⟨hw, hx⟩ := h.code hfst hloaded
    exact ⟨hw, hx, hclass, hstop sec hsec⟩
  obtain ⟨done, hdone, hin⟩ := CodeIn.run stop homagic
    ((codeSections cfg cmds part).zipIdx (beforeCode cfg cmds part).length) [] hcode (by simp)
    hpairwise (.inl ⟨rfl, hread⟩)
  refine ⟨done, fun osec hosec hloaded => ?_, hin⟩
  obtain ⟨k, hk⟩ := exists_mem_zipIdx hosec (beforeCode cfg cmds part).length
  exact ⟨k, hdone _ (.inr ⟨hk, hloaded⟩)⟩

-- All code of a partition but the PLT is in its first executable segment, without the PLT.
theorem DynamicObject.codeSegment (homagic : cfg.omagic = false) {code : OutputSection}
    (hcode : code ∈ sortedSections cfg cmds) (hclass : sortClass code = 0)
    (hloaded : Loaded part code) (hx : code.flags.SHF_EXECINSTR = true) :
    ∃ i e, CodeSegment part (sortedSections cfg cmds)
      (createPhdrs cfg part (sortedSections cfg cmds)) i e := by
  have hstop : ∀ sec ∈ (codeSections cfg cmds part).zipIdx (beforeCode cfg cmds part).length,
      some sec.2 ≠ relroEnd cfg part (sortedSections cfg cmds) := fun _ hsec => h.relroEnd_ne hsec
  unfold createPhdrs
  generalize relroEnd cfg part (sortedSections cfg cmds) = stop at hstop ⊢
  have hread := h.readPhase part homagic stop
  obtain ⟨done, hdone, hin⟩ := h.codeIn homagic stop _ hstop hread
  obtain ⟨k, hk⟩ := hdone code (h.mem_codeSections hcode hclass hloaded hx) hloaded
  obtain ⟨i, e, ⟨hsealed, hload⟩, hexec, hsecs, hnoPlt⟩ := hin.sealed hk
  rw [← List.foldl_append] at hsealed hload
  refine ⟨i, e, .of_sealed homagic (zipIdx_sortedSections cfg cmds part) hsealed hload hexec ?_
    hnoPlt ?_ (h.firstWrites part _ _)⟩
  · intro osec hosec hclass hloaded hx
    obtain ⟨k, hk⟩ := hdone osec (h.mem_codeSections hosec hclass hloaded hx) hloaded
    exact ⟨k, hsecs _ hk⟩
  · intro sec hsec
    rcases List.mem_append.mp hsec with hsec | hsec
    · exact (mem_otherSections_iff.mp
        (mem_beforeCode_iff.mp (List.fst_mem_of_mem_zipIdx hsec)).1).2
    · exact (mem_otherSections_iff.mp
        (mem_codeSections_iff.mp (List.fst_mem_of_mem_zipIdx hsec)).1).2

end Segment

end Platypus.Linker
