import Platypus.Linker.Addresses
import Platypus.Loader.LoadCmds
import Mathlib

namespace Platypus.Linker

open Loader (Phdr LoadCmd MitigStruct Object)

-- Where an object is linked to: the headers from `base` to `dot`, then its sections.
structure Image where
  base : Nat
  dot : Nat
  addrs : List Nat

namespace Image

variable (m : Image)

def addr (sec : OutputSection × Nat) : Nat := m.addrs[sec.2]?.getD 0

-- The address of `firstSec`; the headers come first where the segment holds them.
def p_vaddr (p : PhdrEntry) : Nat :=
  if p.headers then m.base else (p.secs.head?.map m.addr).getD 0

-- `lastSec->addr + lastSec->size`
def segmentEnd (p : PhdrEntry) : Nat :=
  (p.secs.getLast?.map fun sec => m.addr sec + sec.1.size).getD m.dot

def p_memsz (p : PhdrEntry) : Nat := m.segmentEnd p - m.p_vaddr p

def occupied (p : PhdrEntry) : Bool :=
  (p.headers || !p.secs.isEmpty) && m.segmentEnd p ≠ m.p_vaddr p

def removeEmptyPTLoad (phdrs : List PhdrEntry) : List PhdrEntry := phdrs.filter m.occupied

end Image

def PhdrFlags.toNat (flags : PhdrFlags) : Nat :=
  (if flags.PF_R then Loader.PF_R else 0) + (if flags.PF_W then Loader.PF_W else 0) +
    (if flags.PF_X then Loader.PF_X else 0)

-- The places of the segments in the file. A segment has no more bytes there than in memory.
structure FileLayout (m : Image) (phdrs : List PhdrEntry) where
  p_offset : PhdrEntry → Nat
  p_filesz : PhdrEntry → Nat
  filesz_le : ∀ p ∈ phdrs, p_filesz p ≤ m.p_memsz p

def setPhdrs (cfg : LayoutConfig) (m : Image) {phdrs : List PhdrEntry} (file : FileLayout m phdrs)
    (p : PhdrEntry) : Phdr where
  p_type := .PT_LOAD
  p_flags := p.p_flags.toNat
  p_offset := .ofNat 64 (file.p_offset p)
  p_vaddr := .ofNat 64 (m.p_vaddr p)
  p_filesz := .ofNat 64 (file.p_filesz p)
  p_memsz := .ofNat 64 (m.p_memsz p)
  p_align := .ofNat 64 (p.secs.foldl (fun align sec => max align sec.1.addralign) cfg.maxPageSize)

-- The segment that the loader takes for the code.

section Loader

variable {cfg : LayoutConfig} {m : Image} {phdrs : List PhdrEntry}

theorem exec_iff (flags : PhdrFlags) : 3 < Loader.protOf flags.toNat ↔ flags.PF_X = true := by
  rcases flags with ⟨r, w, x⟩
  cases r <;> cases w <;> cases x <;> decide

theorem findExecSize_append (pre post : List LoadCmd) (c : LoadCmd) (hpre : ∀ d ∈ pre, d.prot ≤ 3)
    (hc : 3 < c.prot) :
    Loader.findExecSize (pre ++ c :: post) =
      ⟨(c.mapend - c.mapstart).setWidth 32, c.mapstart⟩ := by
  induction pre with
  | nil => rw [List.nil_append, Loader.findExecSize, if_pos hc]
  | cons d pre ih =>
    have hd := Nat.not_lt_of_le (hpre d List.mem_cons_self)
    rw [List.cons_append, Loader.findExecSize, if_neg hd]
    exact ih fun d hd => hpre d (List.mem_cons_of_mem _ hd)

theorem findExecSize_mapalign (align : Loader.Word) (cs : List LoadCmd) :
    Loader.findExecSize (cs.map fun c => { c with mapalign := align }) = Loader.findExecSize cs := by
  induction cs with
  | nil => rfl
  | cons c cs ih => rw [List.map_cons, Loader.findExecSize, Loader.findExecSize, ih]

theorem scanPhdrs_loadcmds (s s' : Loader.Scan) (phdr : List Phdr)
    (h : Loader.scanPhdrs s phdr = .ok s') :
    s'.loadcmds = s.loadcmds ++ (phdr.filter (·.p_type = .PT_LOAD)).map Loader.loadCmdOf := by
  induction phdr generalizing s with
  | nil =>
    cases h
    simp
  | cons ph phdr ih =>
    rw [Loader.scanPhdrs] at h
    split at h
    · cases h
    · rename_i s₁ h₁
      rw [ih s₁ h]
      unfold Loader.scanPhdr at h₁
      split at h₁
      · rename_i htype
        cases h₁
        simp [htype]
      · rename_i htype
        split at h₁
        · cases h₁
        · cases h₁
          simp [htype]

-- The loader takes the first executable segment of the object.
theorem findExecSize_objectOf {fd : Int} {header : Loader.Ehdr} {type : Loader.ElfType}
    {phdr : List Phdr} {o : Object} (h : Loader.objectOf fd header type phdr = .ok o) :
    Loader.findExecSize o.loadcmds = Loader.findExecSize
      ((phdr.filter (·.p_type = .PT_LOAD)).map Loader.loadCmdOf) := by
  unfold Loader.objectOf at h
  split at h
  · cases h
  · rename_i s hs
    split at h
    · cases h
    · rename_i c cs hmap
      cases h
      rw [Object.loadcmds, ← hmap, findExecSize_mapalign, scanPhdrs_loadcmds {} s phdr hs]
      rfl

theorem findExecSize_setPhdrs (file : FileLayout m (m.removeEmptyPTLoad phdrs)) {i : Nat}
    {e : PhdrEntry} (he : phdrs[i]? = some e) (hexec : e.p_flags.PF_X = true)
    (hfirst : ∀ j < i, ∀ p, phdrs[j]? = some p → p.p_flags.PF_X = false)
    (hkept : m.occupied e = true) :
    Loader.findExecSize (((m.removeEmptyPTLoad phdrs).map (setPhdrs cfg m file)).map
        Loader.loadCmdOf) =
      ⟨((Loader.loadCmdOf (setPhdrs cfg m file e)).mapend -
          (Loader.loadCmdOf (setPhdrs cfg m file e)).mapstart).setWidth 32,
        (Loader.loadCmdOf (setPhdrs cfg m file e)).mapstart⟩ := by
  obtain ⟨hi, heq⟩ := List.getElem?_eq_some_iff.mp he
  have hsplit : m.removeEmptyPTLoad phdrs =
      (phdrs.take i).filter m.occupied ++ e :: (phdrs.drop (i + 1)).filter m.occupied := by
    rw [← List.filter_cons_of_pos hkept, ← heq, ← List.drop_eq_getElem_cons hi,
      ← List.filter_append, List.take_append_drop]
    rfl
  have hmap : ∀ f : PhdrEntry → LoadCmd, (m.removeEmptyPTLoad phdrs).map f =
      ((phdrs.take i).filter m.occupied).map f ++
        f e :: ((phdrs.drop (i + 1)).filter m.occupied).map f := by
    intro f
    rw [hsplit, List.map_append, List.map_cons]
  rw [List.map_map, hmap, findExecSize_append]
  · rfl
  · intro c hc
    obtain ⟨p, hp, rfl⟩ := List.mem_map.mp hc
    obtain ⟨j, hj⟩ := List.mem_iff_getElem?.mp (List.mem_filter.mp hp).1
    rw [List.getElem?_take] at hj
    split at hj
    · rename_i hji
      refine Nat.le_of_not_lt fun hprot => ?_
      have hp := (exec_iff p.p_flags).mp hprot
      rw [hfirst j hji p hj] at hp
      exact absurd hp Bool.false_ne_true
    · cases hj
  · exact (exec_iff e.p_flags).mpr hexec

-- The masked range ends with the last page of the segment.

theorem alignDown_toNat (x : Loader.Word) :
    (Loader.alignDown x Loader.dlPagesize).toNat = 2 ^ 12 * (x.toNat / 2 ^ 12) := by
  have hmask : -Loader.dlPagesize = BitVec.allOnes 64 <<< 12 := by decide
  rw [Loader.alignDown, hmask, Bits.toNat_and_high]

theorem alignUp_toNat (x : Loader.Word) (h : x.toNat + 0xfff < 2 ^ 64) :
    (Loader.alignUp x Loader.dlPagesize).toNat = alignTo x.toNat 0x1000 := by
  have hadd : (x + Loader.dlPagesize - 1#64).toNat = x.toNat + 0xfff := by
    have hx := x.isLt
    rw [BitVec.toNat_sub, BitVec.toNat_add, Loader.dlPagesize, BitVec.toNat_ofNat,
      BitVec.toNat_ofNat]
    omega
  rw [Loader.alignUp, alignDown_toNat, hadd, alignTo, Nat.mul_comm]
  rfl

theorem execRange_le (file : FileLayout m phdrs) {e : PhdrEntry} (he : e ∈ phdrs) {bound : Nat}
    (hvaddr : m.p_vaddr e ≤ m.segmentEnd e) (hend : alignTo (m.segmentEnd e) 0x1000 ≤ bound)
    (hbound : bound < 2 ^ 64) :
    (Loader.loadCmdOf (setPhdrs cfg m file e)).mapstart.toNat +
      (((Loader.loadCmdOf (setPhdrs cfg m file e)).mapend -
        (Loader.loadCmdOf (setPhdrs cfg m file e)).mapstart).setWidth 32).toNat ≤ bound := by
  have hfile := file.filesz_le e he
  have hpage := le_alignTo (m.segmentEnd e) (by decide : 0 < 0x1000)
  obtain ⟨c, hc⟩ := dvd_alignTo (m.segmentEnd e) 0x1000
  rw [Image.p_memsz] at hfile
  have hsum : (setPhdrs cfg m file e).p_vaddr.toNat = m.p_vaddr e ∧
      ((setPhdrs cfg m file e).p_vaddr + (setPhdrs cfg m file e).p_filesz).toNat =
        m.p_vaddr e + file.p_filesz e := by
    simp only [setPhdrs, BitVec.toNat_add, BitVec.toNat_ofNat]
    omega
  have hstart := alignDown_toNat (setPhdrs cfg m file e).p_vaddr
  have hstop := alignUp_toNat ((setPhdrs cfg m file e).p_vaddr + (setPhdrs cfg m file e).p_filesz)
    (by omega)
  rw [hsum.1] at hstart
  rw [hsum.2] at hstop
  have hle : alignTo (m.p_vaddr e + file.p_filesz e) 0x1000 ≤ alignTo (m.segmentEnd e) 0x1000 :=
    alignTo_mono _ (by omega)
  have hself := le_alignTo (m.p_vaddr e + file.p_filesz e) (by decide : 0 < 0x1000)
  rw [BitVec.toNat_setWidth, BitVec.toNat_sub]
  change (Loader.alignDown _ _).toNat + ((2 ^ 64 - (Loader.alignDown _ _).toNat +
    (Loader.alignUp _ _).toNat) % 2 ^ 64) % 2 ^ 32 ≤ bound
  rw [hstart, hstop]
  omega

end Loader

-- The addresses of the sections of the code segment.

def layOut (cfg : LayoutConfig) (parts : List (Fin 256)) (secs : List OutputSection)
    (base dot : Nat) : Image :=
  ⟨base, dot, assignAddresses cfg parts secs dot⟩

section Linked

variable {cfg : LayoutConfig} {parts : List (Fin 256)} {part : Fin 256} {secs : List OutputSection}
  {base dot : Nat} {sec : OutputSection × Nat}

theorem zipIdx_getElem? (h : sec ∈ secs.zipIdx) : secs.zipIdx[sec.2]? = some sec := by
  obtain ⟨i, hi⟩ := List.mem_iff_getElem?.mp h
  obtain ⟨osec, -, rfl⟩ := Option.map_eq_some_iff.mp (List.getElem?_zipIdx.symm.trans hi)
  simpa using hi

theorem link_addr (h : sec ∈ secs.zipIdx) :
    (assignFrom (addrExpr cfg parts secs) { dot := dot } secs.zipIdx)[sec.2]? =
      some ((layOut cfg parts secs base dot).addr sec) := by
  have hlt := (List.getElem?_eq_some_iff.mp (zipIdx_getElem? h)).1
  rw [← length_assignFrom (addrExpr cfg parts secs) { dot := dot }] at hlt
  rw [Image.addr, layOut, assignAddresses, List.getElem?_eq_getElem hlt, Option.getD_some]

variable (hpage : 0 < cfg.maxPageSize) (halign : ∀ osec ∈ secs, 0 < osec.addralign)

include hpage halign

theorem link_dot_le (hsec : sec ∈ secs.zipIdx) (hneeds : needsPtLoad sec.1 = true) :
    dot ≤ (layOut cfg parts secs base dot).addr sec :=
  dot_le_addr hpage (addrExpr_pageAligned cfg parts secs) secs.zipIdx
    (fun s hs => halign s.1 (List.fst_mem_of_mem_zipIdx hs)) { dot := dot } (zipIdx_getElem? hsec)
    hneeds (link_addr hsec)

theorem link_end_le {s : OutputSection × Nat} (hs : s ∈ secs.zipIdx)
    (hsNeeds : needsPtLoad s.1 = true) (hsec : sec ∈ secs.zipIdx)
    (hneeds : needsPtLoad sec.1 = true) (hlt : s.2 < sec.2) :
    (layOut cfg parts secs base dot).addr s + s.1.size ≤ (layOut cfg parts secs base dot).addr sec :=
  end_le_addr hpage (addrExpr_pageAligned cfg parts secs)
    (fun s hs => halign s.1 (List.fst_mem_of_mem_zipIdx hs)) (zipIdx_getElem? hs) hsNeeds
    (zipIdx_getElem? hsec) hneeds (link_addr hs) (link_addr hsec) hlt

variable {phdrs : List PhdrEntry} {i : Nat} {e : PhdrEntry} (h : CodeSegment part secs phdrs i e)

include h

theorem CodeSegment.vaddr_le (hdot : base ≤ dot) (hsec : sec ∈ e.secs) :
    (layOut cfg parts secs base dot).p_vaddr e ≤ (layOut cfg parts secs base dot).addr sec := by
  obtain ⟨hmem, hneeds⟩ := h.mem sec hsec
  unfold Image.p_vaddr
  split
  · exact hdot.trans (link_dot_le hpage halign hmem hneeds)
  · have horder := h.order
    cases hsecs : e.secs with
    | nil =>
      rw [hsecs] at hsec
      exact absurd hsec List.not_mem_nil
    | cons first rest =>
      rw [List.head?_cons, Option.map_some, Option.getD_some]
      rw [hsecs] at hsec horder
      rcases List.mem_cons.mp hsec with rfl | hrest
      · exact Nat.le_refl _
      · obtain ⟨hfirst, hfirstNeeds⟩ := h.mem first (hsecs ▸ List.mem_cons_self)
        exact (Nat.le_add_right _ _).trans (link_end_le hpage halign hfirst hfirstNeeds hmem hneeds
          ((List.pairwise_cons.mp horder).1 sec hrest))

theorem CodeSegment.end_le (hsec : sec ∈ e.secs) :
    (layOut cfg parts secs base dot).addr sec + sec.1.size ≤
      (layOut cfg parts secs base dot).segmentEnd e := by
  obtain ⟨hmem, hneeds⟩ := h.mem sec hsec
  obtain ⟨pre, last, hsecs⟩ : ∃ pre last, e.secs = pre ++ [last] :=
    ⟨_, _, (List.dropLast_append_getLast (List.ne_nil_of_mem hsec)).symm⟩
  have horder := h.order
  obtain ⟨hlast, hlastNeeds⟩ := h.mem last (hsecs ▸ List.mem_append_right _ List.mem_cons_self)
  rw [Image.segmentEnd, hsecs, List.getLast?_concat, Option.map_some, Option.getD_some]
  rw [hsecs] at hsec horder
  rcases List.mem_append.mp hsec with hpre | hsec
  · have hlt := (List.pairwise_append.mp horder).2.2 sec hpre last List.mem_cons_self
    exact (link_end_le hpage halign hmem hneeds hlast hlastNeeds hlt).trans (Nat.le_add_right _ _)
  · rw [List.mem_singleton.mp hsec]

-- A segment with code in it is not empty.
theorem CodeSegment.occupied (hdot : base ≤ dot) (hsec : sec ∈ e.secs) (hsize : 0 < sec.1.size) :
    (layOut cfg parts secs base dot).occupied e = true := by
  have hstart : (layOut cfg parts secs base dot).p_vaddr e ≤ _ := h.vaddr_le hpage halign hdot hsec
  have hstop : (layOut cfg parts secs base dot).addr sec + sec.1.size ≤ _ := h.end_le hpage halign hsec
  have hne : e.secs.isEmpty = false := by
    rw [List.isEmpty_eq_false_iff]
    exact List.ne_nil_of_mem hsec
  rw [Image.occupied, hne, Bool.not_false, Bool.or_true, Bool.true_and]
  exact decide_eq_true (by omega)

-- The PLT starts on a page after the segment.
theorem CodeSegment.page_le (hphdrs : phdrs = createPhdrs cfg part secs) (hpart : part ∈ parts)
    {s : OutputSection × Nat} (hs : s ∈ e.secs) (hsec : sec ∈ secs.zipIdx)
    (hclass : sortClass sec.1 ≠ 0) (hloaded : Loaded part sec.1) :
    alignTo ((layOut cfg parts secs base dot).segmentEnd e) cfg.maxPageSize ≤
      (layOut cfg parts secs base dot).addr sec := by
  obtain ⟨first, hfirst, ⟨e', he', hheaders, hhead⟩, hfirstLoaded, hlt, hle⟩ :=
    h.next sec hsec hclass hloaded
  obtain ⟨pre, last, hsecs⟩ : ∃ pre last, e.secs = pre ++ [last] :=
    ⟨_, _, (List.dropLast_append_getLast (List.ne_nil_of_mem hs)).symm⟩
  have hlast : last ∈ e.secs := hsecs ▸ List.mem_append_right _ List.mem_cons_self
  rw [Image.segmentEnd, hsecs, List.getLast?_concat, Option.map_some, Option.getD_some]
  rw [hphdrs] at he'
  exact page_between hpage (addrExpr_pageAligned cfg parts secs)
    (fun s hs => halign s.1 (List.fst_mem_of_mem_zipIdx hs)) (zipIdx_getElem? (h.mem last hlast).1)
    (h.mem last hlast).2 (zipIdx_getElem? hsec) hloaded.1 (link_addr (h.mem last hlast).1)
    (link_addr hsec) (hlt last hlast) hle (zipIdx_getElem? hfirst) hfirstLoaded.1
    (addrExpr_isSome hpart he' hheaders hhead)

end Linked

-- The options and sections with which the range of the code is one of whole pages: no `-n` or `-N`,
-- and a segment for all code.
structure PagedCode (cfg : LayoutConfig) (cmds : List SectionCommand) : Prop where
  omagic : cfg.omagic = false
  page : 0 < cfg.maxPageSize ∧ 0x1000 ∣ cfg.maxPageSize
  notTbss : ∀ osec ∈ commandSections cmds, osec.flags.SHF_ALLOC = true →
    osec.flags.SHF_EXECINSTR = true → needsPtLoad osec = true

-- The program headers of a partition as the loader finds them.
structure LinkedObject (cfg : LayoutConfig) (part : Fin 256) (secs : List OutputSection) where
  parts : List (Fin 256)
  mem : part ∈ parts
  base : Nat
  dot : Nat
  le : base ≤ dot
  file : FileLayout (layOut cfg parts secs base dot)
    ((layOut cfg parts secs base dot).removeEmptyPTLoad (createPhdrs cfg part secs))
  phdr : List Phdr
  loads : phdr.filter (·.p_type = .PT_LOAD) =
    ((layOut cfg parts secs base dot).removeEmptyPTLoad (createPhdrs cfg part secs)).map
      (setPhdrs cfg (layOut cfg parts secs base dot) file)

def LinkedObject.image {cfg : LayoutConfig} {part : Fin 256} {secs : List OutputSection}
    (l : LinkedObject cfg part secs) : Image :=
  layOut cfg l.parts secs l.base l.dot

-- The loader masks to a range that ends before the PLT.
theorem CodeSegment.range_le {cfg : LayoutConfig} {part : Fin 256} {secs : List OutputSection}
    {i : Nat} {e : PhdrEntry} (h : CodeSegment part secs (createPhdrs cfg part secs) i e)
    (hpage : 0 < cfg.maxPageSize) (hdvd : 0x1000 ∣ cfg.maxPageSize)
    (halign : ∀ osec ∈ secs, 0 < osec.addralign) {code : OutputSection × Nat} (hcode : code ∈ e.secs)
    (hsize : 0 < code.1.size) (l : LinkedObject cfg part secs) {fd : Int} {header : Loader.Ehdr}
    {type : Loader.ElfType} {o : Object} (ho : Loader.objectOf fd header type l.phdr = .ok o)
    {sec : OutputSection × Nat} (hsec : sec ∈ secs.zipIdx) (hclass : sortClass sec.1 ≠ 0)
    (hloaded : Loaded part sec.1) (hlt : l.image.addr sec < 2 ^ 64) :
    (Loader.findExecSize o.loadcmds).mapstart.toNat + (Loader.findExecSize o.loadcmds).size.toNat ≤
      l.image.addr sec := by
  have hkept : l.image.occupied e = true := h.occupied hpage halign l.le hcode hsize
  have hstart : l.image.p_vaddr e ≤ l.image.addr code := h.vaddr_le hpage halign l.le hcode
  have hstop : l.image.addr code + code.1.size ≤ l.image.segmentEnd e := h.end_le hpage halign hcode
  have hplt : alignTo (l.image.segmentEnd e) cfg.maxPageSize ≤ l.image.addr sec :=
    h.page_le hpage halign rfl l.mem hcode hsec hclass hloaded
  have hmem : e ∈ l.image.removeEmptyPTLoad (createPhdrs cfg part secs) :=
    List.mem_filter.mpr ⟨List.mem_of_getElem? h.entry, hkept⟩
  have hpages : alignTo (l.image.segmentEnd e) 0x1000 ≤ alignTo (l.image.segmentEnd e) cfg.maxPageSize :=
    alignTo_le (hdvd.trans (dvd_alignTo _ _)) (le_alignTo _ hpage)
  rw [findExecSize_objectOf ho, l.loads,
    findExecSize_setPhdrs l.file h.entry h.exec h.first hkept]
  exact execRange_le l.file hmem (hstart.trans ((Nat.le_add_right _ _).trans hstop))
    (hpages.trans hplt) hlt

theorem plt_after_code (cfg : LayoutConfig) (cmds : List SectionCommand) (part : Fin 256)
    (h : DynamicObject cfg cmds) :
    StrictWeakOrdering (fun a b => compareSections cfg a b = true) ∧
    (∃ others, (∀ osec ∈ others, sortClass osec = 0) ∧
      outputSections cfg cmds = others ++
        ((outputSections cfg cmds).filter (·.name = ".plt.sec".toList) ++
          (outputSections cfg cmds).filter (·.name = ".plt".toList))) ∧
    (PagedCode cfg cmds →
      (∃ osec ∈ outputSections cfg cmds, sortClass osec = 0 ∧ osec.partition = part ∧
        osec.flags.SHF_ALLOC = true ∧ osec.flags.SHF_EXECINSTR = true ∧ 0 < osec.size) →
      ∃ (i : Nat) (e : PhdrEntry), (createPhdrs cfg part (outputSections cfg cmds))[i]? = some e ∧
        e.p_flags.PF_X = true ∧
        (∀ j < i, ∀ p : PhdrEntry, (createPhdrs cfg part (outputSections cfg cmds))[j]? = some p →
          p.p_flags.PF_X = false) ∧
        (∀ osec ∈ outputSections cfg cmds, sortClass osec = 0 → osec.partition = part →
          osec.flags.SHF_ALLOC = true → osec.flags.SHF_EXECINSTR = true →
          ∃ k, (osec, k) ∈ e.secs) ∧
        (∀ sec ∈ e.secs, sec.1.name ≠ ".plt".toList ∧ sec.1.name ≠ ".plt.sec".toList) ∧
        ∀ (l : LinkedObject cfg part (outputSections cfg cmds)) (fd : Int) (header : Loader.Ehdr)
          (type : Loader.ElfType) (o : Object), Loader.objectOf fd header type l.phdr = .ok o →
          ∀ sec ∈ (outputSections cfg cmds).zipIdx, sortClass sec.1 ≠ 0 → Loaded part sec.1 →
            l.image.addr sec < 2 ^ 64 →
            (Loader.findExecSize o.loadcmds).mapstart.toNat +
              (Loader.findExecSize o.loadcmds).size.toNat ≤ l.image.addr sec) := by
  rw [outputSections_eq]
  refine ⟨compareSections_strictWeakOrdering cfg, ⟨otherSections cfg cmds, ?_, ?_⟩, ?_⟩
  · exact fun osec hosec => (mem_otherSections_iff.mp hosec).2
  · rw [← pltSections_eq, sortedSections_eq]
  rintro hpaged ⟨code, hcode, hclass, hpart, halloc, hx, hsize⟩
  have hranked : ∀ osec ∈ sortedSections cfg cmds, 0 < osec.addralign ∧
      (osec.flags.SHF_ALLOC = true → osec.flags.SHF_EXECINSTR = true → needsPtLoad osec = true) := by
    intro osec hosec
    obtain ⟨osec, hmem, rfl⟩ := List.mem_map.mp ((sortedSections_perm cfg cmds).mem_iff.mp hosec)
    exact ⟨h.align osec hmem, hpaged.notTbss osec hmem⟩
  obtain ⟨i, e, hsegment⟩ := h.codeSegment hpaged.omagic hcode hclass
    ⟨(hranked code hcode).2 halloc hx, hpart⟩ hx
  obtain ⟨k, hk⟩ := hsegment.code code hcode hclass ⟨(hranked code hcode).2 halloc hx, hpart⟩ hx
  refine ⟨i, e, hsegment.entry, hsegment.exec, hsegment.first, ?_, ?_, ?_⟩
  · intro osec hosec hclass hpart halloc hx
    exact hsegment.code osec hosec hclass ⟨(hranked osec hosec).2 halloc hx, hpart⟩ hx
  · intro sec hsec
    have hzero := hsegment.noPlt sec hsec
    unfold sortClass at hzero
    split_ifs at hzero with hplt hpltSec
    exact ⟨hplt, hpltSec⟩
  · intro l fd header type o ho sec hsec hclass hloaded hlt
    exact hsegment.range_le hpaged.page.1 hpaged.page.2 (fun osec hosec => (hranked osec hosec).1) hk
      hsize l ho hsec hclass hloaded hlt

def codeSection (name : String) (size : Nat) : OutputSection :=
  { name := name.toList, flags := { SHF_ALLOC := true, SHF_EXECINSTR := true }, addralign := 16,
    size := size }

def gotPltSection : OutputSection :=
  { name := ".got.plt".toList, flags := { SHF_ALLOC := true, SHF_WRITE := true }, addralign := 8,
    size := 40, holdsGotPlt := true }

def sharedCmds : List SectionCommand :=
  [codeSection ".plt" 48, codeSection ".plt.sec" 32, codeSection ".text" 100,
    codeSection ".fakeplt" 32, gotPltSection].map .output

def linkedObject (cfg : LayoutConfig) (cmds : List SectionCommand) :
    LinkedObject cfg 1 (outputSections cfg cmds) where
  parts := [1]
  mem := by decide
  base := 0
  dot := 0x190
  le := by decide
  file := ⟨(layOut cfg [1] (outputSections cfg cmds) 0 0x190).p_vaddr, _, fun _ _ => Nat.le_refl _⟩
  phdr := ((layOut cfg [1] (outputSections cfg cmds) 0 0x190).removeEmptyPTLoad
    (createPhdrs cfg 1 (outputSections cfg cmds))).map (setPhdrs cfg _ _)
  loads := by
    rw [List.filter_eq_self]
    intro ph hph
    obtain ⟨p, -, rfl⟩ := List.mem_map.mp hph
    rfl

theorem plt_after_code_shared :
    ∃ o, Loader.objectOf 3 ⟨0x40#64, 4#64⟩ .ET_DYN (linkedObject {} sharedCmds).phdr = .ok o ∧
      (Loader.findExecSize o.loadcmds).mapstart.toNat +
        (Loader.findExecSize o.loadcmds).size.toNat ≤
        (linkedObject {} sharedCmds).image.addr (setRank {} (codeSection ".plt" 48), 4) := by
  obtain ⟨-, -, hcode⟩ := plt_after_code {} sharedCmds 1
    ⟨rfl, by decide, by decide, by decide, by decide,
      by decide⟩
  obtain ⟨i, e, -, -, -, -, -, hrange⟩ := hcode ⟨rfl, by decide, by decide⟩
    ⟨setRank {} (codeSection ".text" 100), by decide⟩
  have hok : (Loader.objectOf 3 ⟨0x40#64, 4#64⟩ .ET_DYN (linkedObject {} sharedCmds).phdr).isOk =
      true := by
    decide
  cases ho : Loader.objectOf 3 ⟨0x40#64, 4#64⟩ .ET_DYN (linkedObject {} sharedCmds).phdr with
  | error err =>
    rw [ho] at hok
    exact absurd hok Bool.false_ne_true
  | ok o =>
    exact ⟨o, rfl, hrange (linkedObject {} sharedCmds) 3 ⟨0x40#64, 4#64⟩ .ET_DYN o ho _
      (by decide) (by decide) ⟨by decide, rfl⟩ (by decide)⟩

-- What such an object is like without one of the conditions.

def firstExec (cfg : LayoutConfig) (cmds : List SectionCommand) : Option PhdrEntry :=
  (createPhdrs cfg 1 (outputSections cfg cmds)).find? (·.p_flags.PF_X)

def pltInFirstExec (cfg : LayoutConfig) (cmds : List SectionCommand) : Bool :=
  (firstExec cfg cmds).any fun p => p.secs.any fun sec => sec.1.name = ".plt".toList

def pltInRange (cfg : LayoutConfig) (cmds : List SectionCommand) : Bool :=
  (Loader.objectOf 3 ⟨0x40#64, 4#64⟩ .ET_DYN (linkedObject cfg cmds).phdr).toOption.any fun o =>
    (outputSections cfg cmds).zipIdx.any fun sec =>
      sec.1.name = ".plt".toList &&
      (Loader.findExecSize o.loadcmds).mapstart.toNat ≤ (linkedObject cfg cmds).image.addr sec &&
      (linkedObject cfg cmds).image.addr sec < (Loader.findExecSize o.loadcmds).mapstart.toNat +
        (Loader.findExecSize o.loadcmds).size.toNat

def omagicConfig : LayoutConfig := { omagic := true, zRelro := false, maxPageSize := 1 }

def nmagicConfig : LayoutConfig := { nmagic := true, maxPageSize := 1 }

def pltOnlyCmds : List SectionCommand := [codeSection ".plt" 48, gotPltSection].map .output

def emptyTextCmds : List SectionCommand :=
  [codeSection ".plt" 48, codeSection ".text" 0, gotPltSection].map .output

def tbssSection : OutputSection :=
  { codeSection ".tcode" 8 with
    type := .SHT_NOBITS
    flags := { SHF_ALLOC := true, SHF_EXECINSTR := true, SHF_TLS := true } }

def tbssCmds : List SectionCommand :=
  [codeSection ".plt" 48, codeSection ".text" 100, tbssSection, gotPltSection].map .output

theorem plt_in_code_range :
    (DynamicObject omagicConfig sharedCmds ∧ pltInFirstExec omagicConfig sharedCmds = true) ∧
    (DynamicObject {} pltOnlyCmds ∧ pltInFirstExec {} pltOnlyCmds = true) ∧
    (DynamicObject {} emptyTextCmds ∧ pltInRange {} emptyTextCmds = true) ∧
    (DynamicObject nmagicConfig sharedCmds ∧ pltInRange nmagicConfig sharedCmds = true) ∧
    (DynamicObject {} tbssCmds ∧ setRank {} tbssSection ∈ outputSections {} tbssCmds ∧
      ∀ p ∈ createPhdrs {} 1 (outputSections {} tbssCmds), ∀ sec ∈ p.secs,
        sec.1.name ≠ ".tcode".toList) := by
  refine ⟨⟨⟨rfl, ?_, ?_, ?_, ?_, ?_⟩, ?_⟩, ⟨⟨rfl, ?_, ?_, ?_, ?_, ?_⟩, ?_⟩,
    ⟨⟨rfl, ?_, ?_, ?_, ?_, ?_⟩, ?_⟩, ⟨⟨rfl, ?_, ?_, ?_, ?_, ?_⟩, ?_⟩,
    ⟨⟨rfl, ?_, ?_, ?_, ?_, ?_⟩, ?_, ?_⟩⟩ <;> decide

end Platypus.Linker
