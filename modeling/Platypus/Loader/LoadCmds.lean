import Platypus.Loader.MapSegments

namespace Platypus.Loader

inductive SegmentType
  | PT_LOAD
  | other
  deriving DecidableEq, Repr

-- The fields of `ElfW(Phdr)` that the scan for load commands reads.
structure Phdr where
  p_type : SegmentType
  p_flags : Nat
  p_offset : Word
  p_vaddr : Word
  p_filesz : Word
  p_memsz : Word
  p_align : Word
  deriving DecidableEq, Repr

def PF_X : Nat := 1
def PF_W : Nat := 2
def PF_R : Nat := 4

def protOf (p_flags : Nat) : Nat :=
  (if p_flags &&& PF_R = 0 then 0 else 1) + (if p_flags &&& PF_W = 0 then 0 else 2) +
    (if p_flags &&& PF_X = 0 then 0 else 4)

def powerof2 (x : Word) : Bool := (x - 1#64) &&& x = 0#64

inductive ScanError
  | notPageAligned
  | noLoadable
  deriving DecidableEq, Repr

structure Scan where
  loadcmds : List LoadCmd := []
  has_holes : Bool := false
  p_align_max : Word := 0#64
  deriving DecidableEq, Repr

def loadCmdOf (ph : Phdr) : LoadCmd where
  mapstart := alignDown ph.p_vaddr dlPagesize
  mapend := alignUp (ph.p_vaddr + ph.p_filesz) dlPagesize
  dataend := ph.p_vaddr + ph.p_filesz
  allocend := ph.p_vaddr + ph.p_memsz
  mapalign := 0#64
  mapoff := alignDown ph.p_offset dlPagesize
  prot := protOf ph.p_flags

-- One round of the program header loop of `_dl_map_object_from_fd`. Only the `PT_LOAD`
-- case feeds the mapping code.
def scanPhdr (s : Scan) (ph : Phdr) : Except ScanError Scan :=
  match ph.p_type with
  | .other => .ok s
  | .PT_LOAD =>
    if (ph.p_vaddr - ph.p_offset) &&& (dlPagesize - 1#64) ≠ 0#64 then
      .error .notPageAligned
    else
      let c := loadCmdOf ph
      .ok {
        loadcmds := s.loadcmds ++ [c]
        has_holes := s.has_holes ||
          (s.loadcmds.getLast?.any fun previous => previous.mapend ≠ c.mapstart)
        p_align_max :=
          if powerof2 ph.p_align ∧ s.p_align_max < ph.p_align then ph.p_align
          else s.p_align_max }

def scanPhdrs (s : Scan) : List Phdr → Except ScanError Scan
  | [] => .ok s
  | ph :: phs =>
    match scanPhdr s ph with
    | .error e => .error e
    | .ok s => scanPhdrs s phs

-- The object that `_dl_map_object_from_fd` hands to `_dl_map_segments`: all segments get
-- the largest alignment, and the length runs from the first start to the last end.
def objectOf (fd : Int) (header : Ehdr) (type : ElfType) (phdr : List Phdr) :
    Except ScanError Object :=
  match scanPhdrs {} phdr with
  | .error e => .error e
  | .ok s =>
    match s.loadcmds.map fun c => { c with mapalign := s.p_align_max } with
    | [] => .error .noLoadable
    | c :: cs =>
      .ok {
        fd := fd
        header := header
        type := type
        c := c
        cs := cs
        maplength := ((c :: cs).getLast (List.cons_ne_nil _ _)).allocend - c.mapstart
        has_holes := s.has_holes }

-- A segment as the mapping code may rely on it: page-aligned at both ends.
def Paged (c : LoadCmd) : Prop := 2 ^ 12 ∣ c.mapstart.toNat ∧ 2 ^ 12 ∣ c.mapend.toNat

theorem pages_alignDown (base : Word) : 2 ^ 12 ∣ (alignDown base dlPagesize).toNat := by
  have hmask : -dlPagesize = BitVec.allOnes 64 <<< 12 := by decide
  rw [alignDown, hmask, Bits.toNat_and_high]
  exact Dvd.intro _ rfl

theorem loadCmdOf_paged (ph : Phdr) : Paged (loadCmdOf ph) :=
  ⟨pages_alignDown _, pages_alignDown _⟩

theorem scanPhdr_paged (s s' : Scan) (ph : Phdr) (hs : ∀ c ∈ s.loadcmds, Paged c)
    (h : scanPhdr s ph = .ok s') : ∀ c ∈ s'.loadcmds, Paged c := by
  unfold scanPhdr at h
  split at h
  · cases h
    exact hs
  · split at h
    · cases h
    · cases h
      intro c hc
      rcases List.mem_append.mp hc with hc | hc
      · exact hs c hc
      · rw [List.mem_singleton.mp hc]
        exact loadCmdOf_paged ph

-- What one header keeps, the loop over the headers keeps.
theorem scanPhdrs_keeps {P : Scan → Prop} (hstep : ∀ s s' ph, P s → scanPhdr s ph = .ok s' → P s')
    {s s' : Scan} {phs : List Phdr} (hs : P s) (h : scanPhdrs s phs = .ok s') : P s' := by
  induction phs generalizing s with
  | nil =>
    cases h
    exact hs
  | cons ph phs ih =>
    rw [scanPhdrs] at h
    split at h
    · cases h
    · rename_i s₁ h₁
      exact ih (hstep s s₁ ph hs h₁) h

theorem scanPhdrs_paged (s s' : Scan) (phs : List Phdr) (hs : ∀ c ∈ s.loadcmds, Paged c)
    (h : scanPhdrs s phs = .ok s') : ∀ c ∈ s'.loadcmds, Paged c :=
  scanPhdrs_keeps scanPhdr_paged hs h

-- Every object that reaches the mapping code has segments of whole pages.
theorem objectOf_paged (fd : Int) (header : Ehdr) (type : ElfType) (phdr : List Phdr) (o : Object)
    (h : objectOf fd header type phdr = .ok o) : ∀ c ∈ o.loadcmds, Paged c := by
  unfold objectOf at h
  split at h
  · cases h
  · rename_i s hs
    have hpaged := scanPhdrs_paged {} s phdr (by simp) hs
    split at h
    · cases h
    · rename_i c cs hmap
      cases h
      intro d hd
      rw [Object.loadcmds, ← hmap] at hd
      obtain ⟨d', hd', rfl⟩ := List.mem_map.mp hd
      exact hpaged d' hd'

-- The difference of two page-aligned words is a whole number of pages, also when it wraps.
theorem Paged.size (c : LoadCmd) (hc : Paged c) : 2 ^ 12 ∣ (c.mapend - c.mapstart).toNat := by
  obtain ⟨⟨a, ha⟩, ⟨b, hb⟩⟩ := hc
  have := c.mapstart.isLt
  have := c.mapend.isLt
  rw [BitVec.toNat_sub]
  omega

end Platypus.Loader
