import Platypus.Loader.Reservation

namespace Platypus.Loader

inductive MainType
  | PT_PHDR
  | PT_LOAD
  | other
  deriving DecidableEq, Repr

-- The fields of a program header of the main program that the start-up code reads.
structure MainPhdr where
  p_type : MainType
  p_flags : Nat
  p_vaddr : Word
  p_memsz : Word
  deriving DecidableEq, Repr

-- The local variables of the loop over the program headers.
structure MainScan where
  init_addr : Word
  l_map_start : Word := BitVec.allOnes 64
  l_map_end : Word := 0#64
  found_exec : Bool := false
  exec_range : MitigStruct := ⟨0#32, 0#64⟩
  deriving DecidableEq, Repr

def pageDown (x : Word) : Word := x &&& ~~~(dlPagesize - 1#64)

def scanMain (phdr : Word) (s : MainScan) (ph : MainPhdr) : MainScan :=
  match ph.p_type with
  | .PT_PHDR => { s with init_addr := phdr - ph.p_vaddr }
  | .PT_LOAD =>
    let mapstart := s.init_addr + pageDown ph.p_vaddr
    let allocend := s.init_addr + ph.p_vaddr + ph.p_memsz
    let first := !s.found_exec && ph.p_flags &&& PF_X ≠ 0
    { s with
      l_map_start := if mapstart < s.l_map_start then mapstart else s.l_map_start
      l_map_end := if s.l_map_end < allocend then allocend else s.l_map_end
      found_exec := s.found_exec || first
      exec_range := if first then ⟨(allocend - mapstart).setWidth 32, mapstart⟩ else s.exec_range }
  | .other => s

-- The size of the code, in whole pages and always with a page to spare.
def execPages (size : BitVec 32) : BitVec 32 := size + 0x1000#32 - size % 0x1000#32

-- What the start-up code asks of the kernel and hands on to `dl_main`.
structure MainArgs where
  phdr : Word
  user_entry : Word
  exec_start : Word
  exec_end : Word
  new_addr : Word
  mprotect : List (Word × Word × Nat)
  munmap : Word × Word
  deriving DecidableEq, Repr

def mainWindow (s : MainScan) : Word × Word :=
  let hmm := findAddr (s.exec_range.mapstart - 0x10000000#64)
    ((execPages s.exec_range.size).setWidth 64)
  let exec_end := (execPages s.exec_range.size).setWidth 64 + hmm - 1#64
  (commonPrefixLen hmm exec_end, exec_end)

-- The address that the image is asked to be mapped at.
def preferred (s : MainScan) : Word :=
  findAddr (s.exec_range.mapstart - 0x10000000#64) ((execPages s.exec_range.size).setWidth 64) -
    (s.exec_range.mapstart - s.init_addr)

def protectSegment (new_addr : Word) (ph : MainPhdr) : Word × Word × Nat :=
  let seg_size := ph.p_memsz + ph.p_vaddr % 0x1000#64
  (new_addr + ph.p_vaddr - ph.p_vaddr % 0x1000#64, seg_size + 0x1000#64 - seg_size % 0x1000#64,
    protOf ph.p_flags)

-- `_dl_sysdep_parse_arguments` for a program that the kernel has started through the loader. The
-- variable `init_addr` has no value before `PT_PHDR`; the copy to a failed mapping faults.
def parseArguments (mmap : Word → Word → Word) (phdr user_entry init_addr : Word)
    (table : List MainPhdr) : Option MainArgs :=
  let s := table.foldl (scanMain phdr) { init_addr := init_addr }
  let new_addr := mmap (preferred s) (s.l_map_end - s.l_map_start)
  if new_addr = MAP_FAILED then none
  else some {
    phdr := phdr - s.init_addr + new_addr
    user_entry := user_entry - s.init_addr + new_addr
    exec_start := (mainWindow s).1
    exec_end := (mainWindow s).2
    new_addr := new_addr
    mprotect := (table.filter (·.p_type = .PT_LOAD)).map (protectSegment new_addr)
    munmap := (s.init_addr, s.l_map_end) }

def taskSize : Nat := 2 ^ 47 - 0x1000

def MainPhdr.isLoad (ph : MainPhdr) : Bool := ph.p_type = .PT_LOAD

def MainPhdr.isExec (ph : MainPhdr) : Bool := ph.isLoad && ph.p_flags &&& PF_X ≠ 0

-- A table of a position-independent program that the kernel has mapped at `base`: the headers
-- come first, and the segments are in user space.
structure MainTable (phdr base : Word) (table : List MainPhdr) : Prop where
  first : ∃ pre ph rest, table = pre ++ ph :: rest ∧ ph.p_type = .PT_PHDR ∧
    phdr - ph.p_vaddr = base ∧ (∀ q ∈ pre, q.p_type = .other) ∧ ∀ q ∈ rest, q.p_type ≠ .PT_PHDR
  page : 0x1000 ∣ base.toNat
  mapped : ∀ ph ∈ table, ph.isLoad = true →
    base.toNat + ph.p_vaddr.toNat + ph.p_memsz.toNat ≤ taskSize

-- The pages of a segment, as the link sees them.
def MainPhdr.lo (ph : MainPhdr) : Nat := ph.p_vaddr.toNat / 0x1000 * 0x1000

def MainPhdr.hi (ph : MainPhdr) : Nat := ph.p_vaddr.toNat + ph.p_memsz.toNat

-- What the loop has found after the headers `done`.
structure Scanned (base : Word) (done : List MainPhdr) (s : MainScan) : Prop where
  init_addr : s.init_addr = base
  start_le : ∀ ph ∈ done, ph.isLoad = true → s.l_map_start.toNat ≤ base.toNat + ph.lo
  le_end : ∀ ph ∈ done, ph.isLoad = true → base.toNat + ph.hi ≤ s.l_map_end.toNat
  start_mem : s.l_map_start = BitVec.allOnes 64 ∨
    ∃ ph ∈ done, ph.isLoad = true ∧ s.l_map_start.toNat = base.toNat + ph.lo
  end_mem : s.l_map_end = 0#64 ∨
    ∃ ph ∈ done, ph.isLoad = true ∧ s.l_map_end.toNat = base.toNat + ph.hi
  exec : (s.found_exec = false ∧ done.find? MainPhdr.isExec = none) ∨
    ∃ ph, s.found_exec = true ∧ done.find? MainPhdr.isExec = some ph ∧
      s.exec_range.mapstart.toNat = base.toNat + ph.lo ∧
      s.exec_range.size = BitVec.ofNat 32 (ph.hi - ph.lo)

theorem pageDown_toNat (x : Word) : (pageDown x).toNat = x.toNat / 0x1000 * 0x1000 := by
  have hmask : ~~~(dlPagesize - 1#64) = BitVec.allOnes 64 <<< 12 := by decide
  rw [pageDown, hmask, Bits.toNat_and_high, Nat.mul_comm]
  rfl

section Scan

variable {phdr base : Word} {done : List MainPhdr} {s : MainScan} {ph : MainPhdr}

-- Where the segment is in memory, in numbers.
theorem segment_toNat (hmapped : base.toNat + ph.p_vaddr.toNat + ph.p_memsz.toNat ≤ taskSize) :
    (base + pageDown ph.p_vaddr).toNat = base.toNat + ph.lo ∧
      (base + ph.p_vaddr + ph.p_memsz).toNat = base.toNat + ph.hi ∧ ph.lo ≤ ph.hi := by
  unfold taskSize at hmapped
  unfold MainPhdr.lo MainPhdr.hi
  refine ⟨?_, ?_, ?_⟩
  · rw [BitVec.toNat_add, pageDown_toNat]
    omega
  · rw [BitVec.toNat_add, BitVec.toNat_add]
    omega
  · omega

theorem Scanned.start (base : Word) : Scanned base [] { init_addr := base } :=
  ⟨rfl, by simp, by simp, .inl rfl, .inl rfl, .inl ⟨rfl, rfl⟩⟩

theorem Scanned.skip (h : Scanned base done s) (hload : ph.isLoad = false) :
    Scanned base (done ++ [ph]) s := by
  have hexec : ph.isExec = false := by simp [MainPhdr.isExec, hload]
  have hmem : ∀ q ∈ done ++ [ph], q.isLoad = true → q ∈ done := by
    intro q hq hq'
    rcases List.mem_append.mp hq with hq | hq
    · exact hq
    · rw [List.mem_singleton.mp hq, hload] at hq'
      exact absurd hq' Bool.false_ne_true
  have hfind : (done ++ [ph]).find? MainPhdr.isExec = done.find? MainPhdr.isExec := by
    simp [List.find?_append, hexec]
  constructor
  · exact h.init_addr
  · exact fun q hq hq' => h.start_le q (hmem q hq hq') hq'
  · exact fun q hq hq' => h.le_end q (hmem q hq hq') hq'
  · exact h.start_mem.imp_right fun ⟨q, hq, hrest⟩ => ⟨q, List.mem_append_left _ hq, hrest⟩
  · exact h.end_mem.imp_right fun ⟨q, hq, hrest⟩ => ⟨q, List.mem_append_left _ hq, hrest⟩
  · rw [hfind]
    exact h.exec

theorem ite_lt_toNat_min (x y : Word) : (if x < y then x else y).toNat = min x.toNat y.toNat := by
  by_cases hlt : x < y
  · rw [if_pos hlt, min_eq_left (Nat.le_of_lt (BitVec.lt_def.mp hlt))]
  · rw [if_neg hlt, min_eq_right (BitVec.le_def.mp (BitVec.not_lt.mp hlt))]

theorem ite_lt_toNat_max (x y : Word) : (if y < x then x else y).toNat = max x.toNat y.toNat := by
  by_cases hlt : y < x
  · rw [if_pos hlt, max_eq_left (Nat.le_of_lt (BitVec.lt_def.mp hlt))]
  · rw [if_neg hlt, max_eq_right (BitVec.le_def.mp (BitVec.not_lt.mp hlt))]

theorem Scanned.scanMain_load (h : Scanned base done s) (hload : ph.isLoad = true) :
    scanMain phdr s ph =
      { s with
        l_map_start := if base + pageDown ph.p_vaddr < s.l_map_start then base + pageDown ph.p_vaddr
          else s.l_map_start
        l_map_end := if s.l_map_end < base + ph.p_vaddr + ph.p_memsz then
          base + ph.p_vaddr + ph.p_memsz else s.l_map_end
        found_exec := s.found_exec || (!s.found_exec && ph.isExec)
        exec_range := if !s.found_exec && ph.isExec then
          ⟨(base + ph.p_vaddr + ph.p_memsz - (base + pageDown ph.p_vaddr)).setWidth 32,
            base + pageDown ph.p_vaddr⟩ else s.exec_range } := by
  rw [scanMain, of_decide_eq_true hload, h.init_addr, MainPhdr.isExec, hload, Bool.true_and]

-- The size is kept in 32 bits.
theorem segment_size (hmapped : base.toNat + ph.p_vaddr.toNat + ph.p_memsz.toNat ≤ taskSize) :
    (base + ph.p_vaddr + ph.p_memsz - (base + pageDown ph.p_vaddr)).setWidth 32 =
      BitVec.ofNat 32 (ph.hi - ph.lo) := by
  obtain ⟨hlo, hhi, hle⟩ := segment_toNat hmapped
  have hbound : base.toNat + ph.hi < 2 ^ 64 := hhi ▸ BitVec.isLt _
  apply BitVec.eq_of_toNat_eq
  rw [BitVec.toNat_setWidth, BitVec.toNat_sub, hlo, hhi, BitVec.toNat_ofNat]
  congr 1
  omega

theorem Scanned.load (h : Scanned base done s) (hload : ph.isLoad = true)
    (hmapped : base.toNat + ph.p_vaddr.toNat + ph.p_memsz.toNat ≤ taskSize) :
    Scanned base (done ++ [ph]) (scanMain phdr s ph) := by
  obtain ⟨hlo, hhi, -⟩ := segment_toNat hmapped
  rw [h.scanMain_load hload]
  constructor
  · exact h.init_addr
  · intro q hq hq'
    rw [ite_lt_toNat_min, hlo]
    rcases List.mem_append.mp hq with hq | hq
    · exact (min_le_right _ _).trans (h.start_le q hq hq')
    · rw [List.mem_singleton.mp hq]
      exact min_le_left _ _
  · intro q hq hq'
    rw [ite_lt_toNat_max, hhi]
    rcases List.mem_append.mp hq with hq | hq
    · exact (h.le_end q hq hq').trans (le_max_right _ _)
    · rw [List.mem_singleton.mp hq]
      exact le_max_left _ _
  · dsimp only
    split
    · exact .inr ⟨ph, List.mem_append_right _ (List.mem_singleton_self _), hload, hlo⟩
    · exact h.start_mem.imp_right fun ⟨q, hq, hrest⟩ => ⟨q, List.mem_append_left _ hq, hrest⟩
  · dsimp only
    split
    · exact .inr ⟨ph, List.mem_append_right _ (List.mem_singleton_self _), hload, hhi⟩
    · exact h.end_mem.imp_right fun ⟨q, hq, hrest⟩ => ⟨q, List.mem_append_left _ hq, hrest⟩
  · rw [List.find?_append]
    rcases h.exec with ⟨hfound, hnone⟩ | ⟨q, hfound, hsome, hrange⟩
    · rw [hfound, hnone]
      cases hexec : ph.isExec with
      | false =>
        refine .inl ⟨rfl, ?_⟩
        simp [hexec]
      | true => exact .inr ⟨ph, rfl, by simp [hexec], hlo, segment_size hmapped⟩
    · rw [hfound, hsome]
      exact .inr ⟨q, rfl, rfl, hrange⟩

theorem Scanned.run (phdr : Word) (h : Scanned base done s) (rest : List MainPhdr)
    (hrest : ∀ ph ∈ rest, ph.p_type ≠ .PT_PHDR)
    (hmapped : ∀ ph ∈ rest, ph.isLoad = true →
      base.toNat + ph.p_vaddr.toNat + ph.p_memsz.toNat ≤ taskSize) :
    Scanned base (done ++ rest) (rest.foldl (scanMain phdr) s) := by
  induction rest generalizing done s with
  | nil => rwa [List.append_nil]
  | cons ph rest ih =>
    have hstep : Scanned base (done ++ [ph]) (scanMain phdr s ph) := by
      cases hload : ph.isLoad with
      | true => exact h.load hload (hmapped ph List.mem_cons_self hload)
      | false =>
        have hskip : scanMain phdr s ph = s := by
          have hne := of_decide_eq_false hload
          have hne' := hrest ph List.mem_cons_self
          unfold scanMain
          split
          · exact absurd ‹_› hne'
          · exact absurd ‹_› hne
          · rfl
        rw [hskip]
        exact h.skip hload
    rw [← List.singleton_append, ← List.append_assoc]
    exact ih hstep (fun q hq => hrest q (List.mem_cons_of_mem _ hq))
      fun q hq => hmapped q (List.mem_cons_of_mem _ hq)

-- The loop over the whole table, whatever value `init_addr` has before it.
theorem MainTable.scanned {table : List MainPhdr} (h : MainTable phdr base table) (init : Word) :
    Scanned base table (table.foldl (scanMain phdr) { init_addr := init }) := by
  obtain ⟨pre, ph, rest, rfl, hph, hbase, hpre, hrest⟩ := h.first
  have hkeep : ∀ l : List MainPhdr, (∀ q ∈ l, q.p_type = .other) →
      l.foldl (scanMain phdr) { init_addr := init } = { init_addr := init } := by
    intro l hl
    induction l with
    | nil => rfl
    | cons q l ih =>
      have hq : scanMain phdr { init_addr := init } q = { init_addr := init } := by
        rw [scanMain, hl q List.mem_cons_self]
      rw [List.foldl_cons, hq]
      exact ih fun q hq => hl q (List.mem_cons_of_mem _ hq)
  have hstart : Scanned base (pre ++ [ph]) { init_addr := base } := by
    have hskip : ∀ l : List MainPhdr, (∀ q ∈ l, q.isLoad = false) →
        Scanned base l { init_addr := base } := by
      intro l hl
      induction l using List.reverseRecOn with
      | nil => exact .start base
      | append_singleton l q ih =>
        exact (ih fun q hq => hl q (List.mem_append_left _ hq)).skip
          (hl q (List.mem_append_right _ (List.mem_singleton_self _)))
    refine hskip _ fun q hq => ?_
    rcases List.mem_append.mp hq with hq | hq
    · simp [MainPhdr.isLoad, hpre q hq]
    · simp [MainPhdr.isLoad, List.mem_singleton.mp hq, hph]
  have hrun := hstart.run phdr rest hrest fun q hq =>
    h.mapped q (List.mem_append_right _ (List.mem_cons_of_mem _ hq))
  rw [List.foldl_append, hkeep pre hpre, List.foldl_cons, scanMain, hph, hbase]
  rwa [List.append_assoc, List.singleton_append] at hrun

end Scan

-- What the loop finds of the first executable segment.
theorem MainTable.exec_range {phdr base : Word} {table : List MainPhdr} {ph : MainPhdr}
    (h : MainTable phdr base table) (init : Word) (hexec : table.find? MainPhdr.isExec = some ph) :
    (table.foldl (scanMain phdr) { init_addr := init }).exec_range =
      ⟨.ofNat 32 (ph.hi - ph.lo), base + pageDown ph.p_vaddr⟩ := by
  obtain ⟨-, hnone⟩ | ⟨q, -, hfind, hstart, hsize⟩ := (h.scanned init).exec
  · rw [hexec] at hnone
    cases hnone
  rw [hexec, Option.some_inj] at hfind
  subst hfind
  have hload : ph.isLoad = true := (Bool.and_eq_true _ _ ▸ List.find?_some hexec).1
  obtain ⟨hlo, -⟩ := segment_toNat (h.mapped ph (List.mem_of_find?_eq_some hexec) hload)
  have hmapstart := BitVec.eq_of_toNat_eq (hstart.trans hlo.symm)
  generalize table.foldl (scanMain phdr) { init_addr := init } = s at *
  rw [← hsize, ← hmapstart]

-- What a run that succeeds makes of what the loop has found.
structure Parsed (s : MainScan) (table : List MainPhdr) (a : MainArgs) : Prop where
  exec_start : a.exec_start = (mainWindow s).1
  exec_end : a.exec_end = (mainWindow s).2
  mprotect : a.mprotect = (table.filter MainPhdr.isLoad).map (protectSegment a.new_addr)
  munmap : a.munmap = (s.init_addr, s.l_map_end)

theorem parseArguments_parsed {mmap : Word → Word → Word} {phdr user_entry init : Word}
    {table : List MainPhdr} {a : MainArgs}
    (h : parseArguments mmap phdr user_entry init table = some a) :
    Parsed (table.foldl (scanMain phdr) { init_addr := init }) table a := by
  unfold parseArguments at h
  dsimp only at h
  split at h
  · cases h
  · rw [← Option.some_inj.mp h]
    exact ⟨rfl, rfl, rfl, rfl⟩

-- The first executable segment after the move, and the window of the main program.
def CodeInside (a : MainArgs) (ph : MainPhdr) : Prop :=
  a.exec_start.toNat ≤ a.new_addr.toNat + ph.lo ∧ a.new_addr.toNat + ph.hi ≤ a.exec_end.toNat + 1

instance (a : MainArgs) (ph : MainPhdr) : Decidable (CodeInside a ph) :=
  inferInstanceAs (Decidable (_ ∧ _))

-- The code in whole pages, with a page to spare.
def MainPhdr.codePages (ph : MainPhdr) : Nat := ph.hi - ph.lo + 0x1000 - (ph.hi - ph.lo) % 0x1000

-- Where the code is to start, for a program at `base`.
def codeTarget (base : Word) (ph : MainPhdr) : Word :=
  findAddr (base + pageDown ph.p_vaddr - 0x10000000#64) (.ofNat 64 ph.codePages)

theorem execPages_toNat {size : BitVec 32} (h : size.toNat + 0x1000 < 2 ^ 32) :
    ((execPages size).setWidth 64).toNat = size.toNat + 0x1000 - size.toNat % 0x1000 := by
  have hpage : (0x1000#32).toNat = 0x1000 := rfl
  rw [BitVec.toNat_setWidth, execPages, BitVec.toNat_sub, BitVec.toNat_add, BitVec.toNat_umod, hpage]
  omega

theorem execPages_pageSize {size : BitVec 32} (h : size.toNat + 0x1000 < 2 ^ 32) :
    PageSize ((execPages size).setWidth 64) := by
  have hnat := execPages_toNat h
  refine ⟨?_, ?_, ?_⟩ <;> rw [hnat] <;> omega

-- The window of the code that the loop has found, in numbers.
theorem mainWindow_toNat {s : MainScan} (h : s.exec_range.size.toNat + 0x1000 < 2 ^ 32) :
    let pages := ((execPages s.exec_range.size).setWidth 64).toNat
    let target := (findAddr (s.exec_range.mapstart - 0x10000000#64)
      ((execPages s.exec_range.size).setWidth 64)).toNat
    (mainWindow s).1.toNat + 2 ^ (pages - 1).size = target + pages ∧
      (mainWindow s).2.toNat + 1 = target + pages ∧ pages ≤ 2 ^ (pages - 1).size := by
  have hs := execPages_pageSize h
  have hadd := hs.findAddr_add (s.exec_range.mapstart - 0x10000000#64)
  have hbits := hs.commonPrefixLen_toNat (s.exec_range.mapstart - 0x10000000#64)
  have hend := hs.exec_end_toNat (s.exec_range.mapstart - 0x10000000#64)
  have hlt := lt_blockEnd (s.exec_range.mapstart - 0x10000000#64)
    ((execPages s.exec_range.size).setWidth 64)
  have hpos := hs.pos
  have hsize := Nat.lt_size_self (((execPages s.exec_range.size).setWidth 64).toNat - 1)
  simp only [mainWindow, BitVec.add_comm ((execPages s.exec_range.size).setWidth 64)]
  exact ⟨hbits.trans hadd.symm, by omega, by omega⟩

-- A size that is cut to 32 bits gives a window that is smaller than the code.
theorem window_lt_of_cut {size n : Nat} (hcut : 2 ^ 32 ≤ size) (hsize : size % 2 ^ 32 + 0x1000 < 2 ^ 32)
    (hn : n = size % 2 ^ 32 + 0x1000 - size % 2 ^ 32 % 0x1000) : 2 ^ (n - 1).size < size := by
  by_cases heq : size = 2 ^ 32
  · rw [hn, heq]
    decide
  · have hbits : 2 ^ (n - 1).size ≤ 2 ^ 32 :=
      Nat.pow_le_pow_right (by decide) (Nat.size_le.mpr (by omega))
    omega

-- What an address and the one before it have in common: the lowest bit that is set goes.
theorem commonPrefixLen_pred (t : Word) : commonPrefixLen t (t - 1#64) = t &&& (t - 1#64) := by
  by_cases hzero : t = 0#64
  · rw [hzero, commonPrefixLen_eq, BitVec.zero_and, BitVec.zero_and]
  have hne : t.toNat ≠ 0 := fun h => hzero (BitVec.eq_of_toNat_eq h)
  obtain ⟨m, odd, ⟨q, rfl⟩, ht⟩ := Nat.exists_eq_two_pow_mul_odd hne
  have hsplit : t.toNat = 2 ^ (m + 1) * q + 2 ^ m := by
    rw [ht, Nat.pow_succ]
    ring
  have hpow := Nat.two_pow_pos m
  have hpred : (t - 1#64).toNat = 2 ^ (m + 1) * q + (2 ^ m - 1) := by
    have hlt := t.isLt
    rw [BitVec.toNat_sub, BitVec.toNat_ofNat]
    omega
  apply BitVec.eq_of_toNat_eq
  rw [commonPrefixLen_eq, BitVec.toNat_xor, BitVec.toNat_and t (t - 1#64), hpred, hsplit,
    Bits.xor_pred, Bits.and_pred, Bits.size_ones, show (~~~0#64) = BitVec.allOnes 64 by decide,
    Bits.toNat_and_high, hsplit, Nat.mul_add_div (Nat.two_pow_pos _),
    Nat.div_eq_of_lt (Nat.pow_lt_pow_right (by decide) (Nat.lt_succ_self m)), Nat.add_zero q]

-- A size of 0 puts the code where the search starts.
theorem findAddr_zero {t : Word} (h : 0x1000 ∣ t.toNat) : findAddr t 0#64 = t := by
  have hbits : numBitsRequired 0#64 = 0 := by decide
  have hmask : 0xfffffffffffff000#64 = BitVec.allOnes 64 <<< 12 := by decide
  have hor : (t - 1#64 <<< 0 ||| (((1#64 <<< 0) - 1#64).setWidth 32).setWidth 64) - 0#64 +
      0x1000#64 = t + 0xfff#64 := by
    have hlow : (((1#64 <<< 0) - 1#64).setWidth 32).setWidth 64 = 0#64 := by decide
    rw [hlow, BitVec.or_zero, BitVec.sub_zero]
    bv_omega
  unfold findAddr
  dsimp only
  rw [hbits, hor, hmask]
  apply BitVec.eq_of_toNat_eq
  rw [Bits.toNat_and_high, BitVec.toNat_add]
  have hlt := t.isLt
  have hnat : (0xfff#64).toNat = 0xfff := rfl
  rw [hnat]
  obtain ⟨k, hk⟩ := h
  omega

-- The pages of the code wrap to 0 if the low 32 bits of its size are in the last page.
def MainPhdr.Wraps (ph : MainPhdr) : Prop := 2 ^ 32 ≤ (ph.hi - ph.lo) % 2 ^ 32 + 0x1000

instance (ph : MainPhdr) : Decidable ph.Wraps := inferInstanceAs (Decidable (_ ≤ _))

-- Where the search for an address starts: 256 megabytes below the code.
def searchStart (base : Word) (ph : MainPhdr) : Word := base + pageDown ph.p_vaddr - 0x10000000#64

-- Where `mmap` has to put the image for the code to be in the window. If the size wraps, the window
-- ends where the search for an address starts.
def Lands (base : Word) (ph : MainPhdr) (new_addr : Word) : Prop :=
  ph.Wraps ∧
      (searchStart base ph &&& (searchStart base ph - 1#64)).toNat ≤ new_addr.toNat + ph.lo ∧
      new_addr.toNat + ph.hi ≤ (searchStart base ph - 1#64).toNat + 1 ∨
    ¬ph.Wraps ∧ ph.hi - ph.lo < 2 ^ 32 ∧
      (codeTarget base ph).toNat ≤
        new_addr.toNat + ph.lo + (2 ^ (ph.codePages - 1).size - ph.codePages) ∧
      new_addr.toNat + ph.lo ≤ (codeTarget base ph).toNat + (ph.codePages - (ph.hi - ph.lo))

instance (base : Word) (ph : MainPhdr) (new_addr : Word) : Decidable (Lands base ph new_addr) :=
  inferInstanceAs (Decidable (_ ∨ _))

-- The window in the case of a size that wraps.
theorem mainWindow_wraps {s : MainScan} (hsize : execPages s.exec_range.size = 0#32)
    (hpage : 0x1000 ∣ (s.exec_range.mapstart - 0x10000000#64).toNat) :
    mainWindow s =
      ((s.exec_range.mapstart - 0x10000000#64) &&& (s.exec_range.mapstart - 0x10000000#64 - 1#64),
        s.exec_range.mapstart - 0x10000000#64 - 1#64) := by
  have hzero : (0#32).setWidth 64 = 0#64 := by decide
  rw [mainWindow, hsize, hzero, findAddr_zero hpage, BitVec.zero_add, commonPrefixLen_pred]

theorem execPages_wraps {size : BitVec 32} (h : 2 ^ 32 ≤ size.toNat + 0x1000) :
    execPages size = 0#32 := by
  have hlt := size.isLt
  have hpage : (0x1000#32).toNat = 0x1000 := rfl
  apply BitVec.eq_of_toNat_eq
  rw [execPages, BitVec.toNat_sub, BitVec.toNat_add, BitVec.toNat_umod, hpage, BitVec.toNat_ofNat]
  omega

theorem target_page {base : Word} (hbase : 0x1000 ∣ base.toNat) (v : Word) :
    0x1000 ∣ (base + pageDown v - 0x10000000#64).toNat := by
  have hdown : 0x1000 ∣ (pageDown v).toNat := by
    rw [pageDown_toNat]
    exact Nat.dvd_mul_left _ _
  have hoff : (0x10000000#64).toNat = 0x10000000 := rfl
  have hlt := base.isLt
  have hlt' := (pageDown v).isLt
  rw [BitVec.toNat_sub, BitVec.toNat_add, hoff]
  omega

theorem parseArguments_inside_iff (mmap : Word → Word → Word) (phdr user_entry init base : Word)
    (table : List MainPhdr) (a : MainArgs) (ph : MainPhdr) (h : MainTable phdr base table)
    (hexec : table.find? MainPhdr.isExec = some ph)
    (hparse : parseArguments mmap phdr user_entry init table = some a) :
    CodeInside a ph ↔ Lands base ph a.new_addr := by
  have hparsed := parseArguments_parsed hparse
  have hrange := h.exec_range init hexec
  generalize table.foldl (scanMain phdr) { init_addr := init } = s at hparsed hrange
  have hload : ph.isLoad = true := (Bool.and_eq_true _ _ ▸ List.find?_some hexec).1
  obtain ⟨-, -, hle⟩ := segment_toNat (h.mapped ph (List.mem_of_find?_eq_some hexec) hload)
  have hsizeNat : s.exec_range.size.toNat = (ph.hi - ph.lo) % 2 ^ 32 := by
    rw [hrange, BitVec.toNat_ofNat]
  have hstart : s.exec_range.mapstart = base + pageDown ph.p_vaddr := by rw [hrange]
  rw [CodeInside, hparsed.exec_start, hparsed.exec_end, Lands]
  by_cases hwraps : ph.Wraps
  · have hpages := execPages_wraps (by rw [hsizeNat]; exact hwraps)
    have hpage : 0x1000 ∣ (s.exec_range.mapstart - 0x10000000#64).toNat := by
      rw [hstart]
      exact target_page h.page _
    rw [mainWindow_wraps hpages hpage, hstart]
    exact ⟨fun hinside => .inl ⟨hwraps, hinside⟩, fun hlands => (hlands.resolve_right
      fun hnot => hnot.1 hwraps).2⟩
  have hsize : (ph.hi - ph.lo) % 2 ^ 32 + 0x1000 < 2 ^ 32 := Nat.lt_of_not_le hwraps
  have hsize' : s.exec_range.size.toNat + 0x1000 < 2 ^ 32 := by rw [hsizeNat]; exact hsize
  obtain ⟨hwindow, hend, hfit⟩ := mainWindow_toNat hsize'
  have hpages := execPages_toNat hsize'
  rw [hsizeNat] at hpages
  rw [or_iff_right fun hnot => hwraps hnot.1, and_iff_right hwraps]
  by_cases hlt : ph.hi - ph.lo < 2 ^ 32
  · rw [Nat.mod_eq_of_lt hlt] at hpages
    have hpages' : (execPages s.exec_range.size).setWidth 64 = .ofNat 64 ph.codePages := by
      apply BitVec.eq_of_toNat_eq
      rw [hpages, BitVec.toNat_ofNat, MainPhdr.codePages]
      omega
    have hcode : ph.codePages = ph.hi - ph.lo + 0x1000 - (ph.hi - ph.lo) % 0x1000 := rfl
    rw [hpages, ← hcode, hstart, hpages'] at hwindow hend
    rw [hpages, ← hcode] at hfit
    rw [codeTarget]
    constructor
    · rintro ⟨hfirst, hlast⟩
      exact ⟨hlt, by omega, by omega⟩
    · rintro ⟨-, hbelow, habove⟩
      exact ⟨by omega, by omega⟩
  · refine iff_of_false ?_ fun hnear => hlt hnear.1
    rintro ⟨hfirst, hlast⟩
    have hcut := window_lt_of_cut (Nat.le_of_not_lt hlt) hsize hpages
    omega

-- A program of one read-only, one executable and one writable segment.

def demoCode : MainPhdr := ⟨.PT_LOAD, PF_R + PF_X, 0x1000#64, 0x2345#64⟩

def demoTable : List MainPhdr :=
  [⟨.PT_PHDR, PF_R, 0x40#64, 0x1f8#64⟩, ⟨.PT_LOAD, PF_R, 0x0#64, 0x600#64⟩, demoCode,
    ⟨.PT_LOAD, PF_R + PF_W, 0x4000#64, 0x800#64⟩]

theorem demoTable_mainTable : MainTable 0x555555554040#64 0x555555554000#64 demoTable where
  first := ⟨[], _, _, rfl, rfl, by decide, by decide, by decide⟩
  page := by decide
  mapped := by decide

def demoArgs (mmap : Word → Word → Word) : Option MainArgs :=
  parseArguments mmap 0x555555554040#64 0x555555555000#64 0#64 demoTable

theorem parseArguments_inside_hint :
    CodeInside ((demoArgs fun pref _ => pref).get (by decide)) demoCode :=
  (parseArguments_inside_iff (fun pref _ => pref) 0x555555554040#64 0x555555555000#64 0#64
    0x555555554000#64 demoTable _ demoCode demoTable_mainTable (by decide)
    (Option.some_get _).symm).mpr (by decide)

-- Another address than the one asked for, as the kernel may well return.
theorem parseArguments_outside :
    MainTable 0x555555554040#64 0x555555554000#64 demoTable ∧
      demoTable.find? MainPhdr.isExec = some demoCode ∧
      ¬CodeInside ((demoArgs fun _ _ => 0x7ffff7d00000#64).get (by decide)) demoCode :=
  ⟨demoTable_mainTable, by decide, by decide⟩

-- The addresses that are mapped after `munmap`. A request that is not whole pages of user space
-- fails and changes nothing.
def unmapped (mapped : Set Nat) (addr len : Word) : Set Nat :=
  if 0x1000 ∣ addr.toNat ∧ 0 < len.toNat ∧ addr.toNat + len.toNat ≤ taskSize then
    mapped \ Set.Ico addr.toNat (addr.toNat + pages len.toNat)
  else mapped

-- The pages of the original image, from `l_map_start` to `l_map_end` rounded up.
def image (phdr init : Word) (table : List MainPhdr) : Set Nat :=
  Set.Ico (table.foldl (scanMain phdr) { init_addr := init }).l_map_start.toNat
    (pages (table.foldl (scanMain phdr) { init_addr := init }).l_map_end.toNat)

-- Where the segments of a program at `base` start and end.
def segmentStarts (base : Word) (table : List MainPhdr) : Set Nat :=
  { n | ∃ ph ∈ table, ph.isLoad = true ∧ n = base.toNat + ph.lo }

def segmentEnds (base : Word) (table : List MainPhdr) : Set Nat :=
  { n | ∃ ph ∈ table, ph.isLoad = true ∧ n = base.toNat + ph.hi }

-- The loop computes the least start and the greatest end.

section Image

variable {phdr base : Word} {table : List MainPhdr} (h : MainTable phdr base table) (init : Word)

include h

theorem MainTable.l_map_start_eq {start : Nat} (hstart : IsLeast (segmentStarts base table) start) :
    (table.foldl (scanMain phdr) { init_addr := init }).l_map_start.toNat = start := by
  have hscan := h.scanned init
  generalize table.foldl (scanMain phdr) { init_addr := init } = s at *
  obtain ⟨⟨ph, hph, hload, rfl⟩, hleast⟩ := hstart
  have hle := hscan.start_le ph hph hload
  obtain ⟨hlo, -⟩ := segment_toNat (h.mapped ph hph hload)
  rcases hscan.start_mem with hall | ⟨q, hq, hqload, heq⟩
  · -- no segment starts at the last address
    have hpage := (base + pageDown ph.p_vaddr).isLt
    have hdvd := h.page
    rw [hall] at hle ⊢
    have hlast : (BitVec.allOnes 64).toNat = 2 ^ 64 - 1 := rfl
    unfold MainPhdr.lo at *
    omega
  · refine Nat.le_antisymm hle ?_
    rw [heq]
    exact hleast ⟨q, hq, hqload, rfl⟩

theorem MainTable.l_map_end_eq {fin : Nat} (hfin : IsGreatest (segmentEnds base table) fin) :
    (table.foldl (scanMain phdr) { init_addr := init }).l_map_end.toNat = fin := by
  have hscan := h.scanned init
  generalize table.foldl (scanMain phdr) { init_addr := init } = s at *
  obtain ⟨⟨ph, hph, hload, rfl⟩, hgreatest⟩ := hfin
  have hle := hscan.le_end ph hph hload
  rcases hscan.end_mem with hzero | ⟨q, hq, hqload, heq⟩
  · rw [hzero] at hle ⊢
    exact (Nat.le_zero.mp hle).symm
  · refine Nat.le_antisymm ?_ hle
    rw [heq]
    exact hgreatest ⟨q, hq, hqload, rfl⟩

end Image

theorem base_le_start {base : Word} {table : List MainPhdr} {start : Nat}
    (hstart : IsLeast (segmentStarts base table) start) : base.toNat ≤ start := by
  obtain ⟨⟨ph, -, -, rfl⟩, -⟩ := hstart
  exact Nat.le_add_right _ _

theorem parseArguments_munmap_iff (mmap : Word → Word → Word) (phdr user_entry init base : Word)
    (table : List MainPhdr) (a : MainArgs) (h : MainTable phdr base table) (start fin : Nat)
    (hstart : IsLeast (segmentStarts base table) start)
    (hfin : IsGreatest (segmentEnds base table) fin) (mapped : Set Nat)
    (hmapped : (mapped ∩ Set.Ico start (pages fin)).Nonempty)
    (hparse : parseArguments mmap phdr user_entry init table = some a) :
    unmapped mapped a.munmap.1 a.munmap.2 = mapped \ image phdr init table ↔
      base.toNat + fin ≤ taskSize ∧
        ∀ x ∈ mapped, base.toNat ≤ x → x < base.toNat + pages fin → start ≤ x ∧ x < pages fin := by
  have hbase := (h.scanned init).init_addr
  have hlast := h.l_map_end_eq init hfin
  have hle := base_le_start hstart
  rw [image, h.l_map_start_eq init hstart, hlast]
  obtain ⟨x, hx, hxstart, hxend⟩ := hmapped
  rw [(parseArguments_parsed hparse).munmap]
  dsimp only
  have hpos : 0 < fin := by
    rcases Nat.eq_zero_or_pos fin with rfl | hpos
    · simp [pages] at hxend
    · exact hpos
  rw [hbase, unmapped, hlast]
  constructor
  · intro heq
    split at heq
    · rename_i hvalid
      refine ⟨hvalid.2.2, fun y hy hlo hhi => ?_⟩
      by_contra hout
      have hmem : y ∈ mapped \ Set.Ico start (pages fin) := ⟨hy, hout⟩
      rw [← heq] at hmem
      exact hmem.2 ⟨hlo, hhi⟩
    · have hmem : x ∈ mapped \ Set.Ico start (pages fin) := heq ▸ hx
      exact absurd ⟨hxstart, hxend⟩ hmem.2
  · rintro ⟨hlimit, hothers⟩
    rw [if_pos ⟨h.page, hpos, hlimit⟩]
    ext y
    constructor
    · rintro ⟨hy, hout⟩
      exact ⟨hy, fun hin => hout ⟨hle.trans hin.1, hin.2.trans_le (Nat.le_add_left _ _)⟩⟩
    · rintro ⟨hy, hout⟩
      exact ⟨hy, fun hin => hout (hothers y hy hin.1 hin.2)⟩

theorem lowTable_mainTable : MainTable 0x10040#64 0x10000#64 demoTable where
  first := ⟨[], _, _, rfl, rfl, by decide, by decide, by decide⟩
  page := by decide
  mapped := by decide

theorem demoTable_image (base : Word) :
    IsLeast (segmentStarts base demoTable) base.toNat ∧
      IsGreatest (segmentEnds base demoTable) (base.toNat + 0x4800) := by
  have hloads : ∀ ph ∈ demoTable, ph.isLoad = true → ph.hi ≤ 0x4800 := by decide
  refine ⟨⟨⟨demoTable[1], by decide, by decide, rfl⟩, ?_⟩,
    ⟨⟨demoTable[3], by decide, by decide, rfl⟩, ?_⟩⟩
  · rintro n ⟨ph, -, -, rfl⟩
    exact Nat.le_add_right _ _
  · rintro n ⟨ph, hph, hload, rfl⟩
    exact Nat.add_le_add_left (hloads ph hph hload) _

-- At a low address and with nothing else mapped, the request removes the image.
theorem parseArguments_munmap_low :
    unmapped (Set.Ico 0x10000 0x15000) 0x10000#64 0x14800#64 =
      Set.Ico 0x10000 0x15000 \ image 0x10040#64 0#64 demoTable :=
  (parseArguments_munmap_iff (fun pref _ => pref) 0x10040#64 0x11000#64 0#64 0x10000#64 demoTable
    _ lowTable_mainTable 0x10000 0x14800 (demoTable_image _).1 (demoTable_image _).2
    (Set.Ico 0x10000 0x15000) ⟨0x10000, by simp [pages]⟩ rfl).mpr
    ⟨by decide, fun x hx _ _ => ⟨hx.1, hx.2⟩⟩

-- At the usual addresses the request reaches beyond user space, and the image stays.
theorem parseArguments_munmap_fails :
    MainTable 0x555555554040#64 0x555555554000#64 demoTable ∧
      ((demoArgs fun pref _ => pref).get (by decide)).munmap =
        (0x555555554000#64, 0x555555558800#64) ∧
      unmapped (Set.Ico 0x555555554000 0x555555559000) 0x555555554000#64 0x555555558800#64 ≠
        Set.Ico 0x555555554000 0x555555559000 \ image 0x555555554040#64 0#64 demoTable := by
  refine ⟨demoTable_mainTable, by decide, fun heq => ?_⟩
  have himage : image 0x555555554040#64 0#64 demoTable =
      Set.Ico 0x555555554000 0x555555559000 := rfl
  rw [unmapped, if_neg (by decide), himage, Set.sdiff_self] at heq
  have hmem : 0x555555554000 ∈ Set.Ico 0x555555554000 0x555555559000 := by simp
  rw [heq] at hmem
  exact hmem

end Platypus.Loader
