import Platypus.Loader.MainProgram

-- The image of the main program after its move: where its code ends, and how its pages are
-- protected.

namespace Platypus.Loader

-- The bytes of a segment from the start of its first page.
def MainPhdr.span (ph : MainPhdr) : Nat := ph.hi - ph.lo

-- `exec_range.size + 0x1000 - exec_range.size % 0x1000`, for a segment of any size.
def MainPhdr.execLen (ph : MainPhdr) : Word := (execPages (.ofNat 32 ph.span)).setWidth 64

-- The address that the start-up code asks for when the kernel has mapped the program at `base`.
def askedAt (base : Word) (ph : MainPhdr) : Word :=
  findAddr (base + pageDown ph.p_vaddr - 0x10000000#64) ph.execLen - .ofNat 64 ph.lo

-- `exec_end` is the last byte of the last page of the code.
def CodeEndsAt (a : MainArgs) (ph : MainPhdr) : Prop :=
  a.exec_end = a.new_addr + .ofNat 64 (pages ph.hi) - 1#64

-- By how much the size that is used is larger than the pages of the segment.
def MainPhdr.excess (ph : MainPhdr) : Word := ph.execLen - .ofNat 64 (pages ph.span)

-- The last page is not full, and the size has 32 bits.
def MainPhdr.Ragged (ph : MainPhdr) : Prop := ph.span % 0x1000 ≠ 0 ∧ ph.span + 0x1000 < 2 ^ 32

instance (ph : MainPhdr) : Decidable ph.Ragged := inferInstanceAs (Decidable (_ ∧ _))

theorem lo_dvd (ph : MainPhdr) : 0x1000 ∣ ph.lo := Nat.dvd_mul_left _ _

theorem lo_le_hi (ph : MainPhdr) : ph.lo ≤ ph.hi := by
  unfold MainPhdr.lo MainPhdr.hi
  omega

theorem pages_hi (ph : MainPhdr) : pages ph.hi = ph.lo + pages ph.span := by
  have hle := lo_le_hi ph
  rw [← pages_add_of_dvd ph.span (lo_dvd ph), MainPhdr.span, Nat.add_sub_cancel' hle]

theorem execLen_toNat (ph : MainPhdr) :
    ph.execLen.toNat = (ph.span % 2 ^ 32 / 0x1000 * 0x1000 + 0x1000) % 2 ^ 32 := by
  have hpage : (0x1000#32).toNat = 0x1000 := rfl
  rw [MainPhdr.execLen, BitVec.toNat_setWidth, execPages, BitVec.toNat_sub, BitVec.toNat_add,
    BitVec.toNat_umod, hpage, BitVec.toNat_ofNat]
  omega

theorem excess_eq_zero_iff {ph : MainPhdr} (h : ph.hi ≤ taskSize) : ph.excess = 0#64 ↔ ph.Ragged := by
  have hlen := execLen_toNat ph
  have hspan : ph.span ≤ taskSize := (Nat.sub_le _ _).trans h
  have hsub : ph.excess = 0#64 ↔ ph.execLen = .ofNat 64 (pages ph.span) := by
    rw [MainPhdr.excess]
    exact sub_eq_zero
  rw [hsub, ← BitVec.toNat_inj, hlen, BitVec.toNat_ofNat, MainPhdr.Ragged, pages]
  unfold taskSize at hspan
  omega

theorem parseArguments_codeEnds_iff (mmap : Word → Word → Word) (phdr user_entry init base : Word)
    (table : List MainPhdr) (a : MainArgs) (ph : MainPhdr) (h : MainTable phdr base table)
    (hexec : table.find? MainPhdr.isExec = some ph)
    (hparse : parseArguments mmap phdr user_entry init table = some a) :
    CodeEndsAt a ph ↔ (ph.Ragged ∧ a.new_addr = askedAt base ph) ∨
      (ph.excess ≠ 0#64 ∧ a.new_addr = askedAt base ph + ph.excess) := by
  have hparsed := parseArguments_parsed hparse
  have hrange := h.exec_range init hexec
  have hload : ph.isLoad = true := (Bool.and_eq_true _ _ ▸ List.find?_some hexec).1
  have hmapped := h.mapped ph (List.mem_of_find?_eq_some hexec) hload
  have hhi : ph.hi ≤ taskSize := by
    unfold MainPhdr.hi
    omega
  have hend : a.exec_end = ph.execLen + (askedAt base ph + .ofNat 64 ph.lo) - 1#64 := by
    rw [hparsed.exec_end, mainWindow, hrange, askedAt, BitVec.sub_add_cancel]
    rfl
  have hpages : BitVec.ofNat 64 (pages ph.hi) = .ofNat 64 ph.lo + .ofNat 64 (pages ph.span) := by
    rw [pages_hi, BitVec.ofNat_add]
  -- the two ends differ by the difference of the addresses and the excess
  have hiff : CodeEndsAt a ph ↔ a.new_addr = askedAt base ph + ph.excess := by
    rw [CodeEndsAt, hend, hpages, MainPhdr.excess]
    constructor
    · intro heq
      linear_combination -heq
    · intro heq
      rw [heq]
      ring
  rw [hiff]
  by_cases hzero : ph.excess = 0#64
  · have hragged := (excess_eq_zero_iff hhi).mp hzero
    simp [hzero, hragged]
  · have hragged := mt (excess_eq_zero_iff hhi).mpr hzero
    simp [hzero, hragged]

theorem codeEnds_demoTable : CodeEndsAt ((demoArgs fun pref _ => pref).get (by decide)) demoCode :=
  (parseArguments_codeEnds_iff (fun pref _ => pref) 0x555555554040#64 0x555555555000#64 0#64
    0x555555554000#64 demoTable _ demoCode demoTable_mainTable (by decide)
    (Option.some_get _).symm).mpr (.inl (by decide))

-- The code fills two pages, and the next segment follows at once.

def fullCode : MainPhdr := ⟨.PT_LOAD, PF_R + PF_X, 0x1000#64, 0x2000#64⟩

def nextData : MainPhdr := ⟨.PT_LOAD, PF_R + PF_W, 0x3000#64, 0x800#64⟩

def fullTable : List MainPhdr :=
  [⟨.PT_PHDR, PF_R, 0x40#64, 0x1f8#64⟩, ⟨.PT_LOAD, PF_R, 0x0#64, 0x600#64⟩, fullCode, nextData]

theorem fullTable_mainTable : MainTable 0x555555554040#64 0x555555554000#64 fullTable where
  first := ⟨[], _, _, rfl, rfl, by decide, by decide, by decide⟩
  page := by decide
  mapped := by decide

def fullArgs : Option MainArgs :=
  parseArguments (fun pref _ => pref) 0x555555554040#64 0x555555555000#64 0#64 fullTable

theorem fullTable_not_codeEnds :
    MainTable 0x555555554040#64 0x555555554000#64 fullTable ∧
      fullTable.find? MainPhdr.isExec = some fullCode ∧
      (fullArgs.get (by decide)).new_addr = askedAt 0x555555554000#64 fullCode ∧
      ¬CodeEndsAt (fullArgs.get (by decide)) fullCode ∧
      (fullArgs.get (by decide)).new_addr + .ofNat 64 nextData.lo ≤ (fullArgs.get (by decide)).exec_end :=
  ⟨fullTable_mainTable, by decide, by decide, by unfold CodeEndsAt; decide, by decide⟩

-- The protections of the pages of a process, by page number. Pages that are not mapped have none.
abbrev Memory := Nat → Option Nat

def PROT_EXEC : Nat := 4

-- The kernel goes on from page to page and stops at the first one that is not mapped.
def protectPages (prot : Nat) : Nat → Nat → Memory → Memory
  | 0, _, mem => mem
  | count + 1, page, mem =>
    match mem page with
    | none => mem
    | some _ => protectPages prot count (page + 1) (Function.update mem page (some prot))

def protectRange (mem : Memory) (r : Word × Word × Nat) : Memory :=
  if 0x1000 ∣ r.1.toNat then
    protectPages r.2.2 (pages r.2.1.toNat / 0x1000) (r.1.toNat / 0x1000) mem
  else mem

def MainArgs.protected (a : MainArgs) (mem : Memory) : Memory := a.mprotect.foldl protectRange mem

-- The pages from `first` up to `page` are mapped.
def Mapped (mem : Memory) (first page : Nat) : Prop := ∀ q, first ≤ q → q ≤ page → mem q ≠ none

theorem protectPages_apply (prot count first : Nat) (mem : Memory) (page : Nat) :
    (Mapped mem first page → first ≤ page → page < first + count →
      protectPages prot count first mem page = some prot) ∧
    (¬(Mapped mem first page ∧ first ≤ page ∧ page < first + count) →
      protectPages prot count first mem page = mem page) := by
  induction count generalizing first mem with
  | zero => exact ⟨fun _ _ _ => by omega, fun _ => rfl⟩
  | succ count ih =>
    cases hpage : mem first with
    | none =>
      have heq : protectPages prot (count + 1) first mem = mem := by
        rw [protectPages, hpage]
      refine ⟨fun hmapped hle _ => absurd hpage (hmapped first le_rfl hle), fun _ => ?_⟩
      rw [heq]
    | some old =>
      have heq : protectPages prot (count + 1) first mem =
          protectPages prot count (first + 1) (Function.update mem first (some prot)) := by
        rw [protectPages, hpage]
      obtain ⟨hin, hout⟩ := ih (first + 1) (Function.update mem first (some prot))
      -- the pages after the first are mapped as before
      have hrest : Mapped (Function.update mem first (some prot)) (first + 1) page ↔
          Mapped mem (first + 1) page := by
        refine forall_congr' fun q => imp_congr_right fun hq => ?_
        rw [Function.update_of_ne (by omega)]
      have hsplit : Mapped mem first page ↔ Mapped mem (first + 1) page := by
        refine ⟨fun h q hq => h q (by omega), fun h q hq hqpage => ?_⟩
        rcases Nat.eq_or_lt_of_le hq with rfl | hlt
        · rw [hpage]
          exact Option.some_ne_none old
        · exact h q hlt hqpage
      rw [heq]
      by_cases hfirst : page = first
      · subst hfirst
        rw [hout (by omega), Function.update_self]
        refine ⟨fun _ _ _ => rfl, fun hnot => absurd ⟨?_, le_rfl, by omega⟩ hnot⟩
        intro q hq hqpage
        rw [Nat.le_antisymm hqpage hq, hpage]
        exact Option.some_ne_none old
      · refine ⟨fun hmapped hle hlt => ?_, fun hnot => ?_⟩
        · exact hin (hrest.mpr (hsplit.mp hmapped)) (by omega) (by omega)
        · rw [hout, Function.update_of_ne hfirst]
          rintro ⟨hmapped, hle, hlt⟩
          exact hnot ⟨hsplit.mpr (hrest.mp hmapped), by omega, by omega⟩

-- The pages that a request for a segment is about, and those that are the segment's own.

def firstPage (new_addr : Word) (ph : MainPhdr) : Nat := (new_addr.toNat + ph.lo) / 0x1000

def Requested (mem : Memory) (new_addr : Word) (ph : MainPhdr) (page : Nat) : Prop :=
  Mapped mem (firstPage new_addr ph) page ∧ firstPage new_addr ph ≤ page ∧
    page ≤ firstPage new_addr ph + ph.span / 0x1000

def MainPhdr.Owns (ph : MainPhdr) (new_addr : Word) (page : Nat) : Prop :=
  firstPage new_addr ph ≤ page ∧ page < (new_addr.toNat + pages ph.hi) / 0x1000

-- Where the image has been moved to.
structure Moved (new_addr : Word) (ph : MainPhdr) : Prop where
  page : 0x1000 ∣ new_addr.toNat
  below : new_addr.toNat ≤ userLimit
  hi : ph.hi ≤ taskSize

theorem protectSegment_toNat {new_addr : Word} {ph : MainPhdr} (h : Moved new_addr ph) :
    (protectSegment new_addr ph).1.toNat = new_addr.toNat + ph.lo ∧
      (protectSegment new_addr ph).2.1.toNat = ph.span / 0x1000 * 0x1000 + 0x1000 := by
  have hpage : (0x1000#64).toNat = 0x1000 := rfl
  have hbelow := h.below
  have hhi := h.hi
  unfold userLimit at hbelow
  unfold MainPhdr.hi taskSize at hhi
  unfold protectSegment MainPhdr.span MainPhdr.hi MainPhdr.lo
  dsimp only
  constructor
  · rw [BitVec.toNat_sub, BitVec.toNat_add, BitVec.toNat_umod, hpage]
    omega
  · rw [BitVec.toNat_sub, BitVec.toNat_add, BitVec.toNat_umod, BitVec.toNat_add, BitVec.toNat_umod,
      hpage]
    omega

theorem protectRange_apply {new_addr : Word} {ph : MainPhdr} (h : Moved new_addr ph) (mem : Memory)
    (page : Nat) :
    (Requested mem new_addr ph page →
      protectRange mem (protectSegment new_addr ph) page = some (protOf ph.p_flags)) ∧
    (¬Requested mem new_addr ph page →
      protectRange mem (protectSegment new_addr ph) page = mem page) := by
  obtain ⟨haddr, hlen⟩ := protectSegment_toNat h
  have hdvd : 0x1000 ∣ new_addr.toNat + ph.lo := Nat.dvd_add h.page (lo_dvd ph)
  have hcount : pages (ph.span / 0x1000 * 0x1000 + 0x1000) / 0x1000 = ph.span / 0x1000 + 1 := by
    unfold pages
    omega
  have heq : protectRange mem (protectSegment new_addr ph) =
      protectPages (protOf ph.p_flags) (ph.span / 0x1000 + 1) (firstPage new_addr ph) mem := by
    rw [protectRange, haddr, if_pos hdvd, hlen, hcount]
    rfl
  obtain ⟨hin, hout⟩ := protectPages_apply (protOf ph.p_flags) (ph.span / 0x1000 + 1)
    (firstPage new_addr ph) mem page
  rw [heq]
  refine ⟨fun ⟨hmapped, hle, hlt⟩ => hin hmapped hle (by omega), fun hnot => hout ?_⟩
  rintro ⟨hmapped, hle, hlt⟩
  exact hnot ⟨hmapped, hle, by omega⟩

-- The requests change no page between mapped and not mapped.
theorem protectRange_none {new_addr : Word} {ph : MainPhdr} (h : Moved new_addr ph) (mem : Memory)
    (page : Nat) : protectRange mem (protectSegment new_addr ph) page = none ↔ mem page = none := by
  obtain ⟨hin, hout⟩ := protectRange_apply h mem page
  by_cases hreq : Requested mem new_addr ph page
  · have hsome := hreq.1 page hreq.2.1 le_rfl
    rw [hin hreq]
    exact iff_of_false (Option.some_ne_none _) hsome
  · rw [hout hreq]

theorem requested_congr {mem mem' : Memory} (h : ∀ page, mem' page = none ↔ mem page = none)
    (new_addr : Word) (ph : MainPhdr) (page : Nat) :
    Requested mem' new_addr ph page ↔ Requested mem new_addr ph page := by
  refine and_congr_left fun _ => forall_congr' fun q => ?_
  rw [Ne, Ne, h]

-- The loop over the segments.
def protectAll (new_addr : Word) (loads : List MainPhdr) (mem : Memory) : Memory :=
  (loads.map (protectSegment new_addr)).foldl protectRange mem

theorem protectAll_append (new_addr : Word) (loads : List MainPhdr) (ph : MainPhdr) (mem : Memory) :
    protectAll new_addr (loads ++ [ph]) mem =
      protectRange (protectAll new_addr loads mem) (protectSegment new_addr ph) := by
  rw [protectAll, List.map_append, List.foldl_append]
  rfl

theorem protectAll_none {new_addr : Word} {loads : List MainPhdr}
    (h : ∀ ph ∈ loads, Moved new_addr ph) (mem : Memory) (page : Nat) :
    protectAll new_addr loads mem page = none ↔ mem page = none := by
  induction loads using List.reverseRecOn with
  | nil => rfl
  | append_singleton loads ph ih =>
    rw [protectAll_append, protectRange_none (h ph (by simp))]
    exact ih fun q hq => h q (List.mem_append_left _ hq)

-- The last request for a page decides.
theorem protectAll_last {new_addr : Word} {pre post : List MainPhdr} {ph : MainPhdr}
    (h : ∀ q ∈ pre ++ ph :: post, Moved new_addr q) {mem : Memory} {page : Nat}
    (hreq : Requested mem new_addr ph page) (hpost : ∀ q ∈ post, ¬Requested mem new_addr q page) :
    protectAll new_addr (pre ++ ph :: post) mem page = some (protOf ph.p_flags) := by
  induction post using List.reverseRecOn with
  | nil =>
    have hpre : ∀ q ∈ pre, Moved new_addr q := fun q hq => h q (List.mem_append_left _ hq)
    rw [protectAll_append]
    refine (protectRange_apply (h ph (by simp)) _ page).1 ?_
    exact (requested_congr (protectAll_none hpre mem) new_addr ph page).mpr hreq
  | append_singleton post q ih =>
    have hall : ∀ r ∈ pre ++ ph :: post, Moved new_addr r := fun r hr => h r (by
      rw [← List.cons_append, ← List.append_assoc]
      exact List.mem_append_left _ hr)
    have hq : ¬Requested mem new_addr q page := hpost q (by simp)
    rw [← List.cons_append, ← List.append_assoc, protectAll_append,
      (protectRange_apply (h q (by simp)) _ page).2]
    · exact ih hall fun r hr => hpost r (List.mem_append_left _ hr)
    · rwa [requested_congr (protectAll_none hall mem) new_addr q page]

theorem protectAll_unrequested {new_addr : Word} {loads : List MainPhdr}
    (h : ∀ q ∈ loads, Moved new_addr q) {mem : Memory} {page : Nat}
    (hnone : ∀ q ∈ loads, ¬Requested mem new_addr q page) :
    protectAll new_addr loads mem page = mem page := by
  induction loads using List.reverseRecOn with
  | nil => rfl
  | append_singleton loads ph ih =>
    have hloads : ∀ q ∈ loads, Moved new_addr q := fun q hq => h q (List.mem_append_left _ hq)
    rw [protectAll_append, (protectRange_apply (h ph (by simp)) _ page).2]
    · exact ih hloads fun q hq => hnone q (List.mem_append_left _ hq)
    · rw [requested_congr (protectAll_none hloads mem) new_addr ph page]
      exact hnone ph (by simp)

-- Either no segment's request reaches the page, or there is a last one that does.
theorem exists_last_requested (mem : Memory) (new_addr : Word) (loads : List MainPhdr) (page : Nat) :
    (∀ q ∈ loads, ¬Requested mem new_addr q page) ∨
      ∃ pre ph post, loads = pre ++ ph :: post ∧ Requested mem new_addr ph page ∧
        ∀ q ∈ post, ¬Requested mem new_addr q page := by
  induction loads with
  | nil => exact .inl (by simp)
  | cons ph loads ih =>
    rcases ih with hnone | ⟨pre, q, post, rfl, hreq, hpost⟩
    · by_cases hph : Requested mem new_addr ph page
      · exact .inr ⟨[], ph, loads, rfl, hph, hnone⟩
      · exact .inl (by simpa using ⟨hph, hnone⟩)
    · exact .inr ⟨ph :: pre, q, post, rfl, hreq, hpost⟩

def executable (prot : Option Nat) : Bool := prot.any fun p => p &&& PROT_EXEC ≠ 0

theorem executable_protOf (flags : Nat) :
    executable (some (protOf flags)) = decide (flags &&& PF_X ≠ 0) := by
  have hbits : ∀ r w x : Bool, ((if r then 0 else 1) + (if w then 0 else 2) + (if x then 0 else 4)) &&&
      PROT_EXEC ≠ 0 ↔ x = false := by
    decide
  have hiff := hbits (decide (flags &&& PF_R = 0)) (decide (flags &&& PF_W = 0))
    (decide (flags &&& PF_X = 0))
  simp only [decide_eq_true_eq, decide_eq_false_iff_not] at hiff
  exact decide_eq_decide.mpr hiff

-- The length that the start-up code asks for.
def imageLen (phdr init : Word) (table : List MainPhdr) : Nat :=
  ((table.foldl (scanMain phdr) { init_addr := init }).l_map_end -
    (table.foldl (scanMain phdr) { init_addr := init }).l_map_start).toNat

-- What the kernel has granted: whole pages in user space that can be read and written.
structure GrantedImage (mem : Memory) (new_addr : Word) (len : Nat) : Prop where
  page : 0x1000 ∣ new_addr.toNat
  below : new_addr.toNat + pages len ≤ userLimit
  mapped : ∀ page, new_addr.toNat / 0x1000 ≤ page → page < (new_addr.toNat + pages len) / 0x1000 →
    mem page = some 3

-- The segments of the image have their own protections, and no other page has become executable.
structure Protections (a : MainArgs) (table : List MainPhdr) (len : Nat) (mem : Memory) : Prop where
  own : ∀ ph ∈ table, ph.isLoad = true → ∀ page, ph.Owns a.new_addr page →
    page < (a.new_addr.toNat + pages len) / 0x1000 → a.protected mem page = some (protOf ph.p_flags)
  others : ∀ page, executable (a.protected mem page) = true →
    executable (mem page) = true ∨ ∃ ph ∈ table, ph.isExec = true ∧ ph.Owns a.new_addr page

section Protect

variable {new_addr : Word} {mem : Memory} {loads pre post : List MainPhdr} {ph : MainPhdr}

-- The page after a segment that ends with its last page, which the request covers, too.
def nextPage (new_addr : Word) (ph : MainPhdr) : Nat := firstPage new_addr ph + ph.span / 0x1000

theorem protectAll_own (hmoved : ∀ q ∈ pre ++ ph :: post, Moved new_addr q)
    (hsorted : (pre ++ ph :: post).Pairwise fun p q => pages p.hi ≤ q.lo) {page : Nat}
    (howns : ph.Owns new_addr page) (hmapped : Mapped mem (firstPage new_addr ph) page) :
    protectAll new_addr (pre ++ ph :: post) mem page = some (protOf ph.p_flags) := by
  have hpage := (hmoved ph (by simp)).page
  have hspan := pages_hi ph
  have hlo := lo_dvd ph
  obtain ⟨hle, hlt⟩ := howns
  refine protectAll_last hmoved ⟨hmapped, hle, ?_⟩ fun q hq hreq => ?_
  · unfold firstPage at *
    rw [hspan] at hlt
    unfold pages at hlt
    omega
  · have hnext : pages ph.hi ≤ q.lo :=
      (List.pairwise_cons.mp (List.pairwise_append.mp hsorted).2.1).1 q hq
    have hfirst := hreq.2.1
    unfold firstPage at hfirst
    omega

-- A request that reaches a page that is not its own.
theorem requested_not_owned (hmoved : Moved new_addr ph) {page : Nat}
    (hreq : Requested mem new_addr ph page) (hown : ¬ph.Owns new_addr page) :
    0x1000 ∣ ph.span ∧ page = nextPage new_addr ph := by
  have hpage := hmoved.page
  have hspan := pages_hi ph
  have hlo := lo_dvd ph
  obtain ⟨-, hle, hlast⟩ := hreq
  have hge : (new_addr.toNat + pages ph.hi) / 0x1000 ≤ page := by
    by_contra hlt
    exact hown ⟨hle, Nat.lt_of_not_le hlt⟩
  rw [hspan] at hge
  unfold nextPage
  unfold firstPage at *
  unfold pages at hge
  constructor
  · omega
  · omega

theorem nextPage_eq (hmoved : Moved new_addr ph) (hdvd : 0x1000 ∣ ph.span) :
    nextPage new_addr ph * 0x1000 = new_addr.toNat + ph.hi ∧ 0x1000 ∣ ph.hi := by
  have hpage := hmoved.page
  have hlo := lo_dvd ph
  have hle := lo_le_hi ph
  unfold nextPage firstPage
  unfold MainPhdr.span at *
  omega

-- No segment after a full one reaches its next page, unless one starts there.
theorem not_firstPage_le {q : MainPhdr} (hmoved : Moved new_addr ph) (hdvd : 0x1000 ∣ ph.span)
    (hafter : pages ph.hi ≤ q.lo) (hne : q.lo ≠ ph.hi) :
    ¬firstPage new_addr q ≤ nextPage new_addr ph := by
  intro hfirst
  obtain ⟨hnext, hhi⟩ := nextPage_eq hmoved hdvd
  have hlo := lo_dvd q
  rw [pages_of_dvd hhi] at hafter
  unfold firstPage at hfirst
  omega

theorem not_owns_nextPage (hmoved : Moved new_addr ph) (hdvd : 0x1000 ∣ ph.span) :
    ¬ph.Owns new_addr (nextPage new_addr ph) := by
  rintro ⟨-, hlt⟩
  obtain ⟨hnext, hhi⟩ := nextPage_eq hmoved hdvd
  rw [pages_of_dvd hhi] at hlt
  omega

theorem not_owns_of_before {q : MainPhdr} (hmoved : Moved new_addr ph) (hdvd : 0x1000 ∣ ph.span)
    (hbefore : pages q.hi ≤ ph.lo) : ¬q.Owns new_addr (nextPage new_addr ph) := by
  rintro ⟨-, hlt⟩
  obtain ⟨hnext, -⟩ := nextPage_eq hmoved hdvd
  have hle := lo_le_hi ph
  omega

-- The segment that starts at the next page is asked for there.
theorem requested_of_lo_eq {q : MainPhdr} (hmoved : Moved new_addr ph) (hdvd : 0x1000 ∣ ph.span)
    (hreq : Requested mem new_addr ph (nextPage new_addr ph)) (heq : q.lo = ph.hi) :
    Requested mem new_addr q (nextPage new_addr ph) := by
  obtain ⟨hnext, -⟩ := nextPage_eq hmoved hdvd
  have hfirst : firstPage new_addr q = nextPage new_addr ph := by
    unfold firstPage
    omega
  refine ⟨fun r hr hle => ?_, hfirst.le, ?_⟩
  · rw [hfirst] at hr
    exact hreq.1 r (hreq.2.1.trans hr) hle
  · rw [hfirst]
    exact Nat.le_add_right _ _

theorem protectAll_others_iff (hmoved : ∀ q ∈ loads, Moved new_addr q)
    (hsorted : loads.Pairwise fun p q => pages p.hi ≤ q.lo)
    (hloads : ∀ q ∈ loads, q.isLoad = true) :
    (∀ page, executable (protectAll new_addr loads mem page) = true →
      executable (mem page) = true ∨ ∃ q ∈ loads, q.isExec = true ∧ q.Owns new_addr page) ↔
    ∀ pre ph post, loads = pre ++ ph :: post → ph.isExec = true → 0x1000 ∣ ph.span →
      Mapped mem (firstPage new_addr ph) (nextPage new_addr ph) →
        executable (mem (nextPage new_addr ph)) = true ∨ ∃ q ∈ post, q.lo = ph.hi := by
  have hflags : ∀ q ∈ loads, q.isExec = executable (some (protOf q.p_flags)) := by
    intro q hq
    rw [MainPhdr.isExec, hloads q hq, Bool.true_and, executable_protOf]
  constructor
  · rintro hothers pre ph post rfl hexec hdvd hmapped
    by_contra hnot
    obtain ⟨hmem, hpost⟩ := not_or.mp hnot
    have hph := hmoved ph (by simp)
    have hafter := (List.pairwise_cons.mp (List.pairwise_append.mp hsorted).2.1).1
    have hlater : ∀ q ∈ post, ¬firstPage new_addr q ≤ nextPage new_addr ph := fun q hq =>
      not_firstPage_le hph hdvd (hafter q hq) fun heq => hpost ⟨q, hq, heq⟩
    have hreq : Requested mem new_addr ph (nextPage new_addr ph) :=
      ⟨hmapped, Nat.le_add_right _ _, le_rfl⟩
    have hfinal := protectAll_last hmoved hreq fun q hq hreq => hlater q hq hreq.2.1
    rcases hothers _ (by rw [hfinal, ← hflags ph (by simp), hexec]) with hexe | ⟨q, hq, -, hown⟩
    · exact hmem hexe
    · rcases List.mem_append.mp hq with hq | hq
      · have hbefore := (List.pairwise_append.mp hsorted).2.2 q hq ph (by simp)
        exact not_owns_of_before hph hdvd hbefore hown
      · rcases List.mem_cons.mp hq with rfl | hq
        · exact not_owns_nextPage hph hdvd hown
        · exact hlater q hq hown.1
  · intro hcond page hexe
    rcases exists_last_requested mem new_addr loads page with hnone | ⟨pre, ph, post, rfl, hreq, hpost⟩
    · rw [protectAll_unrequested hmoved hnone] at hexe
      exact .inl hexe
    · have hph := hmoved ph (by simp)
      have hexec : ph.isExec = true := by
        rw [hflags ph (by simp), ← protectAll_last hmoved hreq hpost]
        exact hexe
      by_cases hown : ph.Owns new_addr page
      · exact .inr ⟨ph, by simp, hexec, hown⟩
      · obtain ⟨hdvd, rfl⟩ := requested_not_owned hph hreq hown
        refine (hcond pre ph post rfl hexec hdvd hreq.1).imp_right ?_
        rintro ⟨q, hq, heq⟩
        exact absurd (requested_of_lo_eq hph hdvd hreq heq) (hpost q hq)

end Protect

theorem parseArguments_protections_iff (mmap : Word → Word → Word) (phdr user_entry init base : Word)
    (table : List MainPhdr) (a : MainArgs) (mem : Memory) (h : MainTable phdr base table)
    (hsorted : (table.filter MainPhdr.isLoad).Pairwise fun p q => pages p.hi ≤ q.lo)
    (hparse : parseArguments mmap phdr user_entry init table = some a)
    (hgranted : GrantedImage mem a.new_addr (imageLen phdr init table)) :
    Protections a table (imageLen phdr init table) mem ↔
      ∀ pre ph post, table.filter MainPhdr.isLoad = pre ++ ph :: post → ph.isExec = true →
        0x1000 ∣ ph.span → Mapped mem (firstPage a.new_addr ph) (nextPage a.new_addr ph) →
          executable (mem (nextPage a.new_addr ph)) = true ∨ ∃ q ∈ post, q.lo = ph.hi := by
  have hprotected : ∀ mem, a.protected mem =
      protectAll a.new_addr (table.filter MainPhdr.isLoad) mem := by
    intro mem
    rw [MainArgs.protected, (parseArguments_parsed hparse).mprotect]
    rfl
  have hload : ∀ q ∈ table.filter MainPhdr.isLoad, q.isLoad = true := fun q hq =>
    (List.mem_filter.mp hq).2
  have hmoved : ∀ q ∈ table.filter MainPhdr.isLoad, Moved a.new_addr q := by
    intro q hq
    have hmapped := h.mapped q (List.mem_filter.mp hq).1 (hload q hq)
    refine ⟨hgranted.page, (Nat.le_add_right _ _).trans hgranted.below, ?_⟩
    unfold MainPhdr.hi
    omega
  rw [← protectAll_others_iff hmoved hsorted hload]
  constructor
  · intro hprot page hexe
    rw [← hprotected] at hexe
    refine (hprot.others page hexe).imp_right ?_
    rintro ⟨q, hq, hexec, hown⟩
    exact ⟨q, List.mem_filter.mpr ⟨hq, (Bool.and_eq_true_iff.mp hexec).1⟩, hexec, hown⟩
  · intro hothers
    refine ⟨fun ph hph hload page hown hlt => ?_, fun page hexe => ?_⟩
    · have hmem : ph ∈ table.filter MainPhdr.isLoad := List.mem_filter.mpr ⟨hph, hload⟩
      obtain ⟨pre, post, hsplit⟩ := List.append_of_mem hmem
      rw [hprotected, hsplit]
      rw [hsplit] at hmoved hsorted
      refine protectAll_own hmoved hsorted hown fun q hq hle => ?_
      rw [hgranted.mapped q (le_trans (Nat.div_le_div_right (Nat.le_add_right _ _)) hq)
        (hle.trans_lt hlt)]
      exact Option.some_ne_none _
    · rw [hprotected] at hexe
      refine (hothers page hexe).imp_right ?_
      rintro ⟨q, hq, hexec, hown⟩
      exact ⟨q, (List.mem_filter.mp hq).1, hexec, hown⟩

-- Nothing but the image is mapped.
def imageOnly (new_addr : Word) (len : Nat) : Memory := fun page =>
  if new_addr.toNat / 0x1000 ≤ page ∧ page < (new_addr.toNat + pages len) / 0x1000 then some 3 else none

theorem imageOnly_granted {new_addr : Word} {len : Nat} (hpage : 0x1000 ∣ new_addr.toNat)
    (hbelow : new_addr.toNat + pages len ≤ userLimit) :
    GrantedImage (imageOnly new_addr len) new_addr len :=
  ⟨hpage, hbelow, fun _ hle hlt => if_pos ⟨hle, hlt⟩⟩

theorem protections_fullTable :
    Protections (fullArgs.get (by decide)) fullTable (imageLen 0x555555554040#64 0#64 fullTable)
      (imageOnly (fullArgs.get (by decide)).new_addr (imageLen 0x555555554040#64 0#64 fullTable)) := by
  refine (parseArguments_protections_iff (fun pref _ => pref) 0x555555554040#64 0x555555555000#64 0#64
    0x555555554000#64 fullTable _ _ fullTable_mainTable (by decide) (Option.some_get _).symm
    (imageOnly_granted (by decide) (by decide))).mpr ?_
  intro pre ph post hsplit hexec _ _
  have hloads : fullTable.filter MainPhdr.isLoad =
      [⟨.PT_LOAD, PF_R, 0x0#64, 0x600#64⟩, fullCode, nextData] := by decide
  rw [hloads] at hsplit
  rcases pre with _ | ⟨p, _ | ⟨q, _ | ⟨r, pre⟩⟩⟩
  · cases hsplit
    exact absurd hexec (by decide)
  · cases hsplit
    exact .inr ⟨nextData, List.mem_singleton_self _, by decide⟩
  · cases hsplit
    exact absurd hexec (by decide)
  · simp at hsplit

-- The code fills a page, and the next segment leaves out a page.

def gapCode : MainPhdr := ⟨.PT_LOAD, PF_R + PF_X, 0x1000#64, 0x1000#64⟩

def gapTable : List MainPhdr :=
  [⟨.PT_PHDR, PF_R, 0x40#64, 0x1f8#64⟩, ⟨.PT_LOAD, PF_R, 0x0#64, 0x600#64⟩, gapCode, nextData]

def gapArgs : Option MainArgs :=
  parseArguments (fun pref _ => pref) 0x555555554040#64 0x555555555000#64 0#64 gapTable

theorem gapTable_not_protections :
    MainTable 0x555555554040#64 0x555555554000#64 gapTable ∧
      (gapTable.filter MainPhdr.isLoad).Pairwise (fun p q => pages p.hi ≤ q.lo) ∧
      GrantedImage
        (imageOnly (gapArgs.get (by decide)).new_addr (imageLen 0x555555554040#64 0#64 gapTable))
        (gapArgs.get (by decide)).new_addr (imageLen 0x555555554040#64 0#64 gapTable) ∧
      ¬Protections (gapArgs.get (by decide)) gapTable (imageLen 0x555555554040#64 0#64 gapTable)
        (imageOnly (gapArgs.get (by decide)).new_addr (imageLen 0x555555554040#64 0#64 gapTable)) := by
  refine ⟨⟨⟨[], _, _, rfl, rfl, by decide, by decide, by decide⟩, by decide, by decide⟩, by decide,
    imageOnly_granted (by decide) (by decide), fun h => ?_⟩
  have hexe := h.others (nextPage (gapArgs.get (by decide)).new_addr gapCode) (by decide +kernel)
  rcases hexe with hmem | ⟨ph, hph, hexec, hown⟩
  · exact absurd hmem (by decide +kernel)
  · simp only [gapTable, List.mem_cons, List.not_mem_nil, or_false] at hph
    rcases hph with rfl | rfl | rfl | rfl
    · exact absurd hexec (by decide)
    · exact absurd hexec (by decide)
    · exact absurd hown.2 (by decide +kernel)
    · exact absurd hexec (by decide)

end Platypus.Loader
