import Platypus.Loader.MapSegments

-- How many symbols the dynamic symbol table of an object has.

namespace Platypus.Loader

inductive DynTag
  | DT_NULL
  | DT_SYMTAB
  | DT_HASH
  | DT_GNU_HASH
  | other (tag : Word)
  deriving DecidableEq, Repr

structure Dyn where
  d_tag : DynTag
  d_ptr : Word
  deriving DecidableEq, Repr

-- The memory of the process, in words of 32 bits.
abbrev Words := Word → BitVec 32

-- `p[i]` of a pointer to 32-bit words.
def Words.at (mem : Words) (p : Word) (i : Nat) : BitVec 32 := mem (p + 4#64 * .ofNat 64 i)

structure DynScan where
  syms : Word := 0#64
  hash_addr : Word := 0#64
  gnu_hash_addr : Word := 0#64
  deriving DecidableEq, Repr

def DynScan.entry (s : DynScan) (dyn : Dyn) : DynScan :=
  match dyn.d_tag with
  | .DT_SYMTAB => { s with syms := dyn.d_ptr }
  | .DT_HASH => { s with hash_addr := dyn.d_ptr }
  | .DT_GNU_HASH => { s with gnu_hash_addr := dyn.d_ptr }
  | _ => s

-- The loop up to `DT_NULL`; `none` where it is missing.
def scanDynamic : DynScan → List Dyn → Option DynScan
  | _, [] => none
  | s, dyn :: dyns => if dyn.d_tag = .DT_NULL then some s else scanDynamic (s.entry dyn) dyns

-- The table that `DT_GNU_HASH` points to.
structure GnuTable where
  mem : Words
  gnu : Word

namespace GnuTable

variable (t : GnuTable)

def nbuckets : BitVec 32 := t.mem.at t.gnu 0

def symoffset : BitVec 32 := t.mem.at t.gnu 1

def buckets : Word := t.gnu + 4#64 * (4#64 + 2#64 * (t.mem.at t.gnu 2).setWidth 64)

def bucket (i : Nat) : BitVec 32 := t.mem.at t.buckets i

def chains : Word := t.buckets + 4#64 * t.nbuckets.setWidth 64

def chain (idx : BitVec 32) : BitVec 32 := t.mem.at t.chains idx.toNat

def larger (max_sym : BitVec 32) (i : Nat) : BitVec 32 :=
  if t.bucket i > max_sym then t.bucket i else max_sym

def maxSym : BitVec 32 := (List.range t.nbuckets.toNat).foldl t.larger 0#32

-- The index counts modulo 2^32, so that the loop goes on for ever only if no word up to then has
-- its lowest bit set; `none` if it is not over after `fuel` rounds.
def walk : Nat → BitVec 32 → Option (BitVec 32)
  | 0, _ => none
  | fuel + 1, idx =>
    if t.chain idx &&& 1#32 ≠ 0#32 then some (t.symoffset + idx + 1#32)
    else walk fuel (idx + 1#32)

def nsyms (fuel : Nat) : Option (BitVec 32) :=
  if t.maxSym < t.symoffset then some t.symoffset
  else t.walk fuel (t.maxSym - t.symoffset)

end GnuTable

def getDynsymtabAndCountFromLinkMap (mem : Words) (fuel : Nat) (l_ld : List Dyn) :
    Option (Word × Nat) := do
  let s ← scanDynamic {} l_ld
  let nsyms ←
    if s.hash_addr ≠ 0#64 then some (mem.at s.hash_addr 1)
    else if s.gnu_hash_addr ≠ 0#64 then GnuTable.nsyms ⟨mem, s.gnu_hash_addr⟩ fuel
    else some 0#32
  return (s.syms, nsyms.toNat)

-- A dynamic section: its entries before `DT_NULL`.
structure DynamicSection where
  entries : List Dyn
  noNull : ∀ d ∈ entries, d.d_tag ≠ .DT_NULL

namespace DynamicSection

variable (d : DynamicSection)

def l_ld : List Dyn := d.entries ++ [⟨.DT_NULL, 0#64⟩]

-- The pointer of the last entry with a tag, 0 if there is none.
def ptr (tag : DynTag) : Word :=
  ((d.entries.filter fun e => e.d_tag = tag).getLast?.map Dyn.d_ptr).getD 0#64

end DynamicSection

-- The word of the chains that belongs to a symbol of a `DT_GNU_HASH` table.
def GnuTable.chainOf (t : GnuTable) (i : Nat) : BitVec 32 := t.chain (.ofNat 32 (i - t.symoffset.toNat))

-- A table for `n` symbols: the null symbol is not hashed, a bucket is empty or holds the first
-- symbol of its chain, the chains are runs of neighbours that cover the hashed symbols, and the
-- last word of the last chain has its lowest bit set.
structure GnuTable.WellFormed (t : GnuTable) (n : Nat) : Prop where
  lt : n < 2 ^ 32
  pos : 0 < t.symoffset.toNat
  le : t.symoffset.toNat ≤ n
  bucket : ∀ b < t.nbuckets.toNat, t.bucket b = 0#32 ∨
    t.symoffset.toNat ≤ (t.bucket b).toNat ∧ (t.bucket b).toNat < n
  covered : ∀ i, t.symoffset.toNat ≤ i → i < n → ∃ b < t.nbuckets.toNat,
    t.bucket b ≠ 0#32 ∧ (t.bucket b).toNat ≤ i ∧
      ∀ j, (t.bucket b).toNat ≤ j → j < i → t.chainOf j &&& 1#32 = 0#32
  last : t.symoffset.toNat < n → t.chainOf (n - 1) &&& 1#32 ≠ 0#32

-- The second word of a `DT_HASH` table is the number of symbols.
structure SysvWellFormed (mem : Words) (hashtab : Word) (n : Nat) : Prop where
  nchain : (mem.at hashtab 1).toNat = n

-- A section that has a table for `n` symbols.
inductive DynamicSection.Describes (mem : Words) (d : DynamicSection) (n : Nat) : Prop
  | sysv : d.ptr .DT_HASH ≠ 0#64 → SysvWellFormed mem (d.ptr .DT_HASH) n → Describes mem d n
  | gnu : d.ptr .DT_HASH = 0#64 → d.ptr .DT_GNU_HASH ≠ 0#64 →
      GnuTable.WellFormed ⟨mem, d.ptr .DT_GNU_HASH⟩ n → Describes mem d n

namespace GnuTable

variable {t : GnuTable}

theorem larger_ge (max_sym : BitVec 32) (i : Nat) :
    max_sym.toNat ≤ (t.larger max_sym i).toNat ∧ (t.bucket i).toNat ≤ (t.larger max_sym i).toNat := by
  unfold larger
  split
  · rename_i h
    exact ⟨(BitVec.lt_def.mp h).le, le_rfl⟩
  · rename_i h
    exact ⟨le_rfl, Nat.le_of_not_lt fun hlt => h (BitVec.lt_def.mpr hlt)⟩

-- The largest bucket is one of them.
theorem foldl_larger (bs : List Nat) (start : BitVec 32) :
    start.toNat ≤ (bs.foldl t.larger start).toNat ∧
      (∀ b ∈ bs, (t.bucket b).toNat ≤ (bs.foldl t.larger start).toNat) ∧
        (bs.foldl t.larger start = start ∨ ∃ b ∈ bs, bs.foldl t.larger start = t.bucket b) := by
  induction bs generalizing start with
  | nil => exact ⟨le_rfl, nofun, .inl rfl⟩
  | cons b bs ih =>
    rw [List.foldl_cons]
    obtain ⟨hstart, hall, hone⟩ := ih (t.larger start b)
    obtain ⟨hge, hgeb⟩ := larger_ge (t := t) start b
    refine ⟨hge.trans hstart, fun b' hb' => ?_, ?_⟩
    · rcases List.mem_cons.mp hb' with rfl | hb'
      · exact hgeb.trans hstart
      · exact hall b' hb'
    · rcases hone with hone | ⟨b', hb', hone⟩
      · rw [hone, larger]
        split
        · exact .inr ⟨b, List.mem_cons_self, rfl⟩
        · exact .inl rfl
      · exact .inr ⟨b', List.mem_cons_of_mem b hb', hone⟩

theorem bucket_le_maxSym {b : Nat} (hb : b < t.nbuckets.toNat) :
    (t.bucket b).toNat ≤ t.maxSym.toNat :=
  (foldl_larger _ _).2.1 b (List.mem_range.mpr hb)

theorem WellFormed.maxSym {n : Nat} (h : t.WellFormed n) :
    t.maxSym = 0#32 ∨ t.symoffset.toNat ≤ t.maxSym.toNat ∧ t.maxSym.toNat < n := by
  rcases (foldl_larger (t := t) (List.range t.nbuckets.toNat) 0#32).2.2 with hzero | ⟨b, hb, hmax⟩
  · exact .inl hzero
  · have hb' := h.bucket b (List.mem_range.mp hb)
    rw [← hmax] at hb'
    exact hb'

-- The walk ends at the first set bit.
theorem walk_eq {k fuel : Nat} {idx : BitVec 32} (hfuel : k < fuel)
    (hclear : ∀ j < k, t.chain (idx + .ofNat 32 j) &&& 1#32 = 0#32)
    (hset : t.chain (idx + .ofNat 32 k) &&& 1#32 ≠ 0#32) :
    t.walk fuel idx = some (t.symoffset + (idx + .ofNat 32 k) + 1#32) := by
  induction k generalizing fuel idx with
  | zero =>
    cases fuel with
    | zero => exact absurd hfuel (Nat.not_lt_zero 0)
    | succ fuel =>
      rw [walk, if_pos (by simpa using hset)]
      simp
  | succ k ih =>
    cases fuel with
    | zero => exact absurd hfuel (Nat.not_lt_zero _)
    | succ fuel =>
      have hnext (j : Nat) : idx + 1#32 + .ofNat 32 j = idx + .ofNat 32 (j + 1) := by
        rw [Nat.add_comm j 1, BitVec.ofNat_add, BitVec.add_assoc]
      have h0 : t.chain idx &&& 1#32 = 0#32 := by simpa using hclear 0 (Nat.succ_pos k)
      rw [walk, if_neg (not_not.mpr h0), ih (Nat.lt_of_succ_lt_succ hfuel), hnext]
      · intro j hj
        rw [hnext]
        exact hclear (j + 1) (Nat.succ_lt_succ hj)
      · rw [hnext]
        exact hset

-- Nothing is hashed.
theorem WellFormed.nsyms_empty {n : Nat} (h : t.WellFormed n) (heq : t.symoffset.toNat = n)
    (fuel : Nat) : t.nsyms fuel = some t.symoffset := by
  have hmax : t.maxSym = 0#32 := h.maxSym.resolve_right (by omega)
  have hpos := h.pos
  rw [nsyms, if_pos]
  rw [BitVec.lt_def, hmax]
  exact hpos

-- The chain of the largest bucket goes on to the last symbol: the chain that covers it starts no
-- later.
theorem WellFormed.nsyms_hashed {n : Nat} (h : t.WellFormed n) (hlt : t.symoffset.toNat < n)
    {fuel : Nat} (hfuel : n ≤ fuel) : t.nsyms fuel = some (.ofNat 32 n) := by
  have hn := h.lt
  obtain ⟨b, hb, hne, hle, hclear⟩ := h.covered (n - 1) (by omega) (by omega)
  have hbucket := (h.bucket b hb).resolve_left hne
  have hbmax := bucket_le_maxSym hb
  obtain ⟨hmax, hmaxlt⟩ : t.symoffset.toNat ≤ t.maxSym.toNat ∧ t.maxSym.toNat < n := by
    refine h.maxSym.resolve_left fun hzero => ?_
    rw [hzero] at hbmax
    have hpos := h.pos
    simp only [BitVec.toNat_ofNat] at hbmax
    omega
  have hstart : ¬ t.maxSym < t.symoffset := by
    rw [BitVec.lt_def]
    omega
  -- the index of a symbol, counted from the largest bucket on
  have hindex (j : Nat) (hj : t.maxSym.toNat + j < n) :
      t.maxSym - t.symoffset + .ofNat 32 j =
        .ofNat 32 (t.maxSym.toNat + j - t.symoffset.toNat) := by
    apply BitVec.eq_of_toNat_eq
    have hlt₁ := t.maxSym.isLt
    have hlt₂ := t.symoffset.isLt
    simp only [BitVec.toNat_add, BitVec.toNat_sub, BitVec.toNat_ofNat]
    omega
  rw [nsyms, if_neg hstart, walk_eq (k := n - 1 - t.maxSym.toNat) (by omega)]
  · rw [hindex _ (by omega), Option.some_inj]
    apply BitVec.eq_of_toNat_eq
    simp only [BitVec.toNat_add, BitVec.toNat_ofNat]
    omega
  · intro j hj
    rw [hindex j (by omega)]
    exact hclear (t.maxSym.toNat + j) (by omega) (by omega)
  · rw [hindex _ (by omega)]
    have hlast := h.last hlt
    rw [chainOf] at hlast
    have hsame : t.maxSym.toNat + (n - 1 - t.maxSym.toNat) - t.symoffset.toNat =
        n - 1 - t.symoffset.toNat := by omega
    rw [hsame]
    exact hlast

theorem WellFormed.nsyms_eq {n : Nat} (h : t.WellFormed n) {fuel : Nat} (hfuel : n ≤ fuel) :
    t.nsyms fuel = some (.ofNat 32 n) := by
  rcases h.le.lt_or_eq with hlt | heq
  · exact h.nsyms_hashed hlt hfuel
  · rw [h.nsyms_empty heq, Option.some_inj]
    apply BitVec.eq_of_toNat_eq
    rw [BitVec.toNat_ofNat, heq, Nat.mod_eq_of_lt h.lt]

end GnuTable

namespace DynamicSection

variable (d : DynamicSection)

theorem scanDynamic_append (s : DynScan) (entries rest : List Dyn)
    (h : ∀ e ∈ entries, e.d_tag ≠ .DT_NULL) :
    scanDynamic s (entries ++ rest) = scanDynamic (entries.foldl DynScan.entry s) rest := by
  induction entries generalizing s with
  | nil => rfl
  | cons e entries ih =>
    rw [List.cons_append, scanDynamic, if_neg (h e List.mem_cons_self),
      ih _ fun e' he' => h e' (List.mem_cons_of_mem e he')]
    rfl

-- A pointer that only the entries of one tag set is the one of the last of them.
theorem foldl_entry (field : DynScan → Word) (tag : DynTag)
    (hfield : ∀ s e, field (s.entry e) = if e.d_tag = tag then e.d_ptr else field s)
    (entries : List Dyn) (s : DynScan) :
    field (entries.foldl DynScan.entry s) =
      ((entries.filter fun e => e.d_tag = tag).getLast?.map Dyn.d_ptr).getD (field s) := by
  induction entries using List.reverseRecOn with
  | nil => rfl
  | append_singleton entries e ih =>
    rw [List.foldl_append, List.foldl_cons, List.foldl_nil, hfield, List.filter_append]
    by_cases htag : e.d_tag = tag
    · simp [htag]
    · simp [htag, ih]

theorem scanDynamic_l_ld : scanDynamic {} d.l_ld =
    some ⟨d.ptr .DT_SYMTAB, d.ptr .DT_HASH, d.ptr .DT_GNU_HASH⟩ := by
  have hset (s : DynScan) (e : Dyn) :
      (s.entry e).syms = (if e.d_tag = .DT_SYMTAB then e.d_ptr else s.syms) ∧
        (s.entry e).hash_addr = (if e.d_tag = .DT_HASH then e.d_ptr else s.hash_addr) ∧
          (s.entry e).gnu_hash_addr =
            if e.d_tag = .DT_GNU_HASH then e.d_ptr else s.gnu_hash_addr := by
    obtain ⟨tag, ptr⟩ := e
    cases tag <;> simp [DynScan.entry]
  rw [l_ld, scanDynamic_append _ _ _ d.noNull, scanDynamic, if_pos rfl, Option.some_inj]
  have hsyms := foldl_entry DynScan.syms .DT_SYMTAB (fun s e => (hset s e).1) d.entries {}
  have hhash := foldl_entry DynScan.hash_addr .DT_HASH (fun s e => (hset s e).2.1) d.entries {}
  have hgnu := foldl_entry DynScan.gnu_hash_addr .DT_GNU_HASH (fun s e => (hset s e).2.2) d.entries {}
  exact congr (congr (congrArg DynScan.mk hsyms) hhash) hgnu

end DynamicSection

-- Whatever the number of buckets and the size of the filter, the symbols are counted.
theorem getDynsymtabAndCount_eq (mem : Words) (d : DynamicSection) (n : Nat)
    (h : d.Describes mem n) (fuel : Nat) (hfuel : n ≤ fuel) :
    getDynsymtabAndCountFromLinkMap mem fuel d.l_ld = some (d.ptr .DT_SYMTAB, n) := by
  rw [getDynsymtabAndCountFromLinkMap, d.scanDynamic_l_ld]
  cases h with
  | sysv hptr hwell =>
    simp [hptr, hwell.nchain]
  | gnu hnone hptr hwell =>
    have hlt := hwell.lt
    simpa [hnone, hptr, hwell.nsyms_eq hfuel] using hlt

-- A table with two buckets, one of them empty, and a chain of two symbols after the null symbol.

def twoSymbols : Words := fun a =>
  ([2#32, 1#32, 1#32, 6#32, 0#32, 0#32, 1#32, 0#32, 0x10#32, 0x11#32] : List (BitVec 32)).getD
    ((a - 0x1000#64).toNat / 4) 0#32

def twoSymbolsSection : DynamicSection where
  entries := [⟨.DT_SYMTAB, 0x2000#64⟩, ⟨.DT_GNU_HASH, 0x1000#64⟩]
  noNull := by simp

theorem twoSymbols_wellFormed : GnuTable.WellFormed ⟨twoSymbols, 0x1000#64⟩ 3 where
  lt := by decide
  pos := by decide
  le := by decide
  bucket := by decide
  covered := by
    intro i hi hlt
    refine ⟨0, by decide, by decide, hi, fun j hj hji => ?_⟩
    have hone : 1 ≤ j := hj
    obtain rfl : j = 1 := by omega
    decide
  last := by decide

theorem getDynsymtabAndCount_twoSymbols :
    getDynsymtabAndCountFromLinkMap twoSymbols 3 twoSymbolsSection.l_ld = some (0x2000#64, 3) :=
  getDynsymtabAndCount_eq twoSymbols twoSymbolsSection 3
    (.gnu (by decide) (by decide) twoSymbols_wellFormed) 3 le_rfl

end Platypus.Loader
