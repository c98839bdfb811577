import Platypus.Loader.LoadCmds
import Platypus.Loader.Sequence

namespace Platypus.Loader

open State

-- The address space that a process has reserved, as the requests made so far leave it.

-- `PAGE_ALIGN`
def pages (n : Nat) : Nat := (n + 0xfff) / 0x1000 * 0x1000

-- The addresses from the first number up to the second.
abbrev Range := Nat × Nat

def Range.Apart (r q : Range) : Prop := r.2 ≤ q.1 ∨ q.2 ≤ r.1

instance (r q : Range) : Decidable (r.Apart q) := inferInstanceAs (Decidable (_ ∨ _))

theorem Range.Apart.mono {r r' q : Range} (h : r.Apart q) (hlo : r.1 ≤ r'.1) (hhi : r'.2 ≤ r.2) :
    r'.Apart q := by
  rcases h with h | h
  · exact .inl (hhi.trans h)
  · exact .inr (h.trans hlo)

-- What is left of `r` without the addresses of `q`.
def Range.cut (q r : Range) : List Range :=
  if q.Apart r then [r]
  else [(r.1, min r.2 q.1), (max r.1 q.2, r.2)].filter fun piece => piece.1 < piece.2

def rangeOf (addr len : Word) : Range := (addr.toNat, addr.toNat + pages len.toNat)

-- A mapping at a fixed address replaces part of what is reserved; others are new reservations.
def reserve (live : List Range) : Call × Word → List Range
  | (.mmap _ len _ false _ _ _, ret) =>
    if ret = MAP_FAILED then live else live ++ [rangeOf ret len]
  | (.munmap addr len, ret) =>
    if ret = 0#64 then live.flatMap (rangeOf addr len).cut else live
  | _ => live

def reserved (t : Trace) : List Range := t.foldl reserve []

def Process.reserved (p : Process) : List Range := Loader.reserved p.trace

def userLimit : Nat := 2 ^ 47

-- The rules for these requests: what the kernel grants is free and in user space.
structure Linux (os : Kernel) : Prop where
  mmap : ∀ t addr len prot anonymous fd off,
    os t (.mmap addr len prot false anonymous fd off) ≠ MAP_FAILED →
      0 < len.toNat ∧
      0x1000 ∣ (os t (.mmap addr len prot false anonymous fd off)).toNat ∧
      0 < (os t (.mmap addr len prot false anonymous fd off)).toNat ∧
      (rangeOf (os t (.mmap addr len prot false anonymous fd off)) len).2 ≤ userLimit ∧
      ∀ r ∈ reserved t, (rangeOf (os t (.mmap addr len prot false anonymous fd off)) len).Apart r
  mmap_fixed : ∀ t addr len prot anonymous fd off,
    os t (.mmap addr len prot true anonymous fd off) ≠ MAP_FAILED →
      os t (.mmap addr len prot true anonymous fd off) = addr ∧ 0 < len.toNat ∧
      (rangeOf addr len).2 ≤ userLimit
  munmap : ∀ t addr len, 0x1000 ∣ addr.toNat → 0 < len.toNat → (rangeOf addr len).2 ≤ userLimit →
    os t (.munmap addr len) = 0#64

section Steps

variable {os : Kernel} {p p' : Process}

theorem reserved_append (t : Trace) (call : Call) (ret : Word) :
    reserved (t ++ [(call, ret)]) = reserve (reserved t) (call, ret) := by
  rw [reserved, List.foldl_append]
  rfl

theorem request_ok {call : Call} {a : Word} (h : request os call p = .ok a p') :
    a = os p.trace call ∧ p'.reserved = reserve p.reserved (call, a) := by
  cases h
  exact ⟨rfl, reserved_append _ _ _⟩

theorem request_mmap_fixed {addr len off a : Word} {prot : Nat} {anonymous : Bool} {fd : Int}
    (h : request os (.mmap addr len prot true anonymous fd off) p = .ok a p') :
    p'.reserved = p.reserved :=
  (request_ok h).2

theorem request_mprotect {addr len a : Word} {prot : Nat}
    (h : request os (.mprotect addr len prot) p = .ok a p') : p'.reserved = p.reserved :=
  (request_ok h).2

theorem closeHoles_reserved (os : Kernel) (o : Object) (l : LinkMap) :
    Keeps Process.reserved (closeHoles os o l) := by
  refine Keeps.ite (Keeps.ite (Keeps.throw _)
    (Keeps.bind (fun _ _ _ h => request_mprotect h) fun _ => ?_)) (Keeps.pure _)
  exact Keeps.ite (Keeps.throw _) (Keeps.pure _)

theorem mapFixed_reserved (os : Kernel) (fd : Int) (l_addr : Word) (mapped : Bool) (c : LoadCmd) :
    Keeps Process.reserved (mapFixed os fd l_addr mapped c) := by
  refine Keeps.ite (Keeps.bind (fun _ _ _ h => request_mmap_fixed h) fun _ => ?_) (Keeps.pure _)
  exact Keeps.ite (Keeps.throw _) (Keeps.pure _)

theorem zeroFill_reserved (os : Kernel) (l_addr : Word) (c : LoadCmd) :
    Keeps Process.reserved (zeroFill os l_addr c) := by
  refine Keeps.ite (Keeps.bind ?_ fun _ => ?_) (Keeps.pure _)
  · refine Keeps.ite (Keeps.bind (fun _ _ _ h => request_mprotect h) fun ret => ?_) (Keeps.pure _)
    exact Keeps.ite (Keeps.throw _)
      (Keeps.bind (fun _ _ _ h => request_mprotect h) fun _ => Keeps.pure _)
  · refine Keeps.ite (Keeps.bind (fun _ _ _ h => request_mmap_fixed h) fun _ => ?_) (Keeps.pure _)
    exact Keeps.ite (Keeps.throw _) (Keeps.pure _)

theorem mapLoop_reserved (os : Kernel) (fd : Int) (header : Ehdr) (mapped : Bool)
    (cs : List LoadCmd) (l : LinkMap) :
    Keeps Process.reserved (mapLoop os fd header mapped cs l) := by
  induction cs generalizing mapped l with
  | nil => exact Keeps.pure _
  | cons c cs ih =>
    exact Keeps.bind (mapFixed_reserved _ _ _ _ _) fun _ =>
      Keeps.bind (zeroFill_reserved _ _ _) fun _ => ih _ _

end Steps

-- The arithmetic of pages.

theorem le_pages (n : Nat) : n ≤ pages n := by
  unfold pages
  omega

theorem pages_pos {n : Nat} (h : 0 < n) : 0 < pages n := h.trans_le (le_pages n)

theorem dvd_pages (n : Nat) : 0x1000 ∣ pages n := Nat.dvd_mul_left _ _

theorem pages_of_dvd {n : Nat} (h : 0x1000 ∣ n) : pages n = n := by
  unfold pages
  omega

theorem pages_add_of_dvd {m : Nat} (n : Nat) (h : 0x1000 ∣ m) : pages (m + n) = m + pages n := by
  unfold pages
  omega

theorem neg_two_pow (x : Word) {k : Nat} (hx : x.toNat = 2 ^ k) :
    -x = BitVec.allOnes 64 <<< k := by
  have hk : k < 64 := (Nat.pow_lt_pow_iff_right Nat.one_lt_two).mp (hx ▸ x.isLt)
  apply BitVec.eq_of_toNat_eq
  rw [BitVec.toNat_neg, hx, BitVec.toNat_shiftLeft, BitVec.toNat_allOnes, Nat.shiftLeft_eq,
    Nat.sub_mul, Nat.one_mul]
  have hsplit : 2 ^ 64 * 2 ^ k - 2 ^ k = (2 ^ 64 - 2 ^ k) + 2 ^ 64 * (2 ^ k - 1) := by
    have hpos := Nat.two_pow_pos k
    have hle : 2 ^ k ≤ 2 ^ 64 := Nat.pow_le_pow_right (by decide) hk.le
    rw [Nat.mul_sub, Nat.mul_one]
    have hmul : 2 ^ 64 ≤ 2 ^ 64 * 2 ^ k := Nat.le_mul_of_pos_right _ hpos
    omega
  rw [hsplit, Nat.add_mul_mod_self_left]

theorem alignUp_two_pow (x align : Word) {k : Nat} (hk : align.toNat = 2 ^ k)
    (h : x.toNat + 2 ^ k ≤ 2 ^ 64) :
    (alignUp x align).toNat = 2 ^ k * ((x.toNat + (2 ^ k - 1)) / 2 ^ k) := by
  have hpos := Nat.two_pow_pos k
  have hadd : (x + align - 1#64).toNat = x.toNat + (2 ^ k - 1) := by
    have hx := x.isLt
    have ha := align.isLt
    rw [BitVec.toNat_sub, BitVec.toNat_add, BitVec.toNat_ofNat, hk]
    omega
  rw [alignUp, alignDown, neg_two_pow align hk, Bits.toNat_and_high, hadd]

-- Cutting ranges.

theorem cut_append {live : List Range} {q r : Range} (h : ∀ s ∈ live, q.Apart s) :
    (live ++ [r]).flatMap q.cut = live ++ q.cut r := by
  rw [List.flatMap_append, List.flatMap_singleton]
  congr 1
  induction live with
  | nil => rfl
  | cons s live ih =>
    rw [List.flatMap_cons, Range.cut, if_pos (h s List.mem_cons_self),
      ih fun s hs => h s (List.mem_cons_of_mem _ hs)]
    rfl

theorem cut_self {lo hi : Nat} (h : lo < hi) : Range.cut (lo, hi) (lo, hi) = [] := by
  have hapart : ¬Range.Apart (lo, hi) (lo, hi) := by
    simp only [Range.Apart]
    omega
  rw [Range.cut, if_neg hapart]
  simp

theorem cut_head {lo mid hi : Nat} (h : lo < mid) (h' : mid < hi) :
    Range.cut (lo, mid) (lo, hi) = [(mid, hi)] := by
  have hapart : ¬Range.Apart (lo, mid) (lo, hi) := by
    simp only [Range.Apart]
    omega
  rw [Range.cut, if_neg hapart]
  simp [Nat.max_eq_right h.le, h']

theorem cut_tail {lo mid hi : Nat} (h : lo < mid) (h' : mid < hi) :
    Range.cut (mid, hi) (lo, hi) = [(lo, mid)] := by
  have hapart : ¬Range.Apart (mid, hi) (lo, hi) := by
    simp only [Range.Apart]
    omega
  rw [Range.cut, if_neg hapart]
  simp [Nat.min_eq_right h'.le, h]

section Map

variable {os : Kernel} (hos : Linux os) {p p' : Process}

include hos

theorem request_munmap {addr len a : Word} (h : request os (.munmap addr len) p = .ok a p')
    (hpage : 0x1000 ∣ addr.toNat) (hlen : 0 < len.toNat) (hlimit : (rangeOf addr len).2 ≤ userLimit) :
    p'.reserved = p.reserved.flatMap (rangeOf addr len).cut := by
  obtain ⟨rfl, hlive⟩ := request_ok h
  rw [hlive, hos.munmap _ _ _ hpage hlen hlimit]
  rfl

theorem unmapRest_ok {start delta : Word} {u : Unit} (h : unmapRest os start delta p = .ok u p')
    (hpage : 0x1000 ∣ start.toNat) (hlimit : (rangeOf start delta).2 ≤ userLimit) :
    (delta.toNat = 0 ∧ p'.reserved = p.reserved) ∨
      (0 < delta.toNat ∧ p'.reserved = p.reserved.flatMap (rangeOf start delta).cut) := by
  rcases ite_ok.mp h with ⟨hdelta, h⟩ | ⟨hdelta, h⟩
  · obtain ⟨_, p₁, h₁, h⟩ := bind_ok.mp h
    obtain ⟨_, rfl⟩ := pure_ok.mp h
    have hpos : 0 < delta.toNat := Nat.pos_of_ne_zero fun hzero => hdelta (BitVec.eq_of_toNat_eq hzero)
    exact .inr ⟨hpos, request_munmap hos h₁ hpage hpos hlimit⟩
  · obtain ⟨_, rfl⟩ := pure_ok.mp h
    rw [not_not] at hdelta
    exact .inl ⟨by rw [hdelta]; rfl, rfl⟩

-- A mapping that is granted is one new reservation, away from the others.
theorem request_mmap {addr len off a : Word} {prot : Nat} {anonymous : Bool} {fd : Int}
    (h : request os (.mmap addr len prot false anonymous fd off) p = .ok a p') :
    (a = MAP_FAILED ∧ p'.reserved = p.reserved) ∨
      (a ≠ MAP_FAILED ∧ p'.reserved = p.reserved ++ [rangeOf a len] ∧ 0 < len.toNat ∧
        0x1000 ∣ a.toNat ∧ 0 < a.toNat ∧ (rangeOf a len).2 ≤ userLimit ∧
        ∀ r ∈ p.reserved, (rangeOf a len).Apart r) := by
  obtain ⟨rfl, hlive⟩ := request_ok h
  by_cases hfail : os p.trace (.mmap addr len prot false anonymous fd off) = MAP_FAILED
  · refine .inl ⟨hfail, hlive.trans ?_⟩
    rw [reserve, if_pos hfail]
  · refine .inr ⟨hfail, hlive.trans ?_, hos.mmap _ _ _ _ _ _ _ hfail⟩
    rw [reserve, if_neg hfail]

end Map

-- The bounds of the second mapping, in the larger reservation that leaves room for aligning it.
theorem aligned_bounds {start len align total q : Nat} (halign : 0x1000 ∣ align)
    (hstart : 0x1000 ∣ start) (hpos : 0 < align) (hq : q = (start + (align - 1)) / align)
    (htotal : total = if align ≤ len then len + align else 2 * align) :
    start ≤ align * q ∧ 0x1000 ∣ align * q ∧ align * q + pages len < start + total := by
  have hdvd : 0x1000 ∣ align * q := halign.mul_right q
  have hdiv := Nat.div_add_mod (start + (align - 1)) align
  have hmod := Nat.mod_lt (start + (align - 1)) hpos
  rw [← hq] at hdiv
  generalize align * q = r at *
  obtain ⟨a, rfl⟩ := halign
  obtain ⟨b, rfl⟩ := hstart
  obtain ⟨c, rfl⟩ := hdvd
  unfold pages
  split at htotal <;> omega

-- Segments are aligned to a power of two, if to more than a page.
def AlignedCmd (c : LoadCmd) : Prop := c.mapalign ≤ dlPagesize ∨ ∃ k, c.mapalign.toNat = 2 ^ k

theorem eq_two_pow_of_powerof2 {x : Word} (h : powerof2 x = true) (hx : x ≠ 0#64) :
    ∃ k, x.toNat = 2 ^ k := by
  have hpos : x.toNat ≠ 0 := fun hzero => hx (BitVec.eq_of_toNat_eq hzero)
  have hand : (x.toNat - 1) &&& x.toNat = 0 := by
    have hnat := congrArg BitVec.toNat (of_decide_eq_true h)
    have hone : 1#64 ≤ x := BitVec.le_def.mpr (Nat.one_le_iff_ne_zero.mpr hpos)
    rw [BitVec.toNat_and, BitVec.toNat_sub_of_le hone] at hnat
    exact hnat
  refine ⟨x.toNat.log2, ?_⟩
  have hle := Nat.log2_self_le hpos
  have hlt : x.toNat < 2 ^ (x.toNat.log2 + 1) := Nat.lt_log2_self
  -- otherwise the highest bit of the number is also set in its predecessor
  by_contra hne
  have hbit : ((x.toNat - 1) &&& x.toNat).testBit x.toNat.log2 = true := by
    rw [Nat.testBit_and, Nat.testBit_of_two_pow_le_and_two_pow_add_one_gt hle hlt,
      Nat.testBit_of_two_pow_le_and_two_pow_add_one_gt (by omega) (by omega)]
    rfl
  rw [hand, Nat.zero_testBit] at hbit
  exact absurd hbit Bool.false_ne_true

theorem scanPhdr_align (s s' : Scan) (ph : Phdr)
    (hs : s.p_align_max = 0#64 ∨ powerof2 s.p_align_max = true)
    (h : scanPhdr s ph = .ok s') : s'.p_align_max = 0#64 ∨ powerof2 s'.p_align_max = true := by
  unfold scanPhdr at h
  split at h
  · cases h
    exact hs
  · split at h
    · cases h
    · cases h
      dsimp only
      split
      · rename_i halign
        exact .inr halign.1
      · exact hs

theorem scanPhdrs_align (s s' : Scan) (phs : List Phdr)
    (hs : s.p_align_max = 0#64 ∨ powerof2 s.p_align_max = true)
    (h : scanPhdrs s phs = .ok s') : s'.p_align_max = 0#64 ∨ powerof2 s'.p_align_max = true :=
  scanPhdrs_keeps scanPhdr_align hs h

theorem objectOf_mapalign (fd : Int) (header : Ehdr) (type : ElfType) (phdr : List Phdr) (o : Object)
    (h : objectOf fd header type phdr = .ok o) :
    o.c.mapalign = 0#64 ∨ ∃ k, o.c.mapalign.toNat = 2 ^ k := by
  unfold objectOf at h
  split at h
  · cases h
  · rename_i s hs
    split at h
    · cases h
    · rename_i c cs hmap
      cases h
      have hc : c.mapalign = s.p_align_max := by
        have hmem : c ∈ s.loadcmds.map fun c => { c with mapalign := s.p_align_max } := by
          rw [hmap]
          exact List.mem_cons_self
        obtain ⟨d, -, rfl⟩ := List.mem_map.mp hmem
        rfl
      rw [hc]
      by_cases hzero : s.p_align_max = 0#64
      · exact .inl hzero
      · exact .inr (eq_two_pow_of_powerof2
          ((scanPhdrs_align {} s phdr (.inl rfl) hs).resolve_left hzero) hzero)

-- The length of the larger reservation does not wrap, since both mappings are granted.
theorem maplen_toNat {align len : Word} {k : Nat} (hk : align.toNat = 2 ^ k)
    (hpos : 0 < (if align ≤ len then len + align else 2#64 * align).toNat)
    (hlen : len.toNat ≤ userLimit) :
    (if align ≤ len then len + align else 2#64 * align).toNat =
      if align.toNat ≤ len.toNat then len.toNat + align.toNat else 2 * align.toNat := by
  unfold userLimit at hlen
  by_cases hle : align ≤ len
  · have hle' := BitVec.le_def.mp hle
    rw [if_pos hle, if_pos hle', BitVec.toNat_add]
    omega
  · have hle' : ¬align.toNat ≤ len.toNat := fun h => hle (BitVec.le_def.mpr h)
    rw [if_neg hle, BitVec.toNat_mul, hk] at hpos
    rw [if_neg hle, if_neg hle', BitVec.toNat_mul, hk]
    have hlt : k < 64 := (Nat.pow_lt_pow_iff_right Nat.one_lt_two).mp (hk ▸ align.isLt)
    have hne : k ≠ 63 := by
      rintro rfl
      exact absurd hpos (by decide)
    have hbound : 2 ^ k ≤ 2 ^ 62 := Nat.pow_le_pow_right (by decide) (by omega)
    change (2 * 2 ^ k) % 2 ^ 64 = 2 * 2 ^ k
    omega

-- The unused regions before and after the part that is kept.

theorem rangeOf_before {start r : Word} (hstart : 0x1000 ∣ start.toNat) (hr : 0x1000 ∣ r.toNat)
    (hle : start.toNat ≤ r.toNat) : rangeOf start (r - start) = (start.toNat, r.toNat) := by
  have hsub : (r - start).toNat = r.toNat - start.toNat := by
    rw [BitVec.toNat_sub]
    omega
  rw [rangeOf, hsub, pages_of_dvd (Nat.dvd_sub hr hstart)]
  congr 1
  omega

theorem alignUp_end {r maplength : Word} (hr : 0x1000 ∣ r.toNat)
    (hlimit : r.toNat + pages maplength.toNat ≤ userLimit) :
    (alignUp (r + maplength) dlPagesize).toNat = r.toNat + pages maplength.toNat := by
  have hpages := le_pages maplength.toNat
  unfold userLimit at hlimit
  have hadd : (r + maplength).toNat = r.toNat + maplength.toNat := by
    rw [BitVec.toNat_add]
    omega
  have hroom : (r + maplength).toNat + 2 ^ 12 ≤ 2 ^ 64 := by omega
  rw [alignUp_two_pow (r + maplength) dlPagesize (rfl : dlPagesize.toNat = 2 ^ 12) hroom, hadd,
    ← pages_add_of_dvd _ hr, pages, Nat.mul_comm]
  rfl

theorem rangeOf_after {start maplen lo : Word} (hstart : 0x1000 ∣ start.toNat)
    (hlo : 0x1000 ∣ lo.toNat) (hlt : lo.toNat < start.toNat + maplen.toNat)
    (hlimit : (rangeOf start maplen).2 ≤ userLimit) :
    0 < (start + maplen - lo).toNat ∧
      rangeOf lo (start + maplen - lo) = (lo.toNat, (rangeOf start maplen).2) := by
  have htotal := le_pages maplen.toNat
  simp only [rangeOf, userLimit] at hlimit
  have hsub : (start + maplen - lo).toNat = start.toNat + maplen.toNat - lo.toNat := by
    rw [BitVec.toNat_sub, BitVec.toNat_add]
    omega
  refine ⟨by omega, ?_⟩
  rw [rangeOf, rangeOf, hsub]
  congr 1
  rw [← pages_add_of_dvd _ hlo, ← pages_add_of_dvd _ hstart]
  congr 1
  omega

-- Of the larger reservation, only the part between the two unused regions is kept.
theorem unmapSides_reserved {os : Kernel} (hos : Linux os) {start r maplen maplength : Word}
    {live : List Range} {p p₁ p' : Process} {u v : Unit} (hstart : 0x1000 ∣ start.toNat)
    (hr : 0x1000 ∣ r.toNat) (hlen : 0 < maplength.toNat) (hle : start.toNat ≤ r.toNat)
    (hlt : r.toNat + pages maplength.toNat < start.toNat + maplen.toNat)
    (hlimit : (rangeOf start maplen).2 ≤ userLimit)
    (hlive : p.reserved = live ++ [rangeOf start maplen])
    (hapart : ∀ s ∈ live, (rangeOf start maplen).Apart s)
    (h₁ : unmapRest os start (r - start) p = .ok u p₁)
    (h₂ : unmapRest os (alignUp (r + maplength) dlPagesize)
      (start + maplen - alignUp (r + maplength) dlPagesize) p₁ = .ok v p') :
    p'.reserved = live ++ [rangeOf r maplength] := by
  have hpos := pages_pos hlen
  have htotal : start.toNat + maplen.toNat ≤ (rangeOf start maplen).2 :=
    Nat.add_le_add_left (le_pages maplen.toNat) _
  have hbefore := rangeOf_before hstart hr hle
  have hend : (alignUp (r + maplength) dlPagesize).toNat = r.toNat + pages maplength.toNat :=
    alignUp_end hr (by omega)
  have hdvd : 0x1000 ∣ (alignUp (r + maplength) dlPagesize).toNat := hend ▸ hr.add (dvd_pages _)
  obtain ⟨hrest, hafter⟩ := rangeOf_after hstart hdvd (hend ▸ hlt) hlimit
  have hstep : p₁.reserved = live ++ [(r.toNat, (rangeOf start maplen).2)] := by
    have hlimit₁ : (rangeOf start (r - start)).2 ≤ userLimit := by
      rw [hbefore]
      exact le_trans (by omega : r.toNat ≤ (rangeOf start maplen).2) hlimit
    rcases unmapRest_ok hos h₁ hstart hlimit₁ with ⟨hzero, hkeep⟩ | ⟨hdelta, hcut⟩
    · have heq : start.toNat = r.toNat := by
        rw [BitVec.toNat_sub] at hzero
        omega
      rw [hkeep, hlive, ← heq]
      rfl
    · have hlo : start.toNat < r.toNat := by
        rw [BitVec.toNat_sub] at hdelta
        omega
      have hhi : r.toNat < (rangeOf start maplen).2 := by omega
      rw [hcut, hlive, cut_append, hbefore]
      · exact congrArg (live ++ ·) (cut_head hlo hhi)
      · intro s hs
        rw [hbefore]
        exact (hapart s hs).mono le_rfl (by omega)
  have hlimit₂ := (congrArg Prod.snd hafter).trans_le hlimit
  rcases unmapRest_ok hos h₂ hdvd hlimit₂ with ⟨hzero, -⟩ | ⟨-, hcut⟩
  · omega
  · rw [hcut, hstep, cut_append, hafter, hend, cut_tail (by omega) (by omega), rangeOf]
    intro s hs
    rw [hafter]
    exact (hapart s hs).mono (hle.trans (by omega)) le_rfl

-- The start of a range with room for the alignment, moved up to a multiple of it.
theorem alignUp_inside {start align len : Word} {k total : Nat} (hlarge : ¬align ≤ dlPagesize)
    (hk : align.toNat = 2 ^ k) (hpage : 0x1000 ∣ start.toNat)
    (htotal : total = if align.toNat ≤ len.toNat then len.toNat + align.toNat else 2 * align.toNat)
    (hend : start.toNat + total ≤ userLimit) :
    (alignUp start align).toNat =
        align.toNat * ((start.toNat + (align.toNat - 1)) / align.toNat) ∧
      start.toNat ≤ (alignUp start align).toNat ∧ 0x1000 ∣ (alignUp start align).toNat ∧
      (alignUp start align).toNat + pages len.toNat < start.toNat + total := by
  have hlt : 0x1000 < align.toNat := by
    rw [BitVec.not_le, BitVec.lt_def] at hlarge
    exact hlarge
  have hdvd : 0x1000 ∣ align.toNat := by
    rw [hk] at hlt ⊢
    exact Nat.pow_dvd_pow 2 ((Nat.pow_lt_pow_iff_right Nat.one_lt_two).mp hlt : 12 < k).le
  have hroom : start.toNat + 2 ^ k ≤ 2 ^ 64 := by
    unfold userLimit at hend
    rw [← hk]
    split at htotal <;> omega
  have hup := alignUp_two_pow start align hk hroom
  rw [← hk] at hup
  refine ⟨hup, ?_⟩
  rw [hup]
  exact aligned_bounds hdvd hpage (by omega) rfl htotal

-- One call of `_dl_map_segment` reserves the length that it is given, or nothing.
theorem dlMapSegment_reserved {os : Kernel} (hos : Linux os) {c : LoadCmd} (hc : AlignedCmd c)
    {mappref maplength a : Word} {fd : Int} {p p' : Process}
    (h : dlMapSegment os c mappref maplength fd p = .ok a p') :
    (a = MAP_FAILED ∧ p'.reserved = p.reserved) ∨
      (a ≠ MAP_FAILED ∧ 0 < a.toNat ∧ p'.reserved = p.reserved ++ [rangeOf a maplength]) := by
  rcases ite_ok.mp h with ⟨_, h⟩ | ⟨hlarge, h⟩
  · rcases request_mmap hos h with hfail | ⟨hok, hlive, -, -, hpos, -⟩
    · exact .inl hfail
    · exact .inr ⟨hok, hpos, hlive⟩
  obtain ⟨k, hk⟩ := hc.resolve_left hlarge
  obtain ⟨start, p₁, h₁, h⟩ := bind_ok.mp h
  rcases request_mmap hos h₁ with ⟨hfail, hlive⟩ | ⟨hok, hlive, hlen, hpage, hpos, hlimit, hapart⟩
  · rcases ite_ok.mp h with ⟨_, h⟩ | ⟨hne, _⟩
    · obtain ⟨rfl, rfl⟩ := pure_ok.mp h
      exact .inl ⟨hfail, hlive⟩
    · exact absurd hfail hne
  obtain ⟨_, h⟩ := (ite_ok.mp h).resolve_left fun hfail => hok hfail.1
  obtain ⟨aligned, p₂, h₂, h⟩ := bind_ok.mp h
  have hlive₂ := (request_mmap_fixed h₂).trans hlive
  rcases ite_ok.mp h with ⟨hfail, h⟩ | ⟨haligned, h⟩
  · -- the second mapping fails, and the reservation is given back
    obtain ⟨_, p₃, h₃, h⟩ := bind_ok.mp h
    obtain ⟨rfl, rfl⟩ := pure_ok.mp h
    refine .inl ⟨hfail, ?_⟩
    rw [request_munmap hos h₃ hpage hlen hlimit, hlive₂, cut_append hapart]
    rw [rangeOf, cut_self (Nat.lt_add_of_pos_right (pages_pos hlen)), List.append_nil]
  obtain ⟨rfl, -⟩ := request_ok h₂
  obtain ⟨heq, hM, hlimit'⟩ := hos.mmap_fixed _ _ _ _ _ _ _ haligned
  rw [heq] at h haligned
  have hMlimit : maplength.toNat ≤ userLimit :=
    (le_pages _).trans ((Nat.le_add_left _ _).trans hlimit')
  have htotal := maplen_toNat hk hlen hMlimit
  generalize (if c.mapalign ≤ maplength then maplength + c.mapalign else 2#64 * c.mapalign) = maplen at *
  have htotalLimit : start.toNat + maplen.toNat ≤ userLimit :=
    (Nat.add_le_add_left (le_pages _) _).trans hlimit
  obtain ⟨-, hle, hdvd, hlt⟩ := alignUp_inside hlarge hk hpage htotal htotalLimit
  generalize alignUp start c.mapalign = r at *
  obtain ⟨_, p₃, h₃, h⟩ := bind_ok.mp h
  obtain ⟨_, p₄, h₄, h⟩ := bind_ok.mp h
  obtain ⟨rfl, rfl⟩ := pure_ok.mp h
  exact .inr ⟨haligned, by omega, unmapSides_reserved hos hpage hdvd hM hle hlt hlimit hlive₂ hapart
    h₃ h₄⟩

theorem placeBelow_reserved {os : Kernel} (hos : Linux os) {o : Object} (ho : AlignedCmd o.c)
    {l l' : LinkMap} {st : MitigStruct} {base : Word} {p p' : Process}
    (h : placeBelow os o l st base p = .ok l' p') (hmapped : l'.l_map_start ≠ MAP_FAILED) :
    p'.reserved = p.reserved ++ [rangeOf l'.l_map_start o.maplength] := by
  obtain ⟨_, p₁, h₁, h⟩ := bind_ok.mp h
  rw [modify_ok] at h₁
  subst h₁
  obtain ⟨start, p₂, h₂, h⟩ := bind_ok.mp h
  rcases ite_ok.mp h with ⟨_, h⟩ | ⟨hstart, h⟩
  · exact absurd h throw_ok
  · obtain ⟨_, p₃, h₃, h⟩ := bind_ok.mp h
    rw [modify_ok] at h₃
    subst h₃
    obtain ⟨rfl, rfl⟩ := pure_ok.mp h
    rcases dlMapSegment_reserved hos ho h₂ with ⟨hfail, -⟩ | ⟨-, -, hlive⟩
    · exact absurd hfail hmapped
    · exact hlive

-- The kernel refuses the trial mapping of the first object.
def TrialFails (os : Kernel) (o : Object) (p : Process) : Prop :=
  ∃ p₁, dlMapSegment os o.c o.c.mapstart o.maplength o.fd p = .ok MAP_FAILED p₁

-- What the placement has reserved, by its four cases.
theorem place_reserved {os : Kernel} (hos : Linux os) {o : Object} (ho : AlignedCmd o.c)
    {l l' : LinkMap} {p p' : Process} (h : place os o l p = .ok l' p')
    (hmapped : l'.l_map_start ≠ MAP_FAILED) :
    ∃ trial, p'.reserved = p.reserved ++ trial ++
        (if 0#32 < (findExecSize o.loadcmds).size then [rangeOf l'.l_map_start o.maplength] else []) ∧
      (¬0#32 < (findExecSize o.loadcmds).size → l' = l) ∧
      (1 < p.to_load ∨ TrialFails os o p → trial = []) ∧
      (¬(1 < p.to_load ∨ TrialFails os o p) → ∃ tmp, 0 < tmp.toNat ∧
        trial = [rangeOf tmp o.maplength]) := by
  obtain ⟨q, p₁, h₁, h⟩ := bind_ok.mp h
  cases h₁
  rcases ite_ok.mp h with ⟨hload, h⟩ | ⟨hload, h⟩
  · refine ⟨[], ?_, ?_, fun _ => rfl, fun hnot => absurd (.inl hload) hnot⟩
    · rcases ite_ok.mp h with ⟨hsize, h⟩ | ⟨hsize, h⟩
      · rw [if_pos hsize, List.append_nil]
        exact placeBelow_reserved hos ho h hmapped
      · obtain ⟨rfl, rfl⟩ := pure_ok.mp h
        rw [if_neg hsize, List.append_nil, List.append_nil]
    · intro hsize
      rw [if_neg hsize] at h
      exact (pure_ok.mp h).1.symm
  · obtain ⟨tmp, p₂, h₂, h⟩ := bind_ok.mp h
    have hplaced : p'.reserved = p₂.reserved ++
        (if 0#32 < (findExecSize o.loadcmds).size then [rangeOf l'.l_map_start o.maplength] else []) ∧
        (¬0#32 < (findExecSize o.loadcmds).size → l' = l) := by
      rcases ite_ok.mp h with ⟨hsize, h⟩ | ⟨hsize, h⟩
      · rw [if_pos hsize]
        exact ⟨placeBelow_reserved hos ho h hmapped, fun hnot => absurd hsize hnot⟩
      · obtain ⟨rfl, rfl⟩ := pure_ok.mp h
        rw [if_neg hsize, List.append_nil]
        exact ⟨rfl, fun _ => rfl⟩
    rcases dlMapSegment_reserved hos ho h₂ with ⟨rfl, hlive⟩ | ⟨hok, hpos, hlive⟩
    · rw [hlive] at hplaced
      refine ⟨[], by rw [List.append_nil]; exact hplaced.1, hplaced.2, fun _ => rfl, fun hnot => ?_⟩
      exact absurd (.inr ⟨p₂, h₂⟩) hnot
    · rw [hlive] at hplaced
      refine ⟨_, hplaced.1, hplaced.2, fun hor => ?_, fun _ => ⟨tmp, hpos, rfl⟩⟩
      rcases hor with hlt | ⟨p₃, h₃⟩
      · exact absurd hlt hload
      · rw [h₃] at h₂
        cases h₂
        exact absurd rfl hok

-- The call leaves one reservation of its own, and it is the range that the link map names.
def Reserves (o : Object) (p p' : Process) (l' : LinkMap) : Prop :=
  p'.reserved = p.reserved ++ [rangeOf l'.l_map_start o.maplength] ∧
    l'.l_map_end = l'.l_map_start + o.maplength

theorem dlMapSegments_reserves_iff (os : Kernel) (hos : Linux os) (o : Object)
    (ho : AlignedCmd o.c) (htype : o.type = .ET_DYN) (p p' : Process) (l' : LinkMap)
    (h : dlMapSegments os o {} p = .ok l' p') :
    Reserves o p p' l' ↔
      0#32 < (findExecSize o.loadcmds).size ∧ (1 < p.to_load ∨ TrialFails os o p) := by
  simp only [dlMapSegments, htype] at h
  obtain ⟨l₁, p₁, h₁, h⟩ := bind_ok.mp h
  rcases ite_ok.mp h with ⟨_, h⟩ | ⟨hmapped, h⟩
  · exact absurd h throw_ok
  obtain ⟨_, p₂, h₂, h⟩ := bind_ok.mp h
  have hplaced := mapLoop_placed _ _ _ _ _ _ _ _ _ h
  have hkeep := (mapLoop_reserved _ _ _ _ _ _ _ _ _ h).trans (closeHoles_reserved _ _ _ _ _ _ h₂)
  simp only [LinkMap.placed, LinkMap.mk.injEq] at hplaced
  obtain ⟨-, hstart, hend, -⟩ := hplaced
  obtain ⟨trial, hlive, hsame, hnone, hsome⟩ := place_reserved hos ho h₁ hmapped
  rw [Reserves, hkeep, hlive, hstart, hend, List.append_assoc, List.append_cancel_left_eq]
  constructor
  · rintro ⟨heq, -⟩
    by_cases hor : 1 < p.to_load ∨ TrialFails os o p
    · rw [hnone hor, List.nil_append] at heq
      split at heq
      · exact ⟨‹_›, hor⟩
      · cases heq
    · obtain ⟨tmp, hpos, rfl⟩ := hsome hor
      split at heq
      · exact absurd (congrArg List.length heq) (by simp)
      · rename_i hsize
        rw [hsame hsize, List.append_nil, List.singleton_inj] at heq
        have hzero : tmp.toNat = 0 := congrArg Prod.fst heq
        omega
  · rintro ⟨hsize, hor⟩
    rw [hnone hor, if_pos hsize]
    exact ⟨rfl, rfl⟩

-- A kernel that follows the rules: the address asked for if it is free, else another one.

def Grants (t : Trace) (addr len : Word) : Prop :=
  0 < len.toNat ∧ 0x1000 ∣ addr.toNat ∧ 0 < addr.toNat ∧ (rangeOf addr len).2 ≤ userLimit ∧
    ∀ r ∈ reserved t, (rangeOf addr len).Apart r

instance (t : Trace) (addr len : Word) : Decidable (Grants t addr len) :=
  inferInstanceAs (Decidable (_ ∧ _))

def hinted (elsewhere : Trace → Word → Word) : Kernel := fun t call =>
  match call with
  | .mmap addr len _ false _ _ _ => if Grants t addr len then addr else elsewhere t len
  | .mmap addr len _ true _ _ _ =>
    if 0 < len.toNat ∧ (rangeOf addr len).2 ≤ userLimit then addr else MAP_FAILED
  | _ => 0#64

theorem hinted_linux {elsewhere : Trace → Word → Word}
    (h : ∀ t len, elsewhere t len ≠ MAP_FAILED → Grants t (elsewhere t len) len) :
    Linux (hinted elsewhere) where
  mmap t addr len prot anonymous fd off hne := by
    unfold hinted at hne ⊢
    dsimp only at hne ⊢
    split at hne
    · rename_i hgrants
      rw [if_pos hgrants]
      exact hgrants
    · rename_i hnot
      rw [if_neg hnot]
      exact h t len hne
  mmap_fixed t addr len prot anonymous fd off hne := by
    unfold hinted at hne ⊢
    dsimp only at hne ⊢
    split at hne
    · rename_i hfits
      rw [if_pos hfits]
      exact ⟨rfl, hfits⟩
    · exact absurd rfl hne
  munmap _ _ _ _ _ _ := rfl

def hintKernel : Kernel :=
  hinted fun t len => if Grants t 0x7f0000000000#64 len then 0x7f0000000000#64 else MAP_FAILED

theorem hintKernel_linux : Linux hintKernel := by
  refine hinted_linux fun t len hne => ?_
  split at hne
  · rename_i hgrants
    rw [if_pos hgrants]
    exact hgrants
  · exact absurd rfl hne

def hintFirst : LinkMap × Process :=
  (outcome (dlMapSegments hintKernel demoObject {}) demoStart).get (by decide +kernel)

def hintSecond : LinkMap × Process :=
  (outcome (dlMapSegments hintKernel demoObject {}) hintFirst.2).get (by decide +kernel)

theorem dlMapSegments_reserves_second :
    Reserves demoObject hintFirst.2 hintSecond.2 hintSecond.1 :=
  (dlMapSegments_reserves_iff hintKernel hintKernel_linux demoObject (.inl (by decide)) rfl
    hintFirst.2 hintSecond.2 hintSecond.1 (ok_of_outcome _ _ _)).mpr
    ⟨by decide, .inl (by decide +kernel)⟩

-- The trial mapping of the first object stays, and an object without code is not mapped at all.

def dataObject : Object :=
  (objectOf 3 ⟨0x40#64, 1#64⟩ .ET_DYN
    [⟨.PT_LOAD, 4, 0x0#64, 0x0#64, 0x1000#64, 0x1000#64, 0x1000#64⟩]).toOption.get (by decide)

def hintData : LinkMap × Process :=
  (outcome (dlMapSegments hintKernel dataObject {}) hintFirst.2).get (by decide +kernel)

theorem dlMapSegments_not_reserves :
    Linux hintKernel ∧
    (dlMapSegments hintKernel demoObject {} demoStart = .ok hintFirst.1 hintFirst.2 ∧
      ¬Reserves demoObject demoStart hintFirst.2 hintFirst.1) ∧
    (dlMapSegments hintKernel dataObject {} hintFirst.2 = .ok hintData.1 hintData.2 ∧
      ¬Reserves dataObject hintFirst.2 hintData.2 hintData.1) := by
  refine ⟨hintKernel_linux, ⟨ok_of_outcome _ _ _, ?_⟩, ⟨ok_of_outcome _ _ _, ?_⟩⟩
  · unfold Reserves
    decide +kernel
  · unfold Reserves
    decide +kernel

end Platypus.Loader
