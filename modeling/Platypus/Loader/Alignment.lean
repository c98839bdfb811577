import Platypus.Loader.Reservation

namespace Platypus.Loader

open State

-- The address that `_dl_map_segments` hands to `_dl_map_segment`.
def mappref (os : Kernel) (o : Object) (p : Process) : Word :=
  proposed os o p - (findExecSize o.loadcmds).mapstart

-- The length that `_dl_map_segment` asks the kernel for.
def asked (c : LoadCmd) (maplength : Word) : Word :=
  if c.mapalign ≤ dlPagesize then maplength
  else if c.mapalign ≤ maplength then maplength + c.mapalign else 2#64 * c.mapalign

-- The process when it makes that request: the first object is preceded by a trial mapping.
def afterTrial (os : Kernel) (o : Object) (p : Process) : Process :=
  if 1 < p.to_load then p
  else
    match dlMapSegment os o.c o.c.mapstart o.maplength o.fd p with
    | .ok _ p₁ => p₁
    | .error _ p₁ => p₁

-- The range at the proposed address is free.
def Free (os : Kernel) (o : Object) (p : Process) : Prop :=
  Grants (afterTrial os o p).trace (mappref os o p) o.maplength

instance instDecidableFree (os : Kernel) (o : Object) (p : Process) : Decidable (Free os o p) :=
  inferInstanceAs (Decidable (Grants _ _ _))

-- A kernel that gives a free range to whoever asks for it.
structure Honours (os : Kernel) : Prop where
  hint : ∀ t addr len prot anonymous fd off, Grants t addr len →
    os t (.mmap addr len prot false anonymous fd off) = addr
  fixed : ∀ t addr len prot anonymous fd off, 0 < len.toNat → (rangeOf addr len).2 ≤ userLimit →
    os t (.mmap addr len prot true anonymous fd off) = addr

theorem hinted_honours (elsewhere : Trace → Word → Word) : Honours (hinted elsewhere) where
  hint _ _ _ _ _ _ _ h := if_pos h
  fixed _ _ _ _ _ _ _ hpos hlimit := if_pos ⟨hpos, hlimit⟩

theorem request_total (os : Kernel) (call : Call) : Total (request os call) :=
  fun _ => ⟨_, _, rfl⟩

theorem unmapRest_total (os : Kernel) (start delta : Word) : Total (unmapRest os start delta) :=
  Total.ite (Total.bind (request_total _ _) fun _ => Total.pure _) (Total.pure _)

-- The mapping helper always returns. Its failures are values.
theorem dlMapSegment_total (os : Kernel) (c : LoadCmd) (addr maplength : Word) (fd : Int) :
    Total (dlMapSegment os c addr maplength fd) := by
  apply Total.ite (request_total _ _)
  refine Total.bind (request_total _ _) fun map_start => Total.ite (Total.pure _) ?_
  refine Total.bind (request_total _ _) fun map_start_aligned => Total.ite ?_ ?_
  · exact Total.bind (request_total _ _) fun _ => Total.pure _
  · exact Total.bind (unmapRest_total _ _ _) fun _ =>
      Total.bind (unmapRest_total _ _ _) fun _ => Total.pure _

theorem place_eq (os : Kernel) (o : Object) (l : LinkMap) (p : Process)
    (hsize : 0#32 < (findExecSize o.loadcmds).size) :
    place os o l p =
      placeBelow os o l (findExecSize o.loadcmds) (cursorBase os o p) (afterTrial os o p) := by
  obtain ⟨tmp, p₁, h⟩ := dlMapSegment_total os o.c o.c.mapstart o.maplength o.fd p
  have hplace : place os o l p = (if 1 < p.to_load then
      (if 0#32 < (findExecSize o.loadcmds).size then
        placeBelow os o l (findExecSize o.loadcmds) p.addr else pure l) p
      else (dlMapSegment os o.c o.c.mapstart o.maplength o.fd >>= fun tmp =>
        if 0#32 < (findExecSize o.loadcmds).size then
          placeBelow os o l (findExecSize o.loadcmds) tmp else pure l) p) := by
    unfold place
    by_cases hload : 1 < p.to_load
    · rw [if_pos hload]
      change (if 1 < p.to_load then _ else _ : Sys LinkMap) p = _
      rw [if_pos hload]
    · rw [if_neg hload]
      change (if 1 < p.to_load then _ else _ : Sys LinkMap) p = _
      rw [if_neg hload]
  rw [hplace, cursorBase, afterTrial, h]
  simp only [if_pos hsize]
  split
  · rfl
  · change EStateM.bind _ _ p = _
    unfold EStateM.bind
    rw [h]

section Granted

variable {os : Kernel} {c : LoadCmd} {addr maplength : Word} {t : Trace}

theorem asked_large (hlarge : ¬c.mapalign ≤ dlPagesize) :
    asked c maplength =
      if c.mapalign ≤ maplength then maplength + c.mapalign else 2#64 * c.mapalign :=
  if_neg hlarge

-- What the helper returns for an alignment of at most a page when the range is free.
theorem dlMapSegment_free (hos : Honours os) (hsmall : c.mapalign ≤ dlPagesize) {fd : Int}
    {p : Process} (hrange : Grants p.trace addr maplength) :
    ∃ p', dlMapSegment os c addr maplength fd p = .ok addr p' := by
  obtain ⟨a, p', h⟩ := dlMapSegment_total os c addr maplength fd p
  refine ⟨p', h.trans (congrArg (EStateM.Result.ok · p') ?_)⟩
  obtain ⟨_, h⟩ := (ite_ok.mp h).resolve_right fun hnot => hnot.1 hsmall
  rw [(request_ok h).1]
  exact hos.hint _ _ _ _ _ _ _ hrange

-- A larger alignment needs more than the range: without the room above it nothing is mapped.
theorem dlMapSegment_refused {fd : Int} {p : Process} (hlarge : ¬c.mapalign ≤ dlPagesize)
    (hos : os p.trace (.mmap addr (asked c maplength) PROT_NONE false true (-1) 0#64) = MAP_FAILED) :
    ∃ p', dlMapSegment os c addr maplength fd p = .ok MAP_FAILED p' := by
  obtain ⟨a, p', h⟩ := dlMapSegment_total os c addr maplength fd p
  refine ⟨p', h.trans (congrArg (EStateM.Result.ok · p') ?_)⟩
  obtain ⟨_, h⟩ := (ite_ok.mp h).resolve_left fun hsmall => hlarge hsmall.1
  obtain ⟨start, p₁, h₁, h⟩ := bind_ok.mp h
  obtain ⟨rfl, -⟩ := request_ok h₁
  rw [← asked_large hlarge, hos] at h
  obtain ⟨_, h⟩ := (ite_ok.mp h).resolve_right fun hmapped => hmapped.1 rfl
  exact (pure_ok.mp h).1.symm

-- The room is larger than the range by a page at least.
theorem pages_lt_asked (hlarge : ¬c.mapalign ≤ dlPagesize) {k : Nat} (hk : c.mapalign.toNat = 2 ^ k)
    (hlen : maplength.toNat ≤ userLimit) (hpos : 0 < (asked c maplength).toNat) :
    pages maplength.toNat < pages (asked c maplength).toNat := by
  have hpage : (dlPagesize).toNat = 0x1000 := rfl
  rw [BitVec.le_def, hpage] at hlarge
  rw [asked_large (by rw [BitVec.le_def, hpage]; exact hlarge)] at hpos ⊢
  rw [maplen_toNat hk hpos hlen]
  unfold pages
  split <;> omega

end Granted

-- The placement succeeds if the helper returns the address it was given.
theorem placeBelow_ok_iff (os : Kernel) (o : Object) (l : LinkMap) (st : MitigStruct) (base a : Word)
    (p p₁ : Process) (h : dlMapSegment os o.c
      (findAddr (base - 0x10000000#64) (st.size.setWidth 64) - st.mapstart) o.maplength o.fd
      { p with addr := findAddr (base - 0x10000000#64) (st.size.setWidth 64) - st.mapstart } =
        .ok a p₁) :
    (∃ l' p', placeBelow os o l st base p = .ok l' p') ↔
      a = findAddr (base - 0x10000000#64) (st.size.setWidth 64) - st.mapstart := by
  constructor
  · rintro ⟨l', p', hplace⟩
    obtain ⟨_, p₂, h₂, hplace⟩ := bind_ok.mp hplace
    rw [modify_ok] at h₂
    subst h₂
    obtain ⟨start, p₃, h₃, hplace⟩ := bind_ok.mp hplace
    rw [h] at h₃
    cases h₃
    rcases ite_ok.mp hplace with ⟨_, hthrow⟩ | ⟨hstart, _⟩
    · exact absurd hthrow throw_ok
    · exact not_not.mp hstart
  · intro ha
    refine ⟨{ l with
      l_exec_end := st.size.setWidth 64 +
        findAddr (base - 0x10000000#64) (st.size.setWidth 64) - 1#64
      l_exec_start := commonPrefixLen (findAddr (base - 0x10000000#64) (st.size.setWidth 64))
        (st.size.setWidth 64 + findAddr (base - 0x10000000#64) (st.size.setWidth 64) - 1#64)
      l_map_start := a }, { p₁ with to_load := p₁.to_load + 1 }, ?_⟩
    refine bind_ok.mpr ⟨(), _, modify_ok.mpr rfl, bind_ok.mpr ⟨a, p₁, h, ?_⟩⟩
    refine ite_ok.mpr (.inr ⟨not_not.mpr ha, bind_ok.mpr ⟨(), _, modify_ok.mpr rfl, ?_⟩⟩)
    exact pure_ok.mpr ⟨rfl, rfl⟩

-- What the helper returns decides whether the placement succeeds.
theorem place_ok_iff (os : Kernel) (o : Object) (hsize : 0#32 < (findExecSize o.loadcmds).size)
    (l : LinkMap) (p p₁ : Process) (a : Word)
    (h : dlMapSegment os o.c (mappref os o p) o.maplength o.fd
      { afterTrial os o p with addr := mappref os o p } = .ok a p₁) :
    (∃ l' p', place os o l p = .ok l' p') ↔ a = mappref os o p := by
  rw [place_eq os o l p hsize]
  exact placeBelow_ok_iff os o l _ _ _ _ p₁ h

-- The end of the code, up to a wrap of the sum.
def codeEnd (o : Object) : Word :=
  (findExecSize o.loadcmds).mapstart + (findExecSize o.loadcmds).size.setWidth 64

theorem findExecSize_pages (cs : List LoadCmd) (h : ∀ c ∈ cs, Paged c) :
    2 ^ 12 ∣ (findExecSize cs).size.toNat ∧ 2 ^ 12 ∣ (findExecSize cs).mapstart.toNat := by
  induction cs with
  | nil => exact ⟨Dvd.intro 0 rfl, Dvd.intro 0 rfl⟩
  | cons c cs ih =>
    rw [findExecSize]
    split
    · have hpages := Paged.size c (h c List.mem_cons_self)
      refine ⟨?_, (h c List.mem_cons_self).1⟩
      rw [BitVec.toNat_setWidth]
      exact (Nat.dvd_mod_iff (Nat.pow_dvd_pow 2 (by decide))).mpr hpages
    · exact ih fun d hd => h d (List.mem_cons_of_mem c hd)

theorem codeEnd_pages (o : Object) (ho : ∀ c ∈ o.loadcmds, Paged c) :
    2 ^ 12 ∣ (codeEnd o).toNat := by
  obtain ⟨hsize, hstart⟩ := findExecSize_pages _ ho
  have hwidth : ((findExecSize o.loadcmds).size.setWidth 64).toNat =
      (findExecSize o.loadcmds).size.toNat := by
    have hlt := (findExecSize o.loadcmds).size.isLt
    rw [BitVec.toNat_setWidth]
    omega
  rw [codeEnd, BitVec.toNat_add, hwidth]
  exact (Nat.dvd_mod_iff (Nat.pow_dvd_pow 2 (by decide))).mpr (Nat.dvd_add hstart hsize)

theorem codeSize_pageSize (o : Object) (ho : ∀ c ∈ o.loadcmds, Paged c)
    (hsize : 0#32 < (findExecSize o.loadcmds).size) :
    PageSize ((findExecSize o.loadcmds).size.setWidth 64) := by
  have hlt := (findExecSize o.loadcmds).size.isLt
  have hnat : ((findExecSize o.loadcmds).size.setWidth 64).toNat =
      (findExecSize o.loadcmds).size.toNat := by
    rw [BitVec.toNat_setWidth]
    omega
  refine ⟨?_, ?_, ?_⟩
  · rw [hnat]
    exact BitVec.lt_def.mp hsize
  · rw [hnat]
    exact hlt
  · rw [hnat]
    exact (findExecSize_pages _ ho).1

-- The proposed address and the end of the code add up to the end of a block.
theorem mappref_add (os : Kernel) (o : Object) (ho : ∀ c ∈ o.loadcmds, Paged c)
    (hsize : 0#32 < (findExecSize o.loadcmds).size) (p : Process) :
    mappref os o p + codeEnd o = BitVec.ofNat 64 (blockEnd (cursorBase os o p - 0x10000000#64)
      ((findExecSize o.loadcmds).size.setWidth 64)) := by
  rw [← (codeSize_pageSize o ho hsize).findAddr_add, mappref, proposed, codeEnd, BitVec.ofNat_add,
    BitVec.ofNat_toNat, BitVec.ofNat_toNat, BitVec.setWidth_eq, BitVec.setWidth_eq,
    ← BitVec.add_assoc, BitVec.sub_add_cancel]

theorem modEq_of_add_eq {k n : Nat} (hk : k ≤ 64) {x y : Word} (h : x + y = BitVec.ofNat 64 n) :
    x.toNat + y.toNat ≡ n [MOD 2 ^ k] := by
  have hnat := congrArg BitVec.toNat h
  rw [BitVec.toNat_add, BitVec.toNat_ofNat] at hnat
  exact Nat.ModEq.of_dvd (Nat.pow_dvd_pow 2 hk) hnat

-- The cursor that puts the next object into the block that ends at `n` block sizes.
def cursorAt (o : Object) (n : Nat) (t : Trace) : Process :=
  ⟨BitVec.ofNat 64 (2 ^ numBitsRequired ((findExecSize o.loadcmds).size.setWidth 64) * n) +
    0x10000000#64, 2, t⟩

theorem blockEnd_cursorAt (os : Kernel) (o : Object) (ho : ∀ c ∈ o.loadcmds, Paged c)
    (hsize : 0#32 < (findExecSize o.loadcmds).size) (n : Nat) (hpos : 0 < n)
    (hn : 2 ^ numBitsRequired ((findExecSize o.loadcmds).size.setWidth 64) * n ≤ 2 ^ 64)
    (t : Trace) :
    blockEnd (cursorBase os o (cursorAt o n t) - 0x10000000#64)
        ((findExecSize o.loadcmds).size.setWidth 64) =
      2 ^ numBitsRequired ((findExecSize o.loadcmds).size.setWidth 64) * n := by
  have hbase : cursorBase os o (cursorAt o n t) = (cursorAt o n t).addr :=
    if_pos (show (1 : Int) < 2 by decide)
  have hle := numBitsRequired_le _ (codeSize_pageSize o ho hsize).lt
  have hpow : 2 ^ numBitsRequired ((findExecSize o.loadcmds).size.setWidth 64) ≤ 2 ^ 32 :=
    Nat.pow_le_pow_right (by decide) hle
  have hone := Nat.two_pow_pos (numBitsRequired ((findExecSize o.loadcmds).size.setWidth 64))
  rw [hbase, cursorAt, blockEnd, BitVec.add_sub_cancel]
  generalize numBitsRequired _ = bits at *
  have hle : 2 ^ bits * 1 ≤ 2 ^ bits * n := Nat.mul_le_mul_left _ hpos
  have hshift : (1#64 <<< bits).toNat = 2 ^ bits := by
    rw [BitVec.toNat_shiftLeft, Nat.shiftLeft_eq, BitVec.toNat_ofNat]
    omega
  have hsub : (BitVec.ofNat 64 (2 ^ bits * n) - 1#64 <<< bits).toNat = 2 ^ bits * (n - 1) := by
    rw [BitVec.toNat_sub, BitVec.toNat_ofNat, hshift, Nat.mul_sub]
    omega
  rw [hsub, Nat.mul_div_cancel_left _ hone, Nat.sub_add_cancel hpos]

-- Whatever the cursor, the proposed address is a multiple of the alignment, and the placement
-- succeeds there if the range is free.
def Settles (o : Object) : Prop :=
  ∀ os, Linux os → Honours os → ∀ (l : LinkMap) (p : Process),
    o.c.mapalign.toNat ∣ (mappref os o p).toNat ∧
      (Free os o p → ∃ l' p', place os o l p = .ok l' p' ∧ l'.l_map_start = mappref os o p)

-- Below the end of some block there is a range of user space for the object.
def Fits (o : Object) : Prop :=
  0 < o.maplength.toNat ∧
    ∃ n, 0 < n ∧ 2 ^ numBitsRequired ((findExecSize o.loadcmds).size.setWidth 64) * n ≤ 2 ^ 64 ∧
      ∃ start : Word, start + codeEnd o =
          .ofNat 64 (2 ^ numBitsRequired ((findExecSize o.loadcmds).size.setWidth 64) * n) ∧
        0 < start.toNat ∧ (rangeOf start o.maplength).2 ≤ userLimit

section Blocks

variable {os : Kernel} {o : Object} (ho : ∀ c ∈ o.loadcmds, Paged c)
  (hsize : 0#32 < (findExecSize o.loadcmds).size)
include ho hsize

theorem two_pow_dvd_mappref {k : Nat}
    (hle : 2 ^ k ≤ 2 ^ numBitsRequired ((findExecSize o.loadcmds).size.setWidth 64))
    (hend : 2 ^ k ∣ (codeEnd o).toNat) (p : Process) : 2 ^ k ∣ (mappref os o p).toNat := by
  have hbits := (Nat.pow_le_pow_iff_right Nat.one_lt_two).mp hle
  have hlt := numBitsRequired_le _ (codeSize_pageSize o ho hsize).lt
  have hsum := modEq_of_add_eq (show k ≤ 64 by omega) (mappref_add os o ho hsize p)
  have hblock : 2 ^ k ∣ blockEnd (cursorBase os o p - 0x10000000#64)
      ((findExecSize o.loadcmds).size.setWidth 64) := (Nat.pow_dvd_pow 2 hbits).mul_right _
  exact (Nat.dvd_add_left hend).mp ((hsum.dvd_iff dvd_rfl).mpr hblock)

-- Every proposed address is a multiple of a page.
theorem page_dvd_mappref {k : Nat} (hk : k ≤ 12) (p : Process) :
    2 ^ k ∣ (mappref os o p).toNat := by
  have hpage := (codeSize_pageSize o ho hsize).page_le
  have hlt := lt_two_pow_numBitsRequired ((findExecSize o.loadcmds).size.setWidth 64)
  exact (Nat.pow_dvd_pow 2 hk).trans
    (two_pow_dvd_mappref ho hsize (hpage.trans hlt.le) (codeEnd_pages o ho) p)

variable (os) in
theorem mappref_cursorAt {n : Nat} (hpos : 0 < n)
    (hn : 2 ^ numBitsRequired ((findExecSize o.loadcmds).size.setWidth 64) * n ≤ 2 ^ 64)
    (t : Trace) :
    mappref os o (cursorAt o n t) + codeEnd o =
      .ofNat 64 (2 ^ numBitsRequired ((findExecSize o.loadcmds).size.setWidth 64) * n) := by
  rw [mappref_add os o ho hsize, blockEnd_cursorAt os o ho hsize n hpos hn t]

-- The first two blocks exist for every size.
theorem block_le {n : Nat} (hn : n ≤ 2) :
    2 ^ numBitsRequired ((findExecSize o.loadcmds).size.setWidth 64) * n ≤ 2 ^ 64 := by
  have hpow := Nat.pow_le_pow_right (show 0 < 2 by decide)
    (numBitsRequired_le _ (codeSize_pageSize o ho hsize).lt)
  calc 2 ^ numBitsRequired ((findExecSize o.loadcmds).size.setWidth 64) * n
      ≤ 2 ^ 32 * 2 := Nat.mul_le_mul hpow hn
    _ ≤ 2 ^ 64 := by decide

-- Two neighbouring blocks differ by their size, so it is a multiple of the alignment too.
theorem dvd_of_mapalign_dvd_mappref {k : Nat} (hk : o.c.mapalign.toNat = 2 ^ k)
    (h : ∀ p, o.c.mapalign.toNat ∣ (mappref os o p).toNat) :
    o.c.mapalign.toNat ≤ 2 ^ numBitsRequired ((findExecSize o.loadcmds).size.setWidth 64) ∧
      o.c.mapalign.toNat ∣ (codeEnd o).toNat := by
  have hlt : k < 64 := (Nat.pow_lt_pow_iff_right Nat.one_lt_two).mp (hk ▸ o.c.mapalign.isLt)
  rw [hk] at h ⊢
  have hcode : ∀ n, 0 < n → n ≤ 2 → (codeEnd o).toNat ≡
      2 ^ numBitsRequired ((findExecSize o.loadcmds).size.setWidth 64) * n [MOD 2 ^ k] := by
    intro n hpos hn
    have hsum := modEq_of_add_eq hlt.le
      (mappref_cursorAt os ho hsize hpos (block_le ho hsize hn) [])
    have hzero := (Nat.modEq_zero_iff_dvd.mpr (h (cursorAt o n []))).add_right (codeEnd o).toNat
    rw [Nat.zero_add] at hzero
    exact hzero.symm.trans hsum
  have hone := hcode 1 (by decide) (by decide)
  have htwo := hcode 2 (by decide) (by decide)
  have hblock : 0 ≡ 2 ^ numBitsRequired ((findExecSize o.loadcmds).size.setWidth 64) [MOD 2 ^ k] := by
    apply Nat.ModEq.add_left_cancel' (2 ^ numBitsRequired ((findExecSize o.loadcmds).size.setWidth 64))
    rw [Nat.mul_one] at hone
    rw [Nat.mul_two] at htwo
    exact hone.symm.trans htwo
  have hdvd := Nat.modEq_zero_iff_dvd.mp hblock.symm
  refine ⟨Nat.le_of_dvd (Nat.two_pow_pos _) hdvd, ?_⟩
  exact (hone.dvd_iff dvd_rfl).mpr (hdvd.mul_right 1)

theorem mapalign_ne_zero (h : ∀ p, o.c.mapalign.toNat ∣ (mappref os o p).toNat) :
    o.c.mapalign ≠ 0#64 := by
  intro hzero
  have hpref : ∀ p, mappref os o p = 0#64 := by
    intro p
    have hdvd := h p
    rw [hzero] at hdvd
    exact BitVec.eq_of_toNat_eq (Nat.eq_zero_of_zero_dvd hdvd)
  have hcode : ∀ n, 0 < n → n ≤ 2 → codeEnd o = BitVec.ofNat 64
      (2 ^ numBitsRequired ((findExecSize o.loadcmds).size.setWidth 64) * n) := by
    intro n hpos hn
    have hsum := mappref_cursorAt os ho hsize hpos (block_le ho hsize hn) []
    rwa [hpref, BitVec.zero_add] at hsum
  have hnat := congrArg BitVec.toNat
    ((hcode 1 (by decide) (by decide)).symm.trans (hcode 2 (by decide) (by decide)))
  have hle := Nat.pow_le_pow_right (show 0 < 2 by decide)
    (numBitsRequired_le _ (codeSize_pageSize o ho hsize).lt)
  have hone := Nat.two_pow_pos (numBitsRequired ((findExecSize o.loadcmds).size.setWidth 64))
  rw [BitVec.toNat_ofNat, BitVec.toNat_ofNat] at hnat
  omega

-- A range that is free for some cursor is one below the end of a block.
theorem fits_of_free {p : Process} (hfree : Free os o p) : Fits o := by
  obtain ⟨hlen, -, hpos, hlimit, -⟩ := hfree
  have hend := (codeSize_pageSize o ho hsize).blockEnd_le (cursorBase os o p - 0x10000000#64)
  exact ⟨hlen, _, Nat.succ_pos _, hend, mappref os o p, mappref_add os o ho hsize p, hpos, hlimit⟩

end Blocks

-- A kernel that has nothing but what is asked for.
def hintOnly : Kernel := hinted fun _ _ => MAP_FAILED

theorem hintOnly_linux : Linux hintOnly := hinted_linux fun _ _ hne => absurd rfl hne

-- One page above the range is in use.
def pageAbove (start len : Word) : Trace :=
  [(.mmap 0#64 0x1000#64 PROT_NONE false true (-1) 0#64, .ofNat 64 (rangeOf start len).2)]

theorem reserved_pageAbove {start len : Word} (hlimit : (rangeOf start len).2 ≤ userLimit) :
    reserved (pageAbove start len) =
      [((rangeOf start len).2, (rangeOf start len).2 + 0x1000)] := by
  unfold userLimit at hlimit
  have hlt : (rangeOf start len).2 < 2 ^ 64 := hlimit.trans_lt (by decide)
  have hne : BitVec.ofNat 64 (rangeOf start len).2 ≠ MAP_FAILED := by
    intro heq
    have hnat := congrArg BitVec.toNat heq
    have hlast : MAP_FAILED.toNat = 2 ^ 64 - 1 := rfl
    rw [BitVec.toNat_ofNat, Nat.mod_eq_of_lt hlt, hlast] at hnat
    omega
  have hpage : pages (0x1000#64).toNat = 0x1000 := rfl
  simp only [reserved, pageAbove, List.foldl_cons, List.foldl_nil, reserve, if_neg hne,
    List.nil_append]
  rw [rangeOf, BitVec.toNat_ofNat, Nat.mod_eq_of_lt hlt, hpage]

-- If the object fits and its alignment is larger than a page, the page above its range is enough
-- to make the load fail.
theorem not_settles_of_fits {o : Object} (ho : ∀ c ∈ o.loadcmds, Paged c)
    (hsize : 0#32 < (findExecSize o.loadcmds).size) {k : Nat} (hk : o.c.mapalign.toNat = 2 ^ k)
    (hlarge : ¬o.c.mapalign ≤ dlPagesize) (hfits : Fits o) : ¬Settles o := by
  intro hsettles
  obtain ⟨hlen, n, hn, hblock, start, hstart, hpos, hlimit⟩ := hfits
  have hmappref (t : Trace) : mappref hintOnly o (cursorAt o n t) = start := by
    have hsum := mappref_cursorAt hintOnly ho hsize hn hblock t
    rw [← hstart] at hsum
    exact (BitVec.add_left_inj _).mp hsum
  have hstate (t : Trace) : afterTrial hintOnly o (cursorAt o n t) = cursorAt o n t :=
    if_pos (show (1 : Int) < 2 by decide)
  have hreserved := reserved_pageAbove hlimit
  have hpage : 0x1000 ∣ start.toNat := by
    rw [← hmappref []]
    exact page_dvd_mappref ho hsize le_rfl _
  have hfree : Free hintOnly o (cursorAt o n (pageAbove start o.maplength)) := by
    rw [Free, hstate, hmappref]
    refine ⟨hlen, hpage, hpos, hlimit, fun r hr => .inl ?_⟩
    rw [cursorAt, hreserved] at hr
    rw [List.mem_singleton.mp hr]
  have hroom : ¬Grants (pageAbove start o.maplength) start (asked o.c o.maplength) := by
    rintro ⟨hasked, -, -, -, hapart⟩
    have hle : o.maplength.toNat ≤ userLimit :=
      (le_pages _).trans ((Nat.le_add_left _ _).trans hlimit)
    have hmore := pages_lt_asked hlarge hk hle hasked
    rw [hreserved] at hapart
    rcases hapart _ (List.mem_singleton_self _) with h | h
    · exact absurd h (Nat.not_le.mpr (Nat.add_lt_add_left hmore _))
    · unfold rangeOf at h
      dsimp only at h
      omega
  obtain ⟨p₁, hrefused⟩ : ∃ p₁, dlMapSegment hintOnly o.c start o.maplength o.fd
      { cursorAt o n (pageAbove start o.maplength) with addr := start } = .ok MAP_FAILED p₁ :=
    dlMapSegment_refused hlarge (if_neg hroom)
  obtain ⟨-, hplaced⟩ := hsettles hintOnly hintOnly_linux (hinted_honours _) {}
    (cursorAt o n (pageAbove start o.maplength))
  obtain ⟨l', p', hplace, -⟩ := hplaced hfree
  have hfailed := (place_ok_iff hintOnly o hsize {} _ p₁ MAP_FAILED
    (by rw [hstate, hmappref]; exact hrefused)).mp ⟨l', p', hplace⟩
  rw [hmappref] at hfailed
  rw [← hfailed] at hpage
  exact absurd hpage (by decide)

theorem settles_iff (fd : Int) (header : Ehdr) (phdr : List Phdr) (o : Object)
    (h : objectOf fd header .ET_DYN phdr = .ok o)
    (hsize : 0#32 < (findExecSize o.loadcmds).size) :
    Settles o ↔ o.c.mapalign ≠ 0#64 ∧ (o.c.mapalign ≤ dlPagesize ∨ ¬Fits o ∧
      o.c.mapalign.toNat ≤ 2 ^ numBitsRequired ((findExecSize o.loadcmds).size.setWidth 64) ∧
      o.c.mapalign.toNat ∣ (codeEnd o).toNat) := by
  have hpaged := objectOf_paged fd header .ET_DYN phdr o h
  constructor
  · intro hsettles
    have hdvd : ∀ p, o.c.mapalign.toNat ∣ (mappref hintOnly o p).toNat :=
      fun p => (hsettles hintOnly hintOnly_linux (hinted_honours _) {} p).1
    have hzero := mapalign_ne_zero hpaged hsize hdvd
    obtain ⟨k, hk⟩ := (objectOf_mapalign fd header .ET_DYN phdr o h).resolve_left hzero
    refine ⟨hzero, or_iff_not_imp_left.mpr fun hlarge => ⟨fun hfits => ?_, ?_⟩⟩
    · exact not_settles_of_fits hpaged hsize hk hlarge hfits hsettles
    · exact dvd_of_mapalign_dvd_mappref hpaged hsize hk hdvd
  · rintro ⟨hzero, hcases⟩ os _ hos l p
    obtain ⟨k, hk⟩ := (objectOf_mapalign fd header .ET_DYN phdr o h).resolve_left hzero
    rcases hcases with hsmall | ⟨hfits, hle, hend⟩
    · have hpage : (dlPagesize).toNat = 2 ^ 12 := rfl
      have hpow : k ≤ 12 := by
        rw [BitVec.le_def, hk, hpage] at hsmall
        exact (Nat.pow_le_pow_iff_right Nat.one_lt_two).mp hsmall
      refine ⟨by rw [hk]; exact page_dvd_mappref hpaged hsize hpow p, fun hfree => ?_⟩
      have hmap : ∃ p₁, dlMapSegment os o.c (mappref os o p) o.maplength o.fd
          { afterTrial os o p with addr := mappref os o p } = .ok (mappref os o p) p₁ :=
        dlMapSegment_free hos hsmall hfree
      obtain ⟨p₁, hmap⟩ := hmap
      obtain ⟨l', p', hplace⟩ := (place_ok_iff os o hsize l p p₁ _ hmap).mpr rfl
      exact ⟨l', p', hplace, by rw [(place_ok os o l l' p p' hsize hplace).1]; rfl⟩
    · rw [hk] at hle hend ⊢
      refine ⟨two_pow_dvd_mappref hpaged hsize hle hend p, fun hfree => ?_⟩
      exact absurd (fits_of_free hpaged hsize hfree) hfits

-- A library of one read-only page and fifteen pages of code.
def alignedTo (align : Word) : List Phdr :=
  [⟨.PT_LOAD, 4, 0x0#64, 0x0#64, 0x1000#64, 0x1000#64, align⟩,
    ⟨.PT_LOAD, 5, 0x1000#64, 0x1000#64, 0xf000#64, 0xf000#64, align⟩]

def pagedObject : Object :=
  (objectOf 3 ⟨0x40#64, 2#64⟩ .ET_DYN (alignedTo 0x1000#64)).toOption.get (by decide)

def hugeObject : Object :=
  (objectOf 3 ⟨0x40#64, 2#64⟩ .ET_DYN (alignedTo 0x200000#64)).toOption.get (by decide)

def cursorState : Process := ⟨0x7f0000000000#64, 2, []⟩

theorem settles_pagedObject : Settles pagedObject :=
  (settles_iff 3 ⟨0x40#64, 2#64⟩ (alignedTo 0x1000#64) pagedObject (by decide)
    (by decide)).mpr ⟨by decide, .inl (by decide)⟩

-- The range is free, but its start is moved up to two megabytes and the load gives up.
theorem hugeObject_not_settles :
    objectOf 3 ⟨0x40#64, 2#64⟩ .ET_DYN (alignedTo 0x200000#64) = .ok hugeObject ∧
      0#32 < (findExecSize hugeObject.loadcmds).size ∧
      Linux hintKernel ∧ Honours hintKernel ∧ Free hintKernel hugeObject cursorState ∧
      ¬hugeObject.c.mapalign.toNat ∣ (mappref hintKernel hugeObject cursorState).toNat ∧
      outcome (dlMapSegments hintKernel hugeObject {}) cursorState = none ∧
      ¬Settles hugeObject := by
  have hdvd : ¬hugeObject.c.mapalign.toNat ∣ (mappref hintKernel hugeObject cursorState).toNat := by
    decide
  refine ⟨by decide, by decide, hintKernel_linux, hinted_honours _,
    by decide, hdvd, by decide, fun hsettles => hdvd ?_⟩
  exact (hsettles hintKernel hintKernel_linux (hinted_honours _) {} cursorState).1

end Platypus.Loader
