import Platypus.Linker.CodeSegment

namespace Platypus.Linker

-- `alignToPowerOf2`
def alignTo (dot align : Nat) : Nat := (dot + align - 1) / align * align

-- `ctx.tlsPhdr`: its first section and its alignment.
structure TlsPhdr where
  firstSec : Option Nat
  p_align : Nat

def tlsPhdr (secs : List OutputSection) : TlsPhdr :=
  let tls := secs.zipIdx.filter fun sec => sec.1.partition = 1 && sec.1.flags.SHF_TLS
  ⟨tls.head?.map Prod.snd, tls.foldl (fun align sec => max align sec.1.addralign) 0⟩

section Align

variable (cfg : LayoutConfig) (tls : TlsPhdr)

-- The expression for the address of the first section of a segment.
def pageAlign (prev : Option PhdrEntry) (p : PhdrEntry) (sec : OutputSection × Nat) (dot : Nat) : Nat :=
  if cfg.zSeparate = .Loadable ||
      (cfg.zSeparate = .Code && prev.any fun q => q.p_flags.PF_X ≠ p.p_flags.PF_X) ||
      sec.1.type = .SHT_LLVM_PART_EHDR then
    alignTo dot cfg.maxPageSize
  else if tls.firstSec = some sec.2 then
    alignTo dot cfg.maxPageSize + alignTo (dot % cfg.maxPageSize) tls.p_align
  else alignTo dot cfg.maxPageSize + dot % cfg.maxPageSize

-- `fixSectionAlignments` for the segments of a partition. The headers are no section of the list.
def fixSectionAlignments : Option PhdrEntry → List PhdrEntry → Nat → Option (Nat → Nat)
  | _, [], _ => none
  | prev, p :: ps, k =>
    match p.headers, p.secs.head? with
    | false, some sec =>
      if sec.2 = k then some (pageAlign cfg tls prev p sec)
      else fixSectionAlignments (some p) ps k
    | _, _ => fixSectionAlignments (some p) ps k

end Align

-- `sec->addrExpr`
def addrExpr (cfg : LayoutConfig) (parts : List (Fin 256)) (secs : List OutputSection) (k : Nat) :
    Option (Nat → Nat) :=
  parts.findSome? fun part =>
    fixSectionAlignments cfg (tlsPhdr secs) none (createPhdrs cfg part secs) k

structure AddressState where
  dot : Nat
  tbssAddr : Nat := 0

-- The address of a section, and the state after it.
def assignOffsets (expr : Option (Nat → Nat)) (st : AddressState) (osec : OutputSection) :
    Nat × AddressState :=
  if !osec.flags.SHF_ALLOC then (alignTo 0 osec.addralign, st)
  else if osec.flags.SHF_TLS && osec.type = .SHT_NOBITS then
    let addr := alignTo (if st.tbssAddr = 0 then st.dot else st.tbssAddr) osec.addralign
    (addr, { st with tbssAddr := addr + osec.size })
  else
    let dot := match expr with
      | some expr => expr st.dot
      | none => st.dot
    let addr := alignTo dot osec.addralign
    (addr, { st with dot := addr + osec.size })

def assignFrom (expr : Nat → Option (Nat → Nat)) : AddressState → List (OutputSection × Nat) → List Nat
  | _, [] => []
  | st, sec :: secs =>
    let (addr, st) := assignOffsets (expr sec.2) st sec.1
    addr :: assignFrom expr st secs

-- `assignAddresses`: `dot` is the end of the headers.
def assignAddresses (cfg : LayoutConfig) (parts : List (Fin 256)) (secs : List OutputSection)
    (dot : Nat) : List Nat :=
  assignFrom (addrExpr cfg parts secs) { dot := dot } secs.zipIdx

section Monotone

theorem le_alignTo (dot : Nat) {align : Nat} (h : 0 < align) : dot ≤ alignTo dot align := by
  have hdiv := Nat.div_add_mod (dot + align - 1) align
  have hmod := Nat.mod_lt (dot + align - 1) h
  rw [alignTo, Nat.mul_comm]
  omega

theorem alignTo_mono {dot dot' : Nat} (align : Nat) (h : dot ≤ dot') :
    alignTo dot align ≤ alignTo dot' align :=
  Nat.mul_le_mul_right _ (Nat.div_le_div_right (by omega))

theorem dvd_alignTo (dot align : Nat) : align ∣ alignTo dot align := Nat.dvd_mul_left _ _

-- `alignTo` gives the least multiple that is not below.
theorem alignTo_le {dot align m : Nat} (hdvd : align ∣ m) (h : dot ≤ m) : alignTo dot align ≤ m := by
  obtain ⟨c, rfl⟩ := hdvd
  rcases Nat.eq_zero_or_pos align with rfl | hpos
  · rw [alignTo, Nat.mul_zero]
    exact Nat.zero_le _
  · have hdiv : (dot + align - 1) / align < c + 1 := by
      rw [Nat.div_lt_iff_lt_mul hpos, Nat.add_mul, Nat.mul_comm c]
      omega
    rw [alignTo, Nat.mul_comm]
    exact Nat.mul_le_mul_left _ (Nat.le_of_lt_succ hdiv)

theorem alignTo_le_pageAlign (cfg : LayoutConfig) (tls : TlsPhdr) (prev : Option PhdrEntry)
    (p : PhdrEntry) (sec : OutputSection × Nat) (dot : Nat) :
    alignTo dot cfg.maxPageSize ≤ pageAlign cfg tls prev p sec dot := by
  unfold pageAlign
  split_ifs <;> omega

end Monotone

-- The address of a section that is placed after `dot`.

def PageAligned (page : Nat) (expr : Nat → Option (Nat → Nat)) : Prop :=
  ∀ k g, expr k = some g → ∀ dot, alignTo dot page ≤ g dot

section Assign

variable {page : Nat} {expr : Nat → Option (Nat → Nat)} {st : AddressState}

theorem assignOffsets_of_needsPtLoad (e : Option (Nat → Nat)) (st : AddressState)
    {osec : OutputSection} (h : needsPtLoad osec = true) :
    (assignOffsets e st osec).1 = alignTo ((e.map (· st.dot)).getD st.dot) osec.addralign ∧
      (assignOffsets e st osec).2.dot = (assignOffsets e st osec).1 + osec.size := by
  simp only [needsPtLoad, Bool.and_eq_true, Bool.not_eq_true'] at h
  unfold assignOffsets
  rw [h.1, h.2, Bool.not_true, if_neg Bool.false_ne_true, if_neg Bool.false_ne_true]
  cases e <;> exact ⟨rfl, rfl⟩

theorem dot_le_assignOffsets (hpage : 0 < page) (hexpr : PageAligned page expr) (k : Nat)
    (st : AddressState) {osec : OutputSection} (halign : 0 < osec.addralign) :
    st.dot ≤ (assignOffsets (expr k) st osec).2.dot ∧
      (needsPtLoad osec = true → st.dot ≤ (assignOffsets (expr k) st osec).1) := by
  by_cases h : needsPtLoad osec = true
  · obtain ⟨haddr, hdot⟩ := assignOffsets_of_needsPtLoad (expr k) st h
    have hle : st.dot ≤ ((expr k).map (· st.dot)).getD st.dot := by
      cases hk : expr k with
      | none => exact Nat.le_refl _
      | some g => exact (le_alignTo st.dot hpage).trans (hexpr k g hk st.dot)
    have haddr' := hle.trans (le_alignTo _ halign)
    rw [← haddr] at haddr'
    exact ⟨haddr'.trans (hdot ▸ Nat.le_add_right _ _), fun _ => haddr'⟩
  · refine ⟨?_, fun hneeds => absurd hneeds h⟩
    simp only [needsPtLoad, Bool.and_eq_true, Bool.not_eq_true', not_and, Bool.not_eq_false] at h
    unfold assignOffsets
    split
    · exact Nat.le_refl _
    · rename_i halloc
      have htbss := h (by simpa using halloc)
      rw [htbss.1, htbss.2, Bool.and_self, if_pos rfl]

theorem dot_le_addr (hpage : 0 < page) (hexpr : PageAligned page expr)
    (secs : List (OutputSection × Nat)) (halign : ∀ sec ∈ secs, 0 < sec.1.addralign)
    (st : AddressState) {j : Nat} {sec : OutputSection × Nat} (hj : secs[j]? = some sec)
    (hneeds : needsPtLoad sec.1 = true) {addr : Nat}
    (haddr : (assignFrom expr st secs)[j]? = some addr) : st.dot ≤ addr := by
  induction secs generalizing st j with
  | nil => exact absurd hj (by simp)
  | cons s secs ih =>
    obtain ⟨hdot, hself⟩ := dot_le_assignOffsets hpage hexpr s.2 st (halign s List.mem_cons_self)
    cases j with
    | zero =>
      rw [List.getElem?_cons_zero, Option.some_inj] at hj
      rw [assignFrom, List.getElem?_cons_zero, Option.some_inj] at haddr
      rw [← haddr]
      exact hself (hj ▸ hneeds)
    | succ j =>
      rw [List.getElem?_cons_succ] at hj
      rw [assignFrom, List.getElem?_cons_succ] at haddr
      exact hdot.trans (ih (fun s hs => halign s (List.mem_cons_of_mem _ hs)) _ hj haddr)

-- The first section of a segment starts a page.
theorem page_le_addr (hpage : 0 < page) (hexpr : PageAligned page expr)
    (secs : List (OutputSection × Nat)) (halign : ∀ sec ∈ secs, 0 < sec.1.addralign)
    (st : AddressState) {f j : Nat} (hf : f ≤ j) {first sec : OutputSection × Nat}
    (hfirst : secs[f]? = some first) (hfirstNeeds : needsPtLoad first.1 = true)
    (hsome : (expr first.2).isSome) (hj : secs[j]? = some sec)
    (hneeds : needsPtLoad sec.1 = true) {addr : Nat}
    (haddr : (assignFrom expr st secs)[j]? = some addr) : alignTo st.dot page ≤ addr := by
  induction secs generalizing st f j with
  | nil => exact absurd hj (by simp)
  | cons s secs ih =>
    have hrest := fun s' hs => halign s' (List.mem_cons_of_mem s hs)
    cases f with
    | zero =>
      rw [List.getElem?_cons_zero, Option.some_inj] at hfirst
      subst hfirst
      obtain ⟨g, hg⟩ := Option.isSome_iff_exists.mp hsome
      obtain ⟨hself, hdot⟩ := assignOffsets_of_needsPtLoad (expr s.2) st hfirstNeeds
      have hpageAddr : alignTo st.dot page ≤ (assignOffsets (expr s.2) st s.1).1 := by
        rw [hself, hg, Option.map_some, Option.getD_some]
        exact (hexpr s.2 g hg st.dot).trans (le_alignTo _ (halign s List.mem_cons_self))
      cases j with
      | zero =>
        rw [assignFrom, List.getElem?_cons_zero, Option.some_inj] at haddr
        exact haddr ▸ hpageAddr
      | succ j =>
        rw [List.getElem?_cons_succ] at hj
        rw [assignFrom, List.getElem?_cons_succ] at haddr
        have hle := dot_le_addr hpage hexpr secs hrest _ hj hneeds haddr
        omega
    | succ f =>
      obtain ⟨j, rfl⟩ : ∃ i, j = i + 1 := ⟨j - 1, by omega⟩
      rw [List.getElem?_cons_succ] at hfirst hj
      rw [assignFrom, List.getElem?_cons_succ] at haddr
      obtain ⟨hdot, -⟩ := dot_le_assignOffsets hpage hexpr s.2 st (halign s List.mem_cons_self)
      exact (alignTo_mono page hdot).trans
        (ih hrest _ (Nat.le_of_succ_le_succ hf) hfirst hj haddr)

-- The sections after one are placed from its end.
theorem assignFrom_after (expr : Nat → Option (Nat → Nat)) (secs : List (OutputSection × Nat))
    (st : AddressState) {i addr : Nat} {sec : OutputSection × Nat} (hi : secs[i]? = some sec)
    (hneeds : needsPtLoad sec.1 = true) (haddr : (assignFrom expr st secs)[i]? = some addr) :
    ∃ st' : AddressState, st'.dot = addr + sec.1.size ∧ ∀ j,
      (assignFrom expr st secs)[i + 1 + j]? = (assignFrom expr st' (secs.drop (i + 1)))[j]? := by
  induction secs generalizing st i with
  | nil => exact absurd hi (by simp)
  | cons s secs ih =>
    cases i with
    | zero =>
      rw [List.getElem?_cons_zero, Option.some_inj] at hi
      subst hi
      rw [assignFrom, List.getElem?_cons_zero, Option.some_inj] at haddr
      refine ⟨_, (assignOffsets_of_needsPtLoad (expr s.2) st hneeds).2.trans (haddr ▸ rfl), ?_⟩
      intro j
      rw [assignFrom, Nat.zero_add, Nat.add_comm 1 j, List.getElem?_cons_succ]
      rfl
    | succ i =>
      rw [List.getElem?_cons_succ] at hi
      rw [assignFrom, List.getElem?_cons_succ] at haddr
      obtain ⟨st', hdot, hrest⟩ := ih _ hi haddr
      refine ⟨st', hdot, fun j => ?_⟩
      rw [assignFrom, Nat.add_right_comm, Nat.add_right_comm _ 1 j, List.getElem?_cons_succ,
        List.drop_succ_cons, ← hrest j, Nat.add_right_comm]

theorem length_assignFrom (expr : Nat → Option (Nat → Nat)) (st : AddressState)
    (secs : List (OutputSection × Nat)) : (assignFrom expr st secs).length = secs.length := by
  induction secs generalizing st with
  | nil => rfl
  | cons sec secs ih =>
    rw [assignFrom, List.length_cons, List.length_cons, ih]

section After

variable (hpage : 0 < page) (hexpr : PageAligned page expr) {secs : List (OutputSection × Nat)}
  (halign : ∀ sec ∈ secs, 0 < sec.1.addralign) {i j : Nat} {start sec : OutputSection × Nat}
  (hi : secs[i]? = some start) (hstartNeeds : needsPtLoad start.1 = true)
  (hj : secs[j]? = some sec) (hneeds : needsPtLoad sec.1 = true) {startAddr addr : Nat}
  (hstartAddr : (assignFrom expr st secs)[i]? = some startAddr)
  (haddr : (assignFrom expr st secs)[j]? = some addr)

include hpage hexpr halign hi hstartNeeds hj hneeds hstartAddr haddr

theorem end_le_addr (hij : i < j) : startAddr + start.1.size ≤ addr := by
  obtain ⟨st', hdot, hrest⟩ := assignFrom_after expr secs st hi hstartNeeds hstartAddr
  obtain ⟨k, rfl⟩ : ∃ k, j = i + 1 + k := ⟨j - (i + 1), by omega⟩
  rw [hrest] at haddr
  rw [← hdot]
  exact dot_le_addr hpage hexpr _ (fun s hs => halign s (List.mem_of_mem_drop hs)) st'
    (List.getElem?_drop.trans hj) hneeds haddr

-- Between a section and one after it, there is a page boundary where a segment starts.
theorem page_between {f : Nat} (hif : i < f) (hfj : f ≤ j) {first : OutputSection × Nat}
    (hfirst : secs[f]? = some first) (hfirstNeeds : needsPtLoad first.1 = true)
    (hsome : (expr first.2).isSome) : alignTo (startAddr + start.1.size) page ≤ addr := by
  obtain ⟨st', hdot, hrest⟩ := assignFrom_after expr secs st hi hstartNeeds hstartAddr
  obtain ⟨k, rfl⟩ : ∃ k, j = i + 1 + k := ⟨j - (i + 1), by omega⟩
  obtain ⟨g, rfl⟩ : ∃ g, f = i + 1 + g := ⟨f - (i + 1), by omega⟩
  rw [hrest] at haddr
  rw [← hdot]
  exact page_le_addr hpage hexpr _ (fun s hs => halign s (List.mem_of_mem_drop hs)) st'
    (Nat.le_of_add_le_add_left hfj) (List.getElem?_drop.trans hfirst) hfirstNeeds hsome
    (List.getElem?_drop.trans hj) hneeds haddr

end After

end Assign

-- The first section of each segment gets an expression that aligns it.

section Expr

variable {cfg : LayoutConfig} {tls : TlsPhdr} {phdrs : List PhdrEntry} {k : Nat}

theorem fixSectionAlignments_pageAligned (prev : Option PhdrEntry) {g : Nat → Nat}
    (h : fixSectionAlignments cfg tls prev phdrs k = some g) (dot : Nat) :
    alignTo dot cfg.maxPageSize ≤ g dot := by
  induction phdrs generalizing prev with
  | nil => exact absurd h (by simp [fixSectionAlignments])
  | cons p ps ih =>
    rw [fixSectionAlignments] at h
    split at h
    · split at h
      · rw [← Option.some_inj.mp h]
        exact alignTo_le_pageAlign cfg tls prev p _ dot
      · exact ih _ h
    · exact ih _ h

theorem fixSectionAlignments_isSome (prev : Option PhdrEntry) {e : PhdrEntry} (he : e ∈ phdrs)
    (hheaders : e.headers = false) {first : OutputSection × Nat} (hhead : e.secs.head? = some first) :
    (fixSectionAlignments cfg tls prev phdrs first.2).isSome := by
  induction phdrs generalizing prev with
  | nil => exact absurd he List.not_mem_nil
  | cons p ps ih =>
    rw [fixSectionAlignments]
    rcases List.mem_cons.mp he with rfl | he
    · simp [hheaders, hhead]
    · split
      · split
        · rfl
        · exact ih _ he
      · exact ih _ he

theorem addrExpr_pageAligned (cfg : LayoutConfig) (parts : List (Fin 256))
    (secs : List OutputSection) : PageAligned cfg.maxPageSize (addrExpr cfg parts secs) := by
  intro k g hg dot
  obtain ⟨part, -, hpart⟩ := List.exists_of_findSome?_eq_some hg
  exact fixSectionAlignments_pageAligned none hpart dot

theorem addrExpr_isSome {parts : List (Fin 256)} {part : Fin 256} (hpart : part ∈ parts)
    {secs : List OutputSection} {e : PhdrEntry} (he : e ∈ createPhdrs cfg part secs)
    (hheaders : e.headers = false) {first : OutputSection × Nat} (hhead : e.secs.head? = some first) :
    (addrExpr cfg parts secs first.2).isSome :=
  List.findSome?_isSome_iff.mpr ⟨part, hpart, fixSectionAlignments_isSome none he hheaders hhead⟩

end Expr

end Platypus.Linker
