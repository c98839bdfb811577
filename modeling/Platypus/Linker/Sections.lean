import Mathlib.Data.List.Sort
import Mathlib.Data.Prod.Lex
import Platypus.Linker.Symbols

namespace Platypus.Linker

-- The partitions are numbered from 1 to 254.
instance partitionsNeZero : NeZero 256 := ⟨by decide⟩

inductive EMachine
  | EM_X86_64
  | EM_386
  | EM_AARCH64
  | EM_PPC64
  | EM_MIPS
  | EM_RISCV
  deriving DecidableEq, Repr

inductive SecType
  | SHT_PROGBITS
  | SHT_NOBITS
  | SHT_NOTE
  | SHT_INIT_ARRAY
  | SHT_FINI_ARRAY
  | SHT_PREINIT_ARRAY
  | SHT_LLVM_PART_EHDR
  | SHT_LLVM_PART_PHDR
  | other
  deriving DecidableEq, Repr

structure SecFlags where
  SHF_ALLOC : Bool := false
  SHF_WRITE : Bool := false
  SHF_EXECINSTR : Bool := false
  SHF_TLS : Bool := false
  SHF_X86_64_LARGE : Bool := false
  SHF_MIPS_GPREL : Bool := false
  deriving DecidableEq, Repr

-- An output section. The last fields say which synthetic sections it is the parent of, as far as
-- this decides whether it is read-only after relocation.
structure OutputSection where
  name : Name
  type : SecType := .SHT_PROGBITS
  flags : SecFlags := { SHF_ALLOC := true }
  partition : Fin 256 := 1
  addralign : Nat := 1
  size : Nat := 0
  sortRank : Nat := 0
  relro : Bool := false
  holdsGot : Bool := false
  holdsGotPlt : Bool := false
  holdsRelroPadding : Bool := false
  deriving DecidableEq, Repr

inductive SeparateSegmentKind
  | None
  | Code
  | Loadable
  deriving DecidableEq, Repr

-- The options of the link that the layout reads.
structure LayoutConfig where
  emachine : EMachine := .EM_X86_64
  openbsd : Bool := false
  zRelro : Bool := true
  zNow : Bool := false
  zLrodataAfterBss : Bool := false
  sectionStartMap : List (Name × Nat) := []
  omagic : Bool := false
  nmagic : Bool := false
  executeOnly : Bool := false
  singleRoRx : Bool := false
  zSeparate : SeparateSegmentKind := .None
  maxPageSize : Nat := 0x1000

def relroNames : List Name :=
  [".data.rel.ro", ".bss.rel.ro", ".ctors", ".dtors", ".jcr", ".eh_frame", ".fini_array",
    ".init_array", ".preinit_array"].map String.toList

section Rank

variable (cfg : LayoutConfig) (osec : OutputSection)

def isRelroSection : Bool :=
  if !cfg.zRelro then false
  else if osec.relro then true
  else if !osec.flags.SHF_ALLOC || !osec.flags.SHF_WRITE then false
  else if osec.flags.SHF_TLS then true
  else if osec.type ∈ [.SHT_INIT_ARRAY, .SHT_FINI_ARRAY, .SHT_PREINIT_ARRAY] then true
  else if osec.holdsGot then true
  else if osec.name = ".toc".toList then true
  else if osec.holdsGotPlt then cfg.zNow
  else if osec.holdsRelroPadding then true
  else if osec.name = ".dynamic".toList then true
  else osec.name ∈ relroNames || (cfg.openbsd && osec.name = ".openbsd.randomdata".toList)

def RF_NOT_ADDR_SET : Nat := 2 ^ 27
def RF_NOT_ALLOC : Nat := 2 ^ 26
def RF_PARTITION : Nat := 2 ^ 18
def RF_LARGE_ALT : Nat := 2 ^ 15
def RF_WRITE : Nat := 2 ^ 14
def RF_EXEC_WRITE : Nat := 2 ^ 13
def RF_EXEC : Nat := 2 ^ 12
def RF_RODATA : Nat := 2 ^ 11
def RF_LARGE : Nat := 2 ^ 10
def RF_NOT_RELRO : Nat := 2 ^ 9
def RF_NOT_TLS : Nat := 2 ^ 8
def RF_BSS : Nat := 2 ^ 7

def isLarge : Bool := osec.flags.SHF_X86_64_LARGE && cfg.emachine = .EM_X86_64

-- The part of the rank for sections that are only read.
def readRank : Nat :=
  let large :=
    if isLarge cfg osec then if cfg.zLrodataAfterBss then RF_LARGE_ALT else 0
    else if cfg.zLrodataAfterBss then 0 else RF_LARGE
  large |||
    if osec.type = .SHT_LLVM_PART_EHDR then 0
    else if osec.type = .SHT_LLVM_PART_PHDR then 1
    else if osec.name = ".interp".toList then 2
    else if osec.type = .SHT_NOTE then 3
    else if osec.type ≠ .SHT_PROGBITS then 4
    else RF_RODATA

def writeRank : Nat :=
  RF_WRITE ||| (if osec.flags.SHF_TLS then 0 else RF_NOT_TLS) |||
    (if isRelroSection cfg osec then 0 else RF_NOT_RELRO) |||
    (if isLarge cfg osec then
      if cfg.zLrodataAfterBss then if osec.type = .SHT_NOBITS then 1 else RF_LARGE_ALT
      else RF_LARGE
    else 0)

-- R, RX, RWX, RW in this order.
def accessRank : Nat :=
  if !osec.flags.SHF_WRITE && !osec.flags.SHF_EXECINSTR then readRank cfg osec
  else if osec.flags.SHF_EXECINSTR then
    if osec.flags.SHF_WRITE then RF_EXEC_WRITE else RF_EXEC
  else writeRank cfg osec

def machineRank : Nat :=
  match cfg.emachine with
  | .EM_PPC64 => if osec.name = ".got".toList then 1 else if osec.name = ".toc".toList then 2 else 0
  | .EM_MIPS =>
    (if osec.name ≠ ".got".toList then 1 else 0) ||| if osec.flags.SHF_MIPS_GPREL then 2 else 0
  | .EM_RISCV =>
    if osec.name = ".sdata".toList ||
        (osec.type = .SHT_NOBITS && osec.name ≠ ".sbss".toList) then 1
    else 0
  | _ => 0

def getSectionRank : Nat :=
  let rank := osec.partition.val * RF_PARTITION
  if (cfg.sectionStartMap.lookup osec.name).isSome then rank
  else
    let rank := rank ||| RF_NOT_ADDR_SET
    if !osec.flags.SHF_ALLOC then rank ||| RF_NOT_ALLOC
    else
      rank ||| accessRank cfg osec ||| (if osec.type = .SHT_NOBITS then RF_BSS else 0) |||
        machineRank cfg osec

-- The side effects of the ranking: the rank is stored, and so is whether the section is relro.
def setRank : OutputSection :=
  { osec with
    sortRank := getSectionRank cfg osec
    relro := osec.relro ||
      ((cfg.sectionStartMap.lookup osec.name).isNone && osec.flags.SHF_ALLOC &&
        osec.flags.SHF_WRITE && !osec.flags.SHF_EXECINSTR && isRelroSection cfg osec) }

end Rank

def compareSections (cfg : LayoutConfig) (a b : OutputSection) : Bool :=
  if a.name = ".plt".toList then false
  else if b.name = ".plt".toList then true
  else if a.name = ".plt.sec".toList then false
  else if b.name = ".plt.sec".toList then true
  else if a.sortRank ≠ b.sortRank then a.sortRank < b.sortRank
  else if a.sortRank &&& RF_NOT_ADDR_SET = 0 then
    (cfg.sectionStartMap.lookup a.name).getD 0 < (cfg.sectionStartMap.lookup b.name).getD 0
  else false

-- A command of the script: without `SECTIONS`, an output section or an assignment.
inductive SectionCommand
  | output (osec : OutputSection)
  | assignment (name : Name)
  deriving DecidableEq, Repr

def SectionCommand.osec? : SectionCommand → Option OutputSection
  | .output osec => some osec
  | .assignment _ => none

-- A section that follows `.plt` is put on a page of its own.
def alignAfterPlt : Bool → List SectionCommand → List SectionCommand
  | _, [] => []
  | foundPlt, .assignment name :: cmds => .assignment name :: alignAfterPlt foundPlt cmds
  | foundPlt, .output osec :: cmds =>
    if osec.name = ".plt".toList then .output osec :: alignAfterPlt true cmds
    else if foundPlt then .output { osec with addralign := max osec.addralign 0x1000 } :: cmds
    else .output osec :: alignAfterPlt foundPlt cmds

-- The output sections of the commands, ranked and then sorted; equal ones keep their order.
def sortedSections (cfg : LayoutConfig) (cmds : List SectionCommand) : List OutputSection :=
  ((cmds.filterMap SectionCommand.osec?).map (setRank cfg)).insertionSort
    fun a b => compareSections cfg b a = false

-- `sortSections` without a `SECTIONS` command: the output sections go to the front.
def sortSections (cfg : LayoutConfig) (cmds : List SectionCommand) : List SectionCommand :=
  alignAfterPlt false ((sortedSections cfg cmds).map .output ++
    cmds.filter fun cmd => cmd.osec?.isNone)

-- `ctx.outputSections`
def outputSections (cfg : LayoutConfig) (cmds : List SectionCommand) : List OutputSection :=
  (sortSections cfg cmds).filterMap SectionCommand.osec?

-- The order of the sections is that of a key: `.plt` last, `.plt.sec` before it.

def sortClass (osec : OutputSection) : Nat :=
  if osec.name = ".plt".toList then 2 else if osec.name = ".plt.sec".toList then 1 else 0

def sortKey (cfg : LayoutConfig) (osec : OutputSection) : Nat ×ₗ Nat ×ₗ Nat :=
  toLex (sortClass osec, toLex (if sortClass osec = 0 then osec.sortRank else 0,
    if sortClass osec = 0 ∧ osec.sortRank &&& RF_NOT_ADDR_SET = 0 then
      (cfg.sectionStartMap.lookup osec.name).getD 0
    else 0))

theorem compareSections_iff (cfg : LayoutConfig) (a b : OutputSection) :
    compareSections cfg a b = true ↔ sortKey cfg a < sortKey cfg b := by
  have hne : ".plt".toList ≠ ".plt.sec".toList := by decide
  unfold compareSections sortKey sortClass
  simp only [Prod.Lex.toLex_lt_toLex]
  by_cases ha : a.name = ".plt".toList
  · simp only [ha, if_true]
    split_ifs <;> simp_all
  · simp only [ha, if_false]
    by_cases hb : b.name = ".plt".toList
    · simp only [hb, if_true]
      split_ifs <;> simp
    · simp only [hb, if_false]
      by_cases ha' : a.name = ".plt.sec".toList
      · simp only [ha', if_true]
        split_ifs <;> simp_all
      · simp only [ha', if_false]
        by_cases hb' : b.name = ".plt.sec".toList
        · simp [hb']
        · simp only [hb', if_false, if_true, true_and]
          by_cases hrank : a.sortRank = b.sortRank
          · simp only [hrank, ne_eq, not_true_eq_false, if_false, lt_irrefl, false_or, true_and]
            split_ifs <;> simp
          · simp [hrank]

structure StrictWeakOrdering {α : Type} (lt : α → α → Prop) : Prop where
  irrefl : ∀ a, ¬lt a a
  trans : ∀ a b c, lt a b → lt b c → lt a c
  incomparable : ∀ a b c, ¬lt a b → ¬lt b a → ¬lt b c → ¬lt c b → ¬lt a c ∧ ¬lt c a

theorem compareSections_strictWeakOrdering (cfg : LayoutConfig) :
    StrictWeakOrdering fun a b => compareSections cfg a b = true where
  irrefl a := by
    rw [compareSections_iff]
    exact lt_irrefl _
  trans a b c := by
    simp only [compareSections_iff]
    exact lt_trans
  incomparable a b c := by
    simp only [compareSections_iff, not_lt]
    intro hba hab hcb hbc
    exact ⟨hcb.trans hba, hab.trans hbc⟩

theorem compareSections_eq_false_iff (cfg : LayoutConfig) (a b : OutputSection) :
    compareSections cfg b a = false ↔ sortKey cfg a ≤ sortKey cfg b := by
  rw [← Bool.not_eq_true, compareSections_iff, not_lt]

theorem sortedSections_pairwise (cfg : LayoutConfig) (cmds : List SectionCommand) :
    (sortedSections cfg cmds).Pairwise fun a b => sortKey cfg a ≤ sortKey cfg b := by
  have htotal : Std.Total fun a b : OutputSection => compareSections cfg b a = false :=
    ⟨fun a b => by simpa only [compareSections_eq_false_iff] using le_total _ _⟩
  have htrans : IsTrans OutputSection fun a b => compareSections cfg b a = false :=
    ⟨fun a b c => by simpa only [compareSections_eq_false_iff] using le_trans⟩
  refine (List.pairwise_insertionSort _ _).imp fun {a b} h => ?_
  exact (compareSections_eq_false_iff cfg a b).mp h

theorem sortedSections_perm (cfg : LayoutConfig) (cmds : List SectionCommand) :
    (sortedSections cfg cmds).Perm ((cmds.filterMap SectionCommand.osec?).map (setRank cfg)) :=
  List.perm_insertionSort _ _

section RankBounds

variable (cfg : LayoutConfig) (osec : OutputSection)

-- What orders the allocated sections of a partition.
def lowRank : Nat :=
  accessRank cfg osec ||| (if osec.type = .SHT_NOBITS then RF_BSS else 0) ||| machineRank cfg osec

theorem machineRank_lt : machineRank cfg osec < 2 ^ 2 := by
  unfold machineRank
  split
  · split_ifs <;> decide
  · split_ifs <;> decide
  · split_ifs <;> decide
  · decide

theorem bssRank_lt : (if osec.type = .SHT_NOBITS then RF_BSS else 0) < 2 ^ 8 := by
  split <;> decide

theorem lowRank_lt {k : Nat} (hk : 8 ≤ k) (h : accessRank cfg osec < 2 ^ k) :
    lowRank cfg osec < 2 ^ k := by
  have hpow : 2 ^ 8 ≤ 2 ^ k := Nat.pow_le_pow_right (by decide) hk
  have hbss := bssRank_lt osec
  have hmachine := machineRank_lt cfg osec
  exact Nat.or_lt_two_pow (Nat.or_lt_two_pow h (by omega)) (by omega)

theorem accessRank_le_lowRank : accessRank cfg osec ≤ lowRank cfg osec :=
  Nat.left_le_or.trans Nat.left_le_or

theorem lowRank_read (hlarge : isLarge cfg osec = false) (hw : osec.flags.SHF_WRITE = false)
    (hx : osec.flags.SHF_EXECINSTR = false) : lowRank cfg osec < 2 ^ 12 := by
  refine lowRank_lt cfg osec (by decide) ?_
  have hlow : ∀ large rest : Nat, large < 2 ^ 12 → rest < 2 ^ 12 → large ||| rest < 2 ^ 12 :=
    fun _ _ => Nat.or_lt_two_pow
  simp only [accessRank, hw, hx, Bool.not_false, Bool.and_self, if_true, readRank, hlarge,
    Bool.false_eq_true, if_false]
  apply hlow
  · split <;> decide
  · split_ifs <;> decide

theorem accessRank_exec (hw : osec.flags.SHF_WRITE = false)
    (hx : osec.flags.SHF_EXECINSTR = true) : accessRank cfg osec = RF_EXEC := by
  simp [accessRank, hw, hx]

theorem lowRank_exec (hw : osec.flags.SHF_WRITE = false)
    (hx : osec.flags.SHF_EXECINSTR = true) :
    2 ^ 12 ≤ lowRank cfg osec ∧ lowRank cfg osec < 2 ^ 13 := by
  have haccess := accessRank_exec cfg osec hw hx
  refine ⟨?_, lowRank_lt cfg osec (by decide) (by rw [haccess]; decide)⟩
  exact (Nat.le_of_eq haccess.symm).trans (accessRank_le_lowRank cfg osec)

-- Among the executable sections those without contents go last.
theorem lowRank_nobits (hw : osec.flags.SHF_WRITE = false)
    (hx : osec.flags.SHF_EXECINSTR = true) :
    2 ^ 12 + 2 ^ 7 ≤ lowRank cfg osec ↔ osec.type = .SHT_NOBITS := by
  have hmachine := machineRank_lt cfg osec
  unfold lowRank
  rw [accessRank_exec cfg osec hw hx]
  split
  · rename_i hbss
    exact iff_of_true (Nat.left_le_or (m := machineRank cfg osec)) hbss
  · rename_i hbss
    refine iff_of_false ?_ hbss
    have hlt : machineRank cfg osec < 2 ^ 12 := by omega
    have hadd : RF_EXEC ||| machineRank cfg osec = 2 ^ 12 + machineRank cfg osec :=
      (Nat.two_pow_add_eq_or_of_lt hlt 1).symm
    rw [Nat.or_zero, hadd]
    omega

theorem lowRank_write (hlarge : isLarge cfg osec = false) (hw : osec.flags.SHF_WRITE = true)
    (hx : osec.flags.SHF_EXECINSTR = false) :
    2 ^ 14 ≤ lowRank cfg osec ∧ lowRank cfg osec < 2 ^ 15 := by
  have haccess : accessRank cfg osec = writeRank cfg osec := by simp [accessRank, hw, hx]
  have hwrite : writeRank cfg osec < 2 ^ 15 := by
    simp only [writeRank, hlarge, Bool.false_eq_true, if_false]
    refine Nat.or_lt_two_pow (Nat.or_lt_two_pow (Nat.or_lt_two_pow (by decide) ?_) ?_) (by decide)
    · split <;> decide
    · split <;> decide
  refine ⟨?_, lowRank_lt cfg osec (by decide) (haccess ▸ hwrite)⟩
  refine Nat.le_trans ?_ (accessRank_le_lowRank cfg osec)
  rw [haccess]
  exact (Nat.left_le_or.trans Nat.left_le_or).trans Nat.left_le_or

theorem getSectionRank_alloc (hstart : cfg.sectionStartMap = [])
    (halloc : osec.flags.SHF_ALLOC = true) (hlow : lowRank cfg osec < 2 ^ 18) :
    getSectionRank cfg osec = 2 ^ 27 + osec.partition.val * 2 ^ 18 + lowRank cfg osec := by
  have hpart : osec.partition.val * 2 ^ 18 ||| 2 ^ 27 = (2 ^ 9 + osec.partition.val) * 2 ^ 18 := by
    have hlt := osec.partition.isLt
    rw [Nat.or_comm, show (2 : Nat) ^ 27 = 2 ^ 27 * 1 by decide,
      ← Nat.two_pow_add_eq_or_of_lt (by omega) 1]
    omega
  unfold getSectionRank
  simp only [hstart, List.lookup_nil, Option.isSome_none, Bool.false_eq_true, if_false, halloc,
    Bool.not_true, Nat.or_assoc]
  rw [← Nat.or_assoc, show RF_PARTITION = 2 ^ 18 from rfl, show RF_NOT_ADDR_SET = 2 ^ 27 from rfl,
    hpart, ← Nat.or_assoc (accessRank cfg osec), ← lowRank, Nat.mul_comm,
    ← Nat.two_pow_add_eq_or_of_lt hlow]
  omega

end RankBounds

-- A list that is sorted by a measure is cut in two at every value of it.
theorem filter_lt_append_filter {α : Type} (f : α → Nat) (t : Nat) {l : List α}
    (h : l.Pairwise fun a b => f a ≤ f b) :
    l.filter (f · < t) ++ l.filter (t ≤ f ·) = l := by
  induction l with
  | nil => rfl
  | cons a l ih =>
    obtain ⟨ha, hl⟩ := List.pairwise_cons.mp h
    by_cases hlt : f a < t
    · rw [List.filter_cons_of_pos (by simpa using hlt), List.filter_cons_of_neg (by simpa using hlt),
        List.cons_append, ih hl]
    · have hall : ∀ b ∈ l, t ≤ f b := fun b hb => (Nat.le_of_not_lt hlt).trans (ha b hb)
      have hnone : l.filter (f · < t) = [] := by
        rw [List.filter_eq_nil_iff]
        intro b hb
        simpa using hall b hb
      have hfull : l.filter (t ≤ f ·) = l := by
        rw [List.filter_eq_self]
        intro b hb
        simpa using hall b hb
      rw [List.filter_cons_of_neg (by simpa using hlt), List.filter_cons_of_pos (by simpa using hlt),
        hnone, hfull, List.nil_append]

section Sorted

variable (cfg : LayoutConfig) (cmds : List SectionCommand)

-- The sections other than `.plt` and `.plt.sec`.
def otherSections : List OutputSection := (sortedSections cfg cmds).filter (sortClass · < 1)

def pltSections : List OutputSection := (sortedSections cfg cmds).filter (1 ≤ sortClass ·)

theorem sortClass_pairwise :
    (sortedSections cfg cmds).Pairwise fun a b => sortClass a ≤ sortClass b :=
  (sortedSections_pairwise cfg cmds).imp fun h => (Prod.Lex.le_iff.mp h).elim Nat.le_of_lt
    fun h => Nat.le_of_eq h.1

theorem sortedSections_eq : otherSections cfg cmds ++ pltSections cfg cmds = sortedSections cfg cmds :=
  filter_lt_append_filter sortClass 1 (sortClass_pairwise cfg cmds)

theorem pltSections_eq :
    pltSections cfg cmds = (sortedSections cfg cmds).filter (·.name = ".plt.sec".toList) ++
      (sortedSections cfg cmds).filter (·.name = ".plt".toList) := by
  have hpairwise : (pltSections cfg cmds).Pairwise fun a b => sortClass a ≤ sortClass b :=
    (sortClass_pairwise cfg cmds).filter _
  have hne : ".plt".toList ≠ ".plt.sec".toList := by decide
  rw [← filter_lt_append_filter sortClass 2 hpairwise, pltSections, List.filter_filter,
    List.filter_filter]
  congr 1
  · refine List.filter_congr fun osec _ => ?_
    unfold sortClass
    split_ifs <;> simp_all
  · refine List.filter_congr fun osec _ => ?_
    unfold sortClass
    split_ifs <;> simp_all

theorem otherSections_pairwise :
    (otherSections cfg cmds).Pairwise fun a b => a.sortRank ≤ b.sortRank := by
  refine List.Pairwise.imp_of_mem ?_ ((sortedSections_pairwise cfg cmds).filter _)
  intro a b ha hb h
  have hclass : ∀ osec ∈ otherSections cfg cmds, sortClass osec = 0 := by
    intro osec hosec
    simpa using (List.mem_filter.mp hosec).2
  rcases Prod.Lex.le_iff.mp h with h | ⟨-, h⟩
  · simp [sortKey, hclass a ha, hclass b hb] at h
  · rcases Prod.Lex.le_iff.mp h with h | ⟨h, -⟩
    · simp only [sortKey, hclass a ha, hclass b hb, if_true] at h
      exact Nat.le_of_lt h
    · simp only [sortKey, hclass a ha, hclass b hb, if_true] at h
      exact Nat.le_of_eq h

end Sorted

-- Nothing follows `.plt` after the sort, so that no alignment changes.

theorem alignAfterPlt_assignments {cmds : List SectionCommand}
    (h : ∀ cmd ∈ cmds, cmd.osec? = none) (foundPlt : Bool) : alignAfterPlt foundPlt cmds = cmds := by
  induction cmds with
  | nil => rfl
  | cons cmd cmds ih =>
    cases cmd with
    | assignment name =>
      rw [alignAfterPlt, ih fun cmd hcmd => h cmd (List.mem_cons_of_mem _ hcmd)]
    | output osec => exact absurd (h _ List.mem_cons_self) (by simp [SectionCommand.osec?])

theorem alignAfterPlt_plt {osecs : List OutputSection} {cmds : List SectionCommand}
    (hplt : ∀ osec ∈ osecs, osec.name = ".plt".toList) (h : ∀ cmd ∈ cmds, cmd.osec? = none)
    (foundPlt : Bool) :
    alignAfterPlt foundPlt (osecs.map .output ++ cmds) = osecs.map .output ++ cmds := by
  induction osecs generalizing foundPlt with
  | nil => exact alignAfterPlt_assignments h foundPlt
  | cons osec osecs ih =>
    rw [List.map_cons, List.cons_append, alignAfterPlt, if_pos (hplt _ List.mem_cons_self),
      ih fun osec hosec => hplt osec (List.mem_cons_of_mem _ hosec)]

theorem alignAfterPlt_append {osecs : List OutputSection}
    (hother : ∀ osec ∈ osecs, osec.name ≠ ".plt".toList) (cmds : List SectionCommand) :
    alignAfterPlt false (osecs.map .output ++ cmds) =
      osecs.map .output ++ alignAfterPlt false cmds := by
  induction osecs with
  | nil => rfl
  | cons osec osecs ih =>
    rw [List.map_cons, List.cons_append, alignAfterPlt, if_neg (hother _ List.mem_cons_self),
      if_neg Bool.false_ne_true, ih fun osec hosec => hother osec (List.mem_cons_of_mem _ hosec)]
    rfl

theorem sortSections_eq (cfg : LayoutConfig) (cmds : List SectionCommand) :
    sortSections cfg cmds = (sortedSections cfg cmds).map .output ++
      cmds.filter fun cmd => cmd.osec?.isNone := by
  have hne : ".plt".toList ≠ ".plt.sec".toList := by decide
  have hassign : ∀ cmd ∈ cmds.filter fun cmd => cmd.osec?.isNone, cmd.osec? = none := by
    intro cmd hcmd
    simpa using (List.mem_filter.mp hcmd).2
  have hother : ∀ osec ∈ otherSections cfg cmds ++
      (sortedSections cfg cmds).filter (·.name = ".plt.sec".toList), osec.name ≠ ".plt".toList := by
    intro osec hosec hname
    rcases List.mem_append.mp hosec with hosec | hosec
    · have hclass := (List.mem_filter.mp hosec).2
      simp only [sortClass, if_pos hname] at hclass
      exact absurd hclass (by decide)
    · have hsec := (List.mem_filter.mp hosec).2
      exact hne (hname.symm.trans (of_decide_eq_true hsec))
  have hplt : ∀ osec ∈ (sortedSections cfg cmds).filter (·.name = ".plt".toList),
      osec.name = ".plt".toList :=
    fun osec hosec => of_decide_eq_true (List.mem_filter.mp hosec).2
  have hsplit := sortedSections_eq cfg cmds
  rw [pltSections_eq, ← List.append_assoc] at hsplit
  unfold sortSections
  conv_lhs => rw [← hsplit]
  rw [List.map_append, List.append_assoc, alignAfterPlt_append hother, alignAfterPlt_plt hplt hassign,
    ← List.append_assoc, ← List.map_append, hsplit]

theorem outputSections_eq (cfg : LayoutConfig) (cmds : List SectionCommand) :
    outputSections cfg cmds = sortedSections cfg cmds := by
  have hnone : (cmds.filter fun cmd => cmd.osec?.isNone).filterMap SectionCommand.osec? = [] := by
    rw [List.filterMap_eq_nil_iff]
    intro cmd hcmd
    simpa using (List.mem_filter.mp hcmd).2
  rw [outputSections, sortSections_eq, List.filterMap_append, hnone, List.append_nil,
    List.filterMap_map]
  exact List.filterMap_some

end Platypus.Linker
