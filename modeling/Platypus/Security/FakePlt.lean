import Platypus.Dict.Lists
import Platypus.Linker.PltAddr
import Platypus.Text.Fields

-- The part of `platypus.py` that counts the stubs of `.fakeplt` through which a module calls
-- another one.

namespace Platypus.Security

open Bytes Linker Text
open Machine (disassemble jumpSlot Fits ofInt_sub_natCast)

-- What the script reads of a file: the words of the lines of `llvm-readelf`, and the bytes.
structure File where
  sections : List (List Name)
  dynSyms : List (List Name)
  relocs : List (List Name)
  content : List Byte

-- The texts that the script looks for.

def fakepltSec : Name := ".fakeplt.sec".toList

def und : Name := "UND".toList

def jumpSlotType : Name := "R_X86_64_JUMP_SLOT".toList

def plus : Name := "+".toList

def sectionLine (parts : List Name) : Option (Nat × Nat × Nat) :=
  if ¬ parts.any (contains · fakepltSec) then none
  else if parts.length < 7 then none
  else do
    let idx ← parts.idxOf? fakepltSec
    let addr ← parts[idx + 2]? >>= intBase16
    let off ← parts[idx + 3]? >>= intBase16
    let size ← parts[idx + 4]? >>= intBase16
    return (addr, off, size)

def getFakepltInfo (lines : List (List Name)) : Option (Nat × Nat × Nat) :=
  lines.findSome? sectionLine

def dynSymLine (parts : List Name) : Option Name :=
  if ¬ parts.any (':' ∈ ·) then none
  else if parts.length < 8 then none
  else if parts[6]? = some und then parts[7]?
  else none

-- A set in the source.
def getUndefinedDynSymbols (lines : List (List Name)) : List Name := lines.filterMap dynSymLine

def relocLine (parts : List Name) : Option (Int × Name) :=
  if ¬ parts.any (contains · jumpSlotType) then none
  else if parts.length < 6 then none
  else do
    let offset ← parts[0]? >>= intBase16
    let plus_idx ← parts.idxOf? plus
    if 1 ≤ plus_idx then
      let sym ← parts[plus_idx - 1]?
      return (offset, sym)
    else none

def getJumpSlotSymbolsByOffset (lines : List (List Name)) : Dict Int Name :=
  .ofRows relocLine lines

def decodeStubTarget (stub_addr : Nat) (stub_bytes : List Byte) : Option Int :=
  match stub_bytes with
  | b₀ :: b₁ :: b₂ :: b₃ :: b₄ :: b₅ :: d₀ :: d₁ :: d₂ :: d₃ :: _ =>
    if [b₀, b₁, b₂, b₃] ≠ [0xf3#8, 0x0f#8, 0x1e#8, 0xfa#8] then none
    else if [b₄, b₅] ≠ [0xff#8, 0x25#8] then none
    else some (stub_addr + 10 + (ofLe32 d₀ d₁ d₂ d₃).toInt)
  | _ => none

-- Whether the loop counts a stub.
def counts (undefined_dyn_symbols : List Name) (reloc_symbols : Dict Int Name) (stub_addr : Nat)
    (stub : List Byte) : Bool :=
  match decodeStubTarget stub_addr stub with
  | none => false
  | some got_target =>
    match reloc_symbols.get? got_target with
    | none => false
    | some sym => sym ≠ [] ∧ sym ∈ undefined_dyn_symbols

def countExternalFakepltEntries (f : File) : Nat :=
  match getFakepltInfo f.sections with
  | none => 0
  | some (fakeplt_addr, fakeplt_off, fakeplt_size) =>
    if fakeplt_size % 32 ≠ 0 then 0
    else
      let undefined_dyn_symbols := getUndefinedDynSymbols f.dynSyms
      let reloc_symbols := getJumpSlotSymbolsByOffset f.relocs
      let fakeplt_data := (f.content.drop fakeplt_off).take fakeplt_size
      (List.range (fakeplt_size / 32)).countP fun i =>
        counts undefined_dyn_symbols reloc_symbols (fakeplt_addr + i * 32)
          ((fakeplt_data.drop (i * 32)).take 32)

-- The lines that `llvm-readelf` prints for a section, an undefined symbol and a relocation.

inductive SectionRow (addr off size : Nat) : List Name → Prop
  | mk {nr : List Name} {type a o s es : Name} {rest : List Name} (hnr : fakepltSec ∉ nr)
      (ha : intBase16 a = some addr) (ho : intBase16 o = some off)
      (hs : intBase16 s = some size) (hlong : 0 < nr.length) :
      SectionRow addr off size (nr ++ fakepltSec :: type :: a :: o :: s :: es :: rest)

inductive UndefinedRow (name : Name) : List Name → Prop
  | mk {num value size type bind vis : Name} {rest : List Name} (hnum : ':' ∈ num) :
      UndefinedRow name (num :: value :: size :: type :: bind :: vis :: und :: name :: rest)

inductive JumpSlotRow (offset : Nat) (name : Name) : List Name → Prop
  | mk {o info value addend : Name} (ho : intBase16 o = some offset) (hinfo : info ≠ plus)
      (hvalue : value ≠ plus) (hname : name ≠ plus) :
      JumpSlotRow offset name [o, info, jumpSlotType, value, name, plus, addend]

theorem idxOf?_append_cons {α : Type} [BEq α] [LawfulBEq α] {xs ys : List α} {a : α}
    (h : a ∉ xs) : (xs ++ a :: ys).idxOf? a = some xs.length := by
  induction xs with
  | nil => simp [List.idxOf?_cons]
  | cons x xs ih =>
    rw [List.mem_cons, not_or] at h
    simp [List.idxOf?_cons, Ne.symm h.1, ih h.2]

theorem contains_fakepltSec : contains fakepltSec fakepltSec = true := by decide

theorem contains_jumpSlotType : contains jumpSlotType jumpSlotType = true := by decide

theorem SectionRow.sectionLine_eq {addr off size : Nat} {parts : List Name}
    (h : SectionRow addr off size parts) : sectionLine parts = some (addr, off, size) := by
  obtain ⟨hnr, ha, ho, hs, hlong⟩ := h
  rw [sectionLine, if_neg, if_neg, idxOf?_append_cons hnr]
  · simp [ha, ho, hs]
  · simp only [List.length_append, List.length_cons]
    omega
  · simp [contains_fakepltSec]

theorem UndefinedRow.dynSymLine_eq {name : Name} {parts : List Name}
    (h : UndefinedRow name parts) : dynSymLine parts = some name := by
  obtain ⟨hnum⟩ := h
  simp [dynSymLine, hnum]

theorem ne_plus_of_intBase16 {s : Name} {n : Nat} (h : intBase16 s = some n) : s ≠ plus := by
  rintro rfl
  have hdigits := (Option.ite_none_right_eq_some.mp h).1.2
  have hdigit := hdigits '+' (List.mem_singleton_self _)
  revert hdigit
  decide

theorem JumpSlotRow.relocLine_eq {offset : Nat} {name : Name} {parts : List Name}
    (h : JumpSlotRow offset name parts) : relocLine parts = some (↑offset, name) := by
  obtain ⟨ho, hinfo, hvalue, hname⟩ := h
  have hidx : ∀ o info value addend : Name, o ≠ plus → info ≠ plus → value ≠ plus →
      [o, info, jumpSlotType, value, name, plus, addend].idxOf? plus = some 5 := by
    intro o info value addend ho hinfo hvalue
    change ([o, info, jumpSlotType, value, name] ++ plus :: [addend]).idxOf? plus = some 5
    refine idxOf?_append_cons ?_
    simp [ho.symm, hinfo.symm, hvalue.symm, hname.symm, show plus ≠ jumpSlotType by decide]
  rw [relocLine, if_neg, if_neg, hidx _ _ _ _ (ne_plus_of_intBase16 ho) hinfo hvalue]
  · simp [ho]
  · simp
  · simp [contains_jumpSlotType]

theorem decodeStubTarget_plainStub (stub_addr : Nat) (d : Word) (rest : List Byte) :
    decodeStubTarget stub_addr (plainStub d ++ rest) =
      some (stub_addr + 10 + (d.setWidth 32).toInt) :=
  congrArg (fun w : BitVec 32 => some (stub_addr + 10 + w.toInt)) (ofLe32_le32 (d.setWidth 32))

theorem decodeStubTarget_of_ne (stub_addr : Nat) {b₀ b₁ b₂ b₃ b₄ b₅ d₀ d₁ d₂ d₃ : Byte}
    {rest : List Byte} (h : [b₄, b₅] ≠ [0xff#8, 0x25#8]) :
    decodeStubTarget stub_addr
      (b₀ :: b₁ :: b₂ :: b₃ :: b₄ :: b₅ :: d₀ :: d₁ :: d₂ :: d₃ :: rest) = none := by
  simp only [decodeStubTarget]
  rw [if_pos h, ite_self]

-- The jump of a getter comes after its two masks.
theorem decodeStubTarget_maskingStub (cfg : Config) (c : Ctx) (init reg : Byte) (s : SymId)
    (va : Word) (stub_addr : Nat) (rest : List Byte) :
    decodeStubTarget stub_addr (maskingStub cfg c init reg s va ++ rest) = none :=
  decodeStubTarget_of_ne stub_addr (by simp)

-- The table of dynamic symbols: which ones are undefined, and how they are printed. The name and
-- the version that are printed tell whether a symbol is undefined.
structure Dynsym where
  symbols : List SymId
  Undefined : SymId → Prop
  print : SymId → Name
  nonempty : ∀ s ∈ symbols, print s ≠ []
  agree : ∀ s ∈ symbols, ∀ t ∈ symbols, print s = print t → (Undefined s ↔ Undefined t)

-- The address that a relocation is for.
def relocAddr (cfg : Config) (r : DynamicReloc) : Word := cfg.va r.inputSec + r.offsetInSec

-- The file of a link: `.fakeplt.sec` with the stubs at `off`, and a line for every undefined
-- symbol and every relocation of a slot against a symbol. No other line is about these.
structure Linked (cfg : Config) (c : Ctx) (dyn : Dynsym) (off : Nat) (f : File) : Prop where
  mem_symbols : ∀ r ∈ jumpSlots c, ∀ s, getSymIndex c r = some s → s ∈ dyn.symbols
  inSpace : (cfg.va .gotPlt).toNat + 8 * (c.gotPlt.length + 3) ≤ 2 ^ 64
  section_row : c.fakeplt ≠ [] → ∃ line ∈ f.sections, fakepltSec ∈ line
  section_only : ∀ line ∈ f.sections, fakepltSec ∈ line →
    SectionRow (cfg.va .fakeplt).toNat off (32 * c.fakeplt.length) line
  content : ∃ buf buf', FakePltSection.writeTo cfg c buf = some buf' ∧
    ∀ k < 32 * c.fakeplt.length, f.content[off + k]? = some (buf' k)
  undefined_row : ∀ s ∈ dyn.symbols, dyn.Undefined s →
    ∃ line ∈ f.dynSyms, UndefinedRow (dyn.print s) line
  undefined_only : ∀ parts ∈ f.dynSyms, parts[6]? = some und → ∀ name, parts[7]? = some name →
    ∃ s ∈ dyn.symbols, dyn.Undefined s ∧ dyn.print s = name
  reloc_row : ∀ r ∈ jumpSlots c, ∀ s, getSymIndex c r = some s →
    ∃ line ∈ f.relocs, JumpSlotRow (relocAddr cfg r).toNat (dyn.print s) line
  reloc_only : ∀ line ∈ f.relocs,
    (∃ r ∈ jumpSlots c, ∃ s, getSymIndex c r = some s ∧
      JumpSlotRow (relocAddr cfg r).toNat (dyn.print s) line) ∨
    ∀ r ∈ jumpSlots c, ∀ sym, relocLine line ≠ some (↑(relocAddr cfg r).toNat, sym)

-- A stub that jumps through a slot which the loader fills for an undefined symbol.
def ExternalStub (cfg : Config) (c : Ctx) (dyn : Dynsym) (j : Nat) : Prop :=
  ∃ s bs r t, c.fakeplt[j]? = some s ∧
    X86_64.writeFakePlt cfg c s (StubSection.fakeplt.stubVA cfg j) = some bs ∧
    r ∈ jumpSlots c ∧ r.type = .R_X86_64_JUMP_SLOT ∧ getSymIndex c r = some t ∧ dyn.Undefined t ∧
    jumpSlot (disassemble bs (StubSection.fakeplt.stubVA cfg j)) = some (relocAddr cfg r)

-- Its symbol.
structure External (c : Ctx) (dyn : Dynsym) (s : SymId) : Prop where
  index : getSymIndex c (slotReloc c .R_X86_64_JUMP_SLOT .gotPlt s) = some s
  undefined : dyn.Undefined s

theorem toInt_setWidth_of_fits {d : Word} (h : Fits d) : (d.setWidth 32).toInt = d.toInt := by
  rw [← BitVec.toInt_signExtend_of_le (show 32 ≤ 64 by decide), h]

section Linked

variable {cfg : Config} {c : Ctx} {done : List SymId} {dyn : Dynsym} {off : Nat} {f : File}

theorem relocAddr_slotReloc (hinv : SlotInv c done) {s : SymId} (hs : s ∈ c.gotPlt) :
    relocAddr cfg (slotReloc c .R_X86_64_JUMP_SLOT .gotPlt s) = c.getGotPltVA cfg s := by
  obtain ⟨i, hi⟩ := List.mem_iff_getElem?.mp hs
  rw [hinv.getGotPltVA_eq cfg hi, ← (hinv.slots i s hi).getGotPltOffset]
  rfl

section Target

variable (hinv : SlotInv c done) (hreach : Reach cfg c)

include hinv hreach

theorem getGotPltVA_toNat
    (hspace : (cfg.va .gotPlt).toNat + 8 * (c.gotPlt.length + 3) ≤ 2 ^ 64) {i : Nat} {s : SymId}
    (hi : c.gotPlt[i]? = some s) :
    (c.getGotPltVA cfg s).toNat = (cfg.va .gotPlt).toNat + 8 * (i + 3) := by
  have hilt := (List.getElem?_eq_some_iff.mp hi).1
  rw [hinv.getGotPltVA_eq cfg hi, slotOffset_eq i (hreach.slot_lt hilt), BitVec.toNat_add,
    BitVec.toNat_ofNat]
  omega

theorem slot_sub_stubVA {i : Nat} {s : SymId} (hi : c.gotPlt[i]? = some s) (j : Nat) :
    c.getGotPltVA cfg s - (StubSection.fakeplt.stubVA cfg j + 10#64) =
      BitVec.ofInt 64 (((cfg.va .gotPlt).toNat + (8 * (i + 3) : Nat) : Int) -
        ((cfg.va .fakeplt).toNat + (32 * j + 10 : Nat))) := by
  have hilt := (List.getElem?_eq_some_iff.mp hi).1
  rw [← ofInt_sub_natCast, hinv.getGotPltVA_eq cfg hi, slotOffset_eq i (hreach.slot_lt hilt),
    StubSection.stubVA, StubSection.offset, StubSection.headerSize, Nat.zero_add, BitVec.add_assoc,
    ← BitVec.ofNat_add]
  rfl

-- What the script computes for a plain stub is the address of the slot.
theorem target_eq_slot
    (hspace : (cfg.va .gotPlt).toNat + 8 * (c.gotPlt.length + 3) ≤ 2 ^ 64) {j : Nat} {s : SymId}
    (hs : c.fakeplt[j]? = some s) :
    (((cfg.va .fakeplt).toNat + j * 32 : Nat) : Int) + 10 +
        ((c.getGotPltVA cfg s - StubSection.fakeplt.stubVA cfg j - 10#64).setWidth 32).toInt =
      ((c.getGotPltVA cfg s).toNat : Int) := by
  obtain ⟨i, hi⟩ := List.mem_iff_getElem?.mp (StubSection.fakeplt.mem_gotPlt hinv hs)
  have hilt := (List.getElem?_eq_some_iff.mp hi).1
  have hjlt : j < (StubSection.fakeplt.entries c).length := (List.getElem?_eq_some_iff.mp hs).1
  have hfits := hreach.slot_fits hinv (S := .fakeplt) hs (show 10 ≤ 32 by decide)
  have hdisp (x va : Word) : x - va - 10#64 = x - (va + 10#64) := by bv_omega
  have hbound := hreach .fakeplt (32 * j + 10) (i + 3) (by
    simp only [StubSection.offset, StubSection.headerSize]
    omega) (by omega)
  rw [hdisp, toInt_setWidth_of_fits hfits, slot_sub_stubVA hinv hreach hi j, BitVec.toInt_ofInt,
    getGotPltVA_toNat hinv hreach hspace hi]
  simp only [StubSection.sec] at hbound
  rw [Int.bmod_eq_of_le]
  · push_cast
    omega
  · push_cast at hbound ⊢
    omega
  · push_cast at hbound ⊢
    omega

end Target

section Row

variable (hinv : SlotInv c done) (hreach : Reach cfg c) (hf : Linked cfg c dyn off f)

include hinv hreach hf

-- A line at the address of a slot is the one of its relocation.
theorem relocLine_at_slot {s : SymId} (hs : s ∈ c.gotPlt) {parts : List Name}
    (hparts : parts ∈ f.relocs) {sym : Name}
    (hline : relocLine parts = some (↑(c.getGotPltVA cfg s).toNat, sym)) :
    getSymIndex c (slotReloc c .R_X86_64_JUMP_SLOT .gotPlt s) = some s ∧ sym = dyn.print s := by
  rcases hf.reloc_only parts hparts with ⟨r, hr, t, ht, hrow⟩ | hother
  · obtain ⟨htmem, rfl⟩ := eq_slotReloc_of_getSymIndex hinv hr ht
    rw [hrow.relocLine_eq, relocAddr_slotReloc hinv htmem, Option.some_inj, Prod.mk_inj] at hline
    obtain rfl := hinv.getGotPltVA_inj hreach htmem hs
      (BitVec.eq_of_toNat_eq (Int.ofNat_inj.mp hline.1))
    exact ⟨ht, hline.2.symm⟩
  · rw [← relocAddr_slotReloc hinv hs] at hline
    exact absurd hline (hother _ (slotReloc_mem_jumpSlots hinv hs) sym)

theorem relocSymbols_iff {s : SymId} (hs : s ∈ c.gotPlt) {sym : Name} :
    (getJumpSlotSymbolsByOffset f.relocs).get? ↑(c.getGotPltVA cfg s).toNat = some sym ↔
      getSymIndex c (slotReloc c .R_X86_64_JUMP_SLOT .gotPlt s) = some s ∧
        sym = dyn.print s := by
  unfold getJumpSlotSymbolsByOffset
  rw [Dict.get?_ofRows_iff]
  · constructor
    · rintro ⟨parts, hparts, hline⟩
      exact relocLine_at_slot hinv hreach hf hs hparts hline
    · rintro ⟨hindex, rfl⟩
      obtain ⟨parts, hparts, hrow⟩ :=
        hf.reloc_row _ (slotReloc_mem_jumpSlots hinv hs) s hindex
      rw [relocAddr_slotReloc hinv hs] at hrow
      exact ⟨parts, hparts, hrow.relocLine_eq⟩
  · intro x hx y hy v w hv hw
    rw [(relocLine_at_slot hinv hreach hf hs hx hv).2, (relocLine_at_slot hinv hreach hf hs hy hw).2]

end Row

theorem Linked.mem_undefined_iff (hf : Linked cfg c dyn off f) {name : Name} :
    name ∈ getUndefinedDynSymbols f.dynSyms ↔
      ∃ s ∈ dyn.symbols, dyn.Undefined s ∧ dyn.print s = name := by
  unfold getUndefinedDynSymbols
  rw [List.mem_filterMap]
  constructor
  · rintro ⟨parts, hparts, hline⟩
    simp only [dynSymLine] at hline
    split_ifs at hline with hcolon hlength hund
    exact hf.undefined_only parts hparts hund name hline
  · rintro ⟨s, hs, hundefined, rfl⟩
    obtain ⟨parts, hparts, hrow⟩ := hf.undefined_row s hs hundefined
    exact ⟨parts, hparts, hrow.dynSymLine_eq⟩

theorem mem_of_sectionLine {parts : List Name} {info : Nat × Nat × Nat}
    (h : sectionLine parts = some info) : fakepltSec ∈ parts := by
  simp only [sectionLine] at h
  split_ifs at h with hcontains hlength
  obtain ⟨idx, hidx, -⟩ := Option.bind_eq_some_iff.mp h
  by_contra hnot
  rw [List.idxOf?_eq_none_iff.mpr hnot] at hidx
  cases hidx

theorem Linked.getFakepltInfo_eq (hf : Linked cfg c dyn off f) (hne : c.fakeplt ≠ []) :
    getFakepltInfo f.sections = some ((cfg.va .fakeplt).toNat, off, 32 * c.fakeplt.length) := by
  obtain ⟨line, hline, hmem⟩ := hf.section_row hne
  have hrow := (hf.section_only line hline hmem).sectionLine_eq
  have hsome : (getFakepltInfo f.sections).isSome := by
    rw [getFakepltInfo, List.findSome?_isSome_iff]
    exact ⟨line, hline, by rw [hrow]; rfl⟩
  obtain ⟨info, hinfo⟩ := Option.isSome_iff_exists.mp hsome
  obtain ⟨parts, hparts, hfound⟩ := List.exists_of_findSome?_eq_some hinfo
  rw [hinfo, ← hfound]
  exact (hf.section_only parts hparts (mem_of_sectionLine hfound)).sectionLine_eq

-- Whether the loop counts stub `j` of the section at `off`.
def counted (cfg : Config) (c : Ctx) (f : File) (off j : Nat) : Bool :=
  counts (getUndefinedDynSymbols f.dynSyms) (getJumpSlotSymbolsByOffset f.relocs)
    ((cfg.va .fakeplt).toNat + j * 32)
    ((((f.content.drop off).take (32 * c.fakeplt.length)).drop (j * 32)).take 32)

theorem Linked.count_eq (hf : Linked cfg c dyn off f) :
    countExternalFakepltEntries f = (List.range c.fakeplt.length).countP (counted cfg c f off) := by
  by_cases hne : c.fakeplt = []
  · unfold countExternalFakepltEntries
    split
    · simp [hne]
    · rename_i addr off' size hinfo
      obtain ⟨parts, hparts, hfound⟩ := List.exists_of_findSome?_eq_some hinfo
      have hrow := (hf.section_only parts hparts (mem_of_sectionLine hfound)).sectionLine_eq
      rw [hfound, hne] at hrow
      cases hrow
      simp [hne]
  · have hmod : ¬ (32 * c.fakeplt.length % 32 ≠ 0) := by omega
    have hdiv : 32 * c.fakeplt.length / 32 = c.fakeplt.length := by omega
    simp only [countExternalFakepltEntries, hf.getFakepltInfo_eq hne, if_neg hmod, hdiv]
    rfl

-- The bytes that the loop reads for a stub start with the stub.
theorem Linked.stub_bytes (hf : Linked cfg c dyn off f) (htarget : cfg.target = .IntelIBT) {j : Nat}
    {s : SymId} (hs : c.fakeplt[j]? = some s) :
    ∃ bs rest, X86_64.writeFakePlt cfg c s (StubSection.fakeplt.stubVA cfg j) = some bs ∧
      (((f.content.drop off).take (32 * c.fakeplt.length)).drop (j * 32)).take 32 = bs ++ rest := by
  obtain ⟨buf, buf', hwrite, hcontent⟩ := hf.content
  obtain ⟨bs, hbs, hread⟩ := read_writeTo cfg c .fakeplt htarget buf buf' hwrite j s hs
  have hlength := stub_length cfg c .fakeplt htarget s _ bs hbs
  have hj : j < c.fakeplt.length := (List.getElem?_eq_some_iff.mp hs).1
  have hoffset : StubSection.fakeplt.offset cfg j = j * 32 := by
    simp only [StubSection.offset, StubSection.headerSize]
    omega
  refine ⟨bs, read buf' (j * 32 + bs.length) (32 - bs.length), hbs, ?_⟩
  rw [hoffset] at hread
  calc (((f.content.drop off).take (32 * c.fakeplt.length)).drop (j * 32)).take 32
      = read buf' (j * 32) (bs.length + (32 - bs.length)) := by
        rw [Nat.add_sub_cancel' hlength]
        exact slice_eq_read hcontent (j * 32) 32 (by omega)
    _ = read buf' (j * 32) bs.length ++ read buf' (j * 32 + bs.length) (32 - bs.length) :=
        read_add _ _ _ _
    _ = bs ++ read buf' (j * 32 + bs.length) (32 - bs.length) := by rw [hread]

theorem counted_getter (hf : Linked cfg c dyn off f) (htarget : cfg.target = .IntelIBT) {j : Nat}
    {s : SymId} (hs : c.fakeplt[j]? = some s) {arg_pos : List Int}
    (hlookup : cfg.callb_get.lookup (c.syms s).name = some arg_pos) :
    counted cfg c f off j = false := by
  obtain ⟨bs, rest, hbs, hbytes⟩ := hf.stub_bytes htarget hs
  simp only [X86_64.writeFakePlt, hlookup] at hbs
  obtain ⟨⟨init, reg⟩, -, rfl⟩ := Option.map_eq_some_iff.mp hbs
  simp only [counted, counts, hbytes, decodeStubTarget_maskingStub]

section Stub

variable (hinv : SlotInv c done) (hreach : Reach cfg c) (hf : Linked cfg c dyn off f)
  (htarget : cfg.target = .IntelIBT) {j : Nat} {s : SymId} (hs : c.fakeplt[j]? = some s)

include hinv hreach hf htarget hs

theorem counted_plain (hlookup : cfg.callb_get.lookup (c.syms s).name = none) :
    counted cfg c f off j = true ↔ External c dyn s := by
  have hmem : s ∈ c.gotPlt := StubSection.fakeplt.mem_gotPlt hinv hs
  obtain ⟨bs, rest, hbs, hbytes⟩ := hf.stub_bytes htarget hs
  simp only [X86_64.writeFakePlt, hlookup, Option.some_inj] at hbs
  subst hbs
  simp only [counted, counts, hbytes, decodeStubTarget_plainStub,
    target_eq_slot hinv hreach hf.inSpace hs]
  cases hget : (getJumpSlotSymbolsByOffset f.relocs).get? ↑(c.getGotPltVA cfg s).toNat with
  | none =>
    simp only [Bool.false_eq_true, false_iff]
    intro hexternal
    rw [(relocSymbols_iff hinv hreach hf hmem).mpr ⟨hexternal.index, rfl⟩] at hget
    cases hget
  | some sym =>
    obtain ⟨hindex, rfl⟩ := (relocSymbols_iff hinv hreach hf hmem).mp hget
    have hdyn := hf.mem_symbols _ (slotReloc_mem_jumpSlots hinv hmem) s hindex
    simp only [decide_eq_true_eq, hf.mem_undefined_iff]
    constructor
    · rintro ⟨-, t, ht, hundefined, hprint⟩
      exact ⟨hindex, (dyn.agree s hdyn t ht hprint.symm).mpr hundefined⟩
    · intro hexternal
      exact ⟨dyn.nonempty s hdyn, s, hdyn, hexternal.undefined, rfl⟩

-- A stub jumps through the slot of its symbol.
theorem externalStub_iff : ExternalStub cfg c dyn j ↔ External c dyn s := by
  have hmem : s ∈ c.gotPlt := StubSection.fakeplt.mem_gotPlt hinv hs
  have hjump : ∀ bs, X86_64.writeFakePlt cfg c s (StubSection.fakeplt.stubVA cfg j) = some bs →
      jumpSlot (disassemble bs (StubSection.fakeplt.stubVA cfg j)) =
        some (c.getGotPltVA cfg s) := fun bs hbs =>
    jumpSlot_writeFakePlt cfg c s _ bs hbs
      (hreach.slot_fits hinv (S := .fakeplt) hs (show 10 ≤ 32 by decide))
      (hreach.slot_fits hinv (S := .fakeplt) hs (show 24 ≤ 32 by decide))
  constructor
  · rintro ⟨s', bs, r, t, hs', hbs, hr, -, hindex, hundefined, hslot⟩
    obtain rfl : s = s' := Option.some.inj (hs.symm.trans hs')
    obtain ⟨ht, rfl⟩ := eq_slotReloc_of_getSymIndex hinv hr hindex
    rw [hjump bs hbs, relocAddr_slotReloc hinv ht, Option.some_inj] at hslot
    obtain rfl := hinv.getGotPltVA_inj hreach hmem ht hslot
    exact ⟨hindex, hundefined⟩
  · intro hexternal
    obtain ⟨bs, rest, hbs, -⟩ := hf.stub_bytes htarget hs
    refine ⟨s, bs, _, s, hs, hbs, slotReloc_mem_jumpSlots hinv hmem, rfl, hexternal.index,
      hexternal.undefined, ?_⟩
    rw [hjump bs hbs, relocAddr_slotReloc hinv hmem]

theorem counted_iff : counted cfg c f off j = true ↔
    ExternalStub cfg c dyn j ∧ cfg.callb_get.lookup (c.syms s).name = none := by
  rw [externalStub_iff hinv hreach hf htarget hs]
  cases hlookup : cfg.callb_get.lookup (c.syms s).name with
  | none => simp [counted_plain hinv hreach hf htarget hs hlookup]
  | some arg_pos => simp [counted_getter hf htarget hs hlookup]

end Stub

end Linked

theorem ncard_range_countP (n : Nat) (p : Nat → Bool) :
    {j | j < n ∧ p j = true}.ncard = (List.range n).countP p := by
  have hset : {j | j < n ∧ p j = true} = ↑((Finset.range n).filter fun j => p j = true) := by
    ext j
    simp
  rw [hset, Set.ncard_coe_finset, List.countP_eq_length_filter]
  exact congrArg (fun q => ((List.range n).filter q).length) (funext fun j => Bool.decide_eq_true)

-- The count is the number of the stubs exactly if none of them is that of a getter.
theorem countExternalFakepltEntries_iff (cfg : Config) (c : Ctx) (syms : List Nat)
    (hlink : Link c syms) (htarget : cfg.target = .IntelIBT)
    (hreach : Reach cfg (postScanRelocations cfg c syms)) (dyn : Dynsym) (off : Nat) (f : File)
    (hf : Linked cfg (postScanRelocations cfg c syms) dyn off f) :
    countExternalFakepltEntries f =
        {j | ExternalStub cfg (postScanRelocations cfg c syms) dyn j}.ncard ↔
      ∀ s ∈ (postScanRelocations cfg c syms).fakeplt,
        External (postScanRelocations cfg c syms) dyn s →
        cfg.callb_get.lookup ((postScanRelocations cfg c syms).syms s).name = none := by
  have hinv := hlink.slotInv cfg
  generalize postScanRelocations cfg c syms = C at *
  have hlt {j : Nat} (hj : ExternalStub cfg C dyn j) : j < C.fakeplt.length := by
    obtain ⟨s, _, _, _, hs, _⟩ := hj
    exact (List.getElem?_eq_some_iff.mp hs).1
  have hfinite : {j | ExternalStub cfg C dyn j}.Finite :=
    (Set.finite_lt_nat C.fakeplt.length).subset fun j hj => hlt hj
  have hsub : {j | j < C.fakeplt.length ∧ counted cfg C f off j = true} ⊆
      {j | ExternalStub cfg C dyn j} := by
    rintro j ⟨hj, hcounted⟩
    exact ((counted_iff hinv hreach hf htarget (List.getElem?_eq_getElem hj)).mp hcounted).1
  rw [hf.count_eq, ← ncard_range_countP]
  constructor
  · intro hcard s hs hexternal
    obtain ⟨j, hj⟩ := List.mem_iff_getElem?.mp hs
    have hall := Set.eq_of_subset_of_ncard_le hsub hcard.ge hfinite
    have hstub : j ∈ {j | ExternalStub cfg C dyn j} :=
      (externalStub_iff hinv hreach hf htarget hj).mpr hexternal
    rw [← hall] at hstub
    exact ((counted_iff hinv hreach hf htarget hj).mp hstub.2).2
  · intro hnone
    refine congrArg Set.ncard (hsub.antisymm fun j hstub => ?_)
    have hj := List.getElem?_eq_getElem (hlt hstub)
    refine ⟨hlt hstub, (counted_iff hinv hreach hf htarget hj).mpr ⟨hstub, ?_⟩⟩
    exact hnone _ (List.mem_of_getElem? hj) ((externalStub_iff hinv hreach hf htarget hj).mp hstub)

theorem intBase16_toDigits (n : Nat) : intBase16 (Nat.toDigits 16 n) = some n := by
  rw [intBase16, if_pos ⟨Nat.toDigits_ne_nil, isDigit_of_mem_toDigits n⟩, ofDigits_toDigits]

-- The program of `demoLink`, all of whose functions are in other modules.

def demoProgram : Ctx := postScanRelocations (demoConfig .IntelIBT) demoLink [0, 1, 2]

def demoSection : Buffer :=
  ((FakePltSection.writeTo (demoConfig .IntelIBT) demoProgram fun _ => 0#8).getD fun _ => 0#8)

def demoDynsym : Dynsym where
  symbols := demoProgram.gotPlt
  Undefined _ := True
  print s := (demoProgram.syms s).name
  nonempty := by decide
  agree _ _ _ _ _ := Iff.rfl

def demoFile : File where
  sections := [["[1]".toList, fakepltSec, "PROGBITS".toList, Nat.toDigits 16 0x2000,
    Nat.toDigits 16 0, Nat.toDigits 16 64, ['0']]]
  dynSyms := demoDynsym.symbols.map fun s =>
    [['1', ':'], ['0'], ['0'], "FUNC".toList, "GLOBAL".toList, "DEFAULT".toList, und,
      demoDynsym.print s]
  relocs := demoProgram.gotPlt.map fun s =>
    [Nat.toDigits 16 (demoProgram.getGotPltVA (demoConfig .IntelIBT) s).toNat, ['7'],
      jumpSlotType, ['0'], demoDynsym.print s, plus, ['0']]
  content := read demoSection 0 64

theorem demoFile_linked : Linked (demoConfig .IntelIBT) demoProgram demoDynsym 0 demoFile := by
  have hinv : SlotInv demoProgram _ := demoLink_link.slotInv (demoConfig .IntelIBT)
  have hplus : ∀ s ∈ demoProgram.gotPlt, demoDynsym.print s ≠ plus := by decide
  have hrow : ∀ s ∈ demoProgram.gotPlt, JumpSlotRow
      (relocAddr (demoConfig .IntelIBT)
        (slotReloc demoProgram .R_X86_64_JUMP_SLOT .gotPlt s)).toNat (demoDynsym.print s)
      [Nat.toDigits 16 (demoProgram.getGotPltVA (demoConfig .IntelIBT) s).toNat, ['7'],
        jumpSlotType, ['0'], demoDynsym.print s, plus, ['0']] := by
    intro s hs
    rw [relocAddr_slotReloc hinv hs]
    exact ⟨intBase16_toDigits _, by decide, by decide, hplus s hs⟩
  refine ⟨?_, by decide, ?_, ?_, ?_, ?_, ?_, ?_, ?_⟩
  · exact fun r hr s hindex => (eq_slotReloc_of_getSymIndex hinv hr hindex).1
  · exact fun _ => ⟨_, List.mem_singleton_self _, by simp⟩
  · intro line hline _
    cases List.mem_singleton.mp hline
    exact @SectionRow.mk _ _ _ ["[1]".toList] _ _ _ _ _ _ (by decide) (intBase16_toDigits _)
      (intBase16_toDigits _) (intBase16_toDigits _) (by decide)
  · refine ⟨fun _ => 0#8, demoSection, rfl, fun k hk => ?_⟩
    have hk' : k < 64 := hk
    simp [demoFile, Bytes.read, hk']
  · exact fun s hs _ => ⟨_, List.mem_map_of_mem hs, ⟨by decide⟩⟩
  · intro parts hparts _ name hname
    obtain ⟨s, hs, rfl⟩ := List.mem_map.mp hparts
    exact ⟨s, hs, trivial, Option.some.inj hname⟩
  · intro r hr s hindex
    obtain ⟨hs, rfl⟩ := eq_slotReloc_of_getSymIndex hinv hr hindex
    exact ⟨_, List.mem_map_of_mem hs, hrow s hs⟩
  · intro line hline
    obtain ⟨s, hs, rfl⟩ := List.mem_map.mp hline
    refine .inl ⟨_, slotReloc_mem_jumpSlots hinv hs, s, ?_, hrow s hs⟩
    revert s
    decide

theorem countExternalFakepltEntries_iff_demoLink :
    countExternalFakepltEntries demoFile =
        {j | ExternalStub (demoConfig .IntelIBT) demoProgram demoDynsym j}.ncard ↔
      ∀ s ∈ demoProgram.fakeplt, External demoProgram demoDynsym s →
        (demoConfig .IntelIBT).callb_get.lookup (demoProgram.syms s).name = none :=
  countExternalFakepltEntries_iff (demoConfig .IntelIBT) demoLink [0, 1, 2] demoLink_link rfl
    demoLink_layout.reach demoDynsym 0 demoFile demoFile_linked

-- `f` and the getter `qsort` have stubs, and the one of `f` is counted.
theorem getter_not_counted :
    Linked (demoConfig .IntelIBT) demoProgram demoDynsym 0 demoFile ∧
      {j | ExternalStub (demoConfig .IntelIBT) demoProgram demoDynsym j}.ncard = 2 ∧
      countExternalFakepltEntries demoFile = 1 := by
  have hinv : SlotInv demoProgram _ := demoLink_link.slotInv (demoConfig .IntelIBT)
  have hreach : Reach (demoConfig .IntelIBT) demoProgram := demoLink_layout.reach
  have hexternal : ∀ s ∈ demoProgram.gotPlt, External demoProgram demoDynsym s := by
    intro s hs
    refine ⟨?_, trivial⟩
    revert s
    decide
  have h₀ : demoProgram.fakeplt[0]? = some (.sym 0) := rfl
  have h₁ : demoProgram.fakeplt[1]? = some (.sym 1) := rfl
  have hstub₀ := (externalStub_iff hinv hreach demoFile_linked rfl h₀).mpr
    (hexternal _ (by decide))
  have hstub₁ := (externalStub_iff hinv hreach demoFile_linked rfl h₁).mpr
    (hexternal _ (by decide))
  refine ⟨demoFile_linked, ?_, ?_⟩
  · have hset : {j | ExternalStub (demoConfig .IntelIBT) demoProgram demoDynsym j} = {0, 1} := by
      ext j
      constructor
      · rintro ⟨s, _, _, _, hs, _⟩
        have hj : j < 2 := (List.getElem?_eq_some_iff.mp hs).1
        interval_cases j <;> simp
      · rintro (rfl | rfl)
        · exact hstub₀
        · exact hstub₁
    rw [hset]
    exact Set.ncard_pair (by decide)
  · have hcounted₀ : counted (demoConfig .IntelIBT) demoProgram demoFile 0 0 = true :=
      (counted_iff hinv hreach demoFile_linked rfl h₀).mpr ⟨hstub₀, rfl⟩
    have hcounted₁ : counted (demoConfig .IntelIBT) demoProgram demoFile 0 1 = false :=
      counted_getter demoFile_linked rfl h₁ rfl
    rw [demoFile_linked.count_eq, show demoProgram.fakeplt.length = 2 from rfl]
    simp [List.range_succ, hcounted₀, hcounted₁]

end Platypus.Security
