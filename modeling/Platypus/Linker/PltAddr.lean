import Platypus.Linker.OwnStub

-- The script `plt_addr.py`, which reads the addresses of stubs back from a linked file.

namespace Platypus.PltAddr

open Linker

-- A row of `llvm-readelf -r` that names a symbol.
structure Row where
  offset : Word
  value : Word
  symbol : Name

-- A line of `llvm-objdump -d` with a comment: the address of the instruction and the one in the
-- comment.
structure Line where
  addr : Word
  comment : Word

-- The dictionary `offset2symbol`; a later row replaces an earlier one.

def addRow (d : Word → Option Name) (r : Row) : Word → Option Name :=
  if r.value = 0#64 then Function.update d r.offset (some r.symbol) else d

def parseRelaPlt (rows : List Row) : Word → Option Name := rows.foldl addRow fun _ => none

-- One line: the first one of a symbol counts, and its `endbr64` is 4 bytes before the jump.
def parseLine (offset2symbol : Word → Option Name) (stubs : List (Name × Word)) (l : Line) :
    List (Name × Word) :=
  match offset2symbol l.comment with
  | some symbol =>
    if symbol ∈ stubs.map Prod.fst then stubs else stubs ++ [(symbol, l.addr - 4#64)]
  | none => stubs

def parsePltSection (offset2symbol : Word → Option Name) (lines : List Line) :
    List (Name × Word) :=
  lines.foldl (parseLine offset2symbol) []

def both (symbol : Name) : Name := "BothPLTs_".toList ++ symbol

-- One stub of `.plt.sec`.
def addStub (stubs : List (Name × Word)) (e : Name × Word) : List (Name × Word) :=
  if e.1 ∉ stubs.map Prod.fst then stubs ++ [e]
  else if both e.1 ∉ stubs.map Prod.fst then stubs ++ [(both e.1, e.2)]
  else stubs

def main (rows : List Row) (fakeLines pltLines : List Line) : List (Name × Word) :=
  let offset2symbol := parseRelaPlt rows
  (parsePltSection offset2symbol pltLines).foldl addStub (parsePltSection offset2symbol fakeLines)

-- Where rows of one offset agree, the dictionary is the list of the rows.
theorem parseRelaPlt_iff {rows : List Row} {k : Word} {symbol : Name}
    (h : ∀ r ∈ rows, ∀ r' ∈ rows, r.offset = r'.offset → r = r') :
    parseRelaPlt rows k = some symbol ↔
      ∃ r ∈ rows, r.offset = k ∧ r.value = 0#64 ∧ r.symbol = symbol := by
  induction rows using List.reverseRecOn with
  | nil => simp [parseRelaPlt]
  | append_singleton rows r ih =>
    have hrows := ih fun r₁ h₁ r₂ h₂ => h r₁ (List.mem_append_left _ h₁) r₂
      (List.mem_append_left _ h₂)
    have hlast : r ∈ rows ++ [r] := List.mem_append_right _ (List.mem_singleton_self r)
    have hfold : parseRelaPlt (rows ++ [r]) = addRow (parseRelaPlt rows) r := by
      simp [parseRelaPlt]
    rw [hfold, addRow]
    by_cases hvalue : r.value = 0#64
    · rw [if_pos hvalue]
      by_cases hk : k = r.offset
      · subst hk
        rw [Function.update_self, Option.some_inj]
        constructor
        · exact fun hsymbol => ⟨r, hlast, rfl, hvalue, hsymbol⟩
        · rintro ⟨r', hr', hoffset, -, hsymbol⟩
          rw [h r hlast r' hr' hoffset.symm]
          exact hsymbol
      · rw [Function.update_of_ne hk, hrows]
        simp [Ne.symm hk]
    · rw [if_neg hvalue, hrows]
      simp [hvalue]

-- What is reported comes from a line, and every line of a known symbol leads to a report.

theorem mem_parseLine {d : Word → Option Name} {stubs : List (Name × Word)} {l : Line}
    {e : Name × Word} (h : e ∈ parseLine d stubs l) :
    e ∈ stubs ∨ d l.comment = some e.1 ∧ e.2 = l.addr - 4#64 := by
  unfold parseLine at h
  split at h
  · rename_i symbol hsymbol
    split at h
    · exact .inl h
    · rcases List.mem_append.mp h with h | h
      · exact .inl h
      · cases List.mem_singleton.mp h
        exact .inr ⟨hsymbol, rfl⟩
  · exact .inl h

theorem mem_foldl_parseLine {d : Word → Option Name} {lines : List Line}
    {stubs : List (Name × Word)} {e : Name × Word} (h : e ∈ lines.foldl (parseLine d) stubs) :
    e ∈ stubs ∨ ∃ l ∈ lines, d l.comment = some e.1 ∧ e.2 = l.addr - 4#64 := by
  induction lines generalizing stubs with
  | nil => exact .inl h
  | cons l lines ih =>
    rcases ih h with h | ⟨l', hl', hline⟩
    · rcases mem_parseLine h with h | hline
      · exact .inl h
      · exact .inr ⟨l, List.mem_cons_self, hline⟩
    · exact .inr ⟨l', List.mem_cons_of_mem _ hl', hline⟩

theorem mem_parsePltSection {d : Word → Option Name} {lines : List Line} {e : Name × Word}
    (h : e ∈ parsePltSection d lines) :
    ∃ l ∈ lines, d l.comment = some e.1 ∧ e.2 = l.addr - 4#64 :=
  (mem_foldl_parseLine h).resolve_left List.not_mem_nil

theorem subset_foldl_parseLine (d : Word → Option Name) (lines : List Line)
    (stubs : List (Name × Word)) : stubs ⊆ lines.foldl (parseLine d) stubs := by
  induction lines generalizing stubs with
  | nil => exact fun _ h => h
  | cons l lines ih =>
    refine fun e he => ih _ ?_
    unfold parseLine
    split
    · split
      · exact he
      · exact List.mem_append_left _ he
    · exact he

theorem exists_mem_parsePltSection {d : Word → Option Name} {lines : List Line} {l : Line}
    {symbol : Name} (hl : l ∈ lines) (hsymbol : d l.comment = some symbol) :
    ∃ a, (symbol, a) ∈ parsePltSection d lines := by
  obtain ⟨pre, post, rfl⟩ := List.append_of_mem hl
  rw [parsePltSection, List.foldl_append, List.foldl_cons]
  generalize pre.foldl (parseLine d) [] = stubs
  have hadded : ∃ a, (symbol, a) ∈ parseLine d stubs l := by
    simp only [parseLine, hsymbol]
    split
    · rename_i hmem
      obtain ⟨⟨_, a⟩, he, rfl⟩ := List.mem_map.mp hmem
      exact ⟨a, he⟩
    · exact ⟨_, List.mem_append_right _ (List.mem_singleton_self _)⟩
  obtain ⟨a, ha⟩ := hadded
  exact ⟨a, subset_foldl_parseLine d post _ ha⟩

theorem mem_foldl_addStub {es stubs : List (Name × Word)} {e : Name × Word}
    (h : e ∈ es.foldl addStub stubs) :
    e ∈ stubs ∨ ∃ symbol, (symbol, e.2) ∈ es ∧ (e.1 = symbol ∨ e.1 = both symbol) := by
  induction es generalizing stubs with
  | nil => exact .inl h
  | cons e' es ih =>
    rcases ih h with h | ⟨symbol, hmem, hkey⟩
    · unfold addStub at h
      split at h
      · rcases List.mem_append.mp h with h | h
        · exact .inl h
        · cases List.mem_singleton.mp h
          exact .inr ⟨_, List.mem_cons_self, .inl rfl⟩
      · split at h
        · rcases List.mem_append.mp h with h | h
          · exact .inl h
          · cases List.mem_singleton.mp h
            exact .inr ⟨_, List.mem_cons_self, .inr rfl⟩
        · exact .inl h
    · exact .inr ⟨symbol, List.mem_cons_of_mem _ hmem, hkey⟩

theorem subset_foldl_addStub (es stubs : List (Name × Word)) : stubs ⊆ es.foldl addStub stubs := by
  induction es generalizing stubs with
  | nil => exact fun _ h => h
  | cons e es ih =>
    refine fun x hx => ih _ ?_
    unfold addStub
    split
    · exact List.mem_append_left _ hx
    · split
      · exact List.mem_append_left _ hx
      · exact hx

theorem exists_mem_foldl_addStub {es stubs : List (Name × Word)} {symbol : Name} {a : Word}
    (h : (symbol, a) ∈ es) : ∃ a', (symbol, a') ∈ es.foldl addStub stubs := by
  obtain ⟨pre, post, rfl⟩ := List.append_of_mem h
  rw [List.foldl_append, List.foldl_cons]
  generalize pre.foldl addStub stubs = stubs'
  by_cases hmem : symbol ∈ stubs'.map Prod.fst
  · obtain ⟨⟨_, a'⟩, he, rfl⟩ := List.mem_map.mp hmem
    refine ⟨a', subset_foldl_addStub _ _ ?_⟩
    exact subset_foldl_addStub [_] stubs' he
  · refine ⟨a, subset_foldl_addStub _ _ ?_⟩
    simp [addStub, hmem]

-- A stub that is reported, and the line that it was read from.
theorem mem_main {rows : List Row} {fakeLines pltLines : List Line} {e : Name × Word}
    (h : e ∈ main rows fakeLines pltLines) :
    ∃ symbol l, (l ∈ fakeLines ∨ l ∈ pltLines) ∧ (e.1 = symbol ∨ e.1 = both symbol) ∧
      parseRelaPlt rows l.comment = some symbol ∧ e.2 = l.addr - 4#64 := by
  rcases mem_foldl_addStub h with h | ⟨symbol, hmem, hkey⟩
  · obtain ⟨l, hl, hsymbol, haddr⟩ := mem_parsePltSection h
    exact ⟨e.1, l, .inl hl, .inl rfl, hsymbol, haddr⟩
  · obtain ⟨l, hl, hsymbol, haddr⟩ := mem_parsePltSection hmem
    exact ⟨symbol, l, .inr hl, hkey, hsymbol, haddr⟩

theorem exists_mem_main {rows : List Row} {fakeLines pltLines : List Line} {l : Line}
    {symbol : Name} (hl : l ∈ fakeLines ∨ l ∈ pltLines)
    (hsymbol : parseRelaPlt rows l.comment = some symbol) :
    ∃ a, (symbol, a) ∈ main rows fakeLines pltLines := by
  rcases hl with hl | hl
  · obtain ⟨a, ha⟩ := exists_mem_parsePltSection hl hsymbol
    exact ⟨a, subset_foldl_addStub _ _ ha⟩
  · obtain ⟨a, ha⟩ := exists_mem_parsePltSection hl hsymbol
    exact exists_mem_foldl_addStub ha

end Platypus.PltAddr

namespace Platypus.Linker

open Bytes Machine PltAddr

-- The instructions with a memory operand relative to the next one get a comment.
def commentLines (code : List (Insn × Word)) : List Line :=
  code.filterMap fun c =>
    match c.1 with
    | .orMem _ disp => some ⟨c.2 - 7#64, c.2 + disp.signExtend 64⟩
    | .andMem _ disp => some ⟨c.2 - 7#64, c.2 + disp.signExtend 64⟩
    | .jmpMem disp => some ⟨c.2 - 6#64, c.2 + disp.signExtend 64⟩
    | _ => none

-- The lines of a section, stub after stub; between the stubs nothing has a comment.
def sectionLines (cfg : Config) (c : Ctx) (S : StubSection) : List Line :=
  (S.entries c).zipIdx.flatMap fun e =>
    ((S.stub cfg c e.1 (S.stubVA cfg e.2)).map fun bs =>
      commentLines (disassemble bs (S.stubVA cfg e.2))).getD []

-- The rows of `.rela.plt` that name a symbol; `value` are the values of the symbols.
def relaRows (cfg : Config) (c : Ctx) (value : SymId → Word) : List Row :=
  (jumpSlots c).filterMap fun r =>
    (getSymIndex c r).map fun s =>
      ⟨cfg.va r.inputSec + r.offsetInSec, value s, (c.syms s).name⟩

-- A symbol with a row that the script does not skip.
structure Listed (c : Ctx) (value : SymId → Word) (s : SymId) : Prop where
  mem : s ∈ c.gotPlt
  index : getSymIndex c (slotReloc c .R_X86_64_JUMP_SLOT .gotPlt s) = some s
  value : value s = 0#64

-- `a` is the address of a stub that was written for a symbol of the name.
def IsStub (cfg : Config) (c : Ctx) (symbol : Name) (a : Word) : Prop :=
  ∃ (S : StubSection) (j : Nat) (s : SymId), (S.entries c)[j]? = some s ∧
    (c.syms s).name = symbol ∧ a = S.stubVA cfg j

-- What the script is for.
def ReportsStub (cfg : Config) (c : Ctx) (e : Name × Word) : Prop :=
  ∃ symbol, (e.1 = symbol ∨ e.1 = both symbol) ∧ IsStub cfg c symbol e.2

-- The sections as the linker lays them out: displacements fit, stubs and slots are aligned, and
-- the two masks are not among the slots.
structure Layout (cfg : Config) (c : Ctx) : Prop where
  target : cfg.target = .IntelIBT
  reach : Reach cfg c
  stubs : ∀ S : StubSection, (cfg.va S.sec).setWidth 4 = 0#4
  slots : (cfg.va .gotPlt).setWidth 3 = 0#3
  ormask : ∀ (S : StubSection) (j : Nat), j < (S.entries c).length →
    Fits (c.ormask_offset + cfg.va .got - (S.stubVA cfg j + 11#64))
  andmask : ∀ (S : StubSection) (j : Nat), j < (S.entries c).length →
    Fits (c.andmask_offset + cfg.va .got - (S.stubVA cfg j + 18#64))
  apart : ∀ i < c.gotPlt.length, c.ormask_offset + cfg.va .got ≠ cfg.va .gotPlt + slotOffset i ∧
    c.andmask_offset + cfg.va .got ≠ cfg.va .gotPlt + slotOffset i

section Lines

variable {cfg : Config} {c : Ctx}

theorem mem_sectionLines {S : StubSection} {l : Line} :
    l ∈ sectionLines cfg c S ↔ ∃ j s bs, (S.entries c)[j]? = some s ∧
      S.stub cfg c s (S.stubVA cfg j) = some bs ∧
      l ∈ commentLines (disassemble bs (S.stubVA cfg j)) := by
  unfold sectionLines
  rw [List.mem_flatMap]
  constructor
  · rintro ⟨⟨s, j⟩, he, hl⟩
    have hs := List.mem_zipIdx_iff_getElem?.mp he
    cases hstub : S.stub cfg c s (S.stubVA cfg j) with
    | none => simp [hstub] at hl
    | some bs =>
      rw [hstub] at hl
      exact ⟨j, s, bs, hs, hstub, hl⟩
  · rintro ⟨j, s, bs, hs, hstub, hl⟩
    refine ⟨(s, j), List.mem_zipIdx_iff_getElem?.mpr hs, ?_⟩
    simpa [hstub] using hl

-- Stubs start at multiples of 16, and slots are at multiples of 8.

theorem setWidth_stubVA (h : Layout cfg c) (S : StubSection) (j : Nat) :
    (S.stubVA cfg j).setWidth 4 = 0#4 := by
  have hheader : S.headerSize cfg = 0 := by
    cases S <;> simp [StubSection.headerSize, h.target, Target.pltHeaderSize]
  have hoffset : (BitVec.ofNat 64 (S.offset cfg j)).setWidth 4 = 0#4 := by
    apply BitVec.eq_of_toNat_eq
    simp only [StubSection.offset, hheader, BitVec.toNat_setWidth, BitVec.toNat_ofNat]
    omega
  rw [StubSection.stubVA, BitVec.setWidth_add _ _ (by decide), h.stubs S, hoffset]
  rfl

theorem setWidth_slot (h : Layout cfg c) {i : Nat} (hi : i < c.gotPlt.length) :
    (cfg.va .gotPlt + slotOffset i).setWidth 3 = 0#3 := by
  have hoffset : (slotOffset i).setWidth 3 = 0#3 := by
    rw [slotOffset_eq i (h.reach.slot_lt hi)]
    apply BitVec.eq_of_toNat_eq
    simp only [BitVec.toNat_setWidth, BitVec.toNat_ofNat]
    omega
  rw [BitVec.setWidth_add _ _ (by decide), h.slots, hoffset]
  rfl

theorem setWidth_signExtend_setWidth {w m k n : Nat} (x : BitVec w) (hmk : m ≤ k) (hkn : k ≤ n) :
    ((x.setWidth k).signExtend n).setWidth m = x.setWidth m := by
  apply BitVec.eq_of_getLsbD_eq
  intro i hi
  have hik : i < k := by omega
  have hin : i < n := by omega
  simp only [BitVec.getLsbD_setWidth, BitVec.getLsbD_signExtend, hi, hik, hin, decide_true,
    Bool.true_and, if_true]

-- The jump of the stub of a placeholder does not go through a slot.
theorem placeholder_not_slot (h : Layout cfg c) (S : StubSection) (j : Nat) {i : Nat}
    (hi : i < c.gotPlt.length) :
    S.stubVA cfg j + 10#64 + ((S.stubVA cfg j).setWidth 32).signExtend 64 ≠
      cfg.va .gotPlt + slotOffset i := by
  intro heq
  have hslot := setWidth_slot h hi
  have hva : (S.stubVA cfg j).setWidth 3 = 0#3 := by
    rw [← BitVec.setWidth_setWidth_of_le _ (show 3 ≤ 4 by decide), setWidth_stubVA h S j]
    rfl
  rw [← heq, BitVec.setWidth_add _ _ (by decide), BitVec.setWidth_add _ _ (by decide),
    setWidth_signExtend_setWidth _ (by decide) (by decide), hva] at hslot
  revert hslot
  decide

-- The lines of the two kinds of stubs.

theorem commentLines_plainStub (d va : Word) :
    commentLines (disassemble (plainStub d) va) =
      [⟨va + 4#64, va + 10#64 + (d.setWidth 32).signExtend 64⟩] := by
  have hnext : va + 4#64 + 6#64 = va + 10#64 := by bv_omega
  have haddr : va + 10#64 - 6#64 = va + 4#64 := by bv_omega
  rw [disassemble_plainStub, hnext]
  simp [commentLines, haddr]

theorem commentLines_maskingStub {init reg : Byte} {arg_pos : List Int}
    (hreg : maskedReg arg_pos = some (init, reg)) (s : SymId) (va : Word)
    (hor : Fits (c.ormask_offset + cfg.va .got - (va + 11#64)))
    (hand : Fits (c.andmask_offset + cfg.va .got - (va + 18#64)))
    (hslot : Fits (c.getGotPltVA cfg s - (va + 24#64))) :
    commentLines (disassemble (maskingStub cfg c init reg s va) va) =
      [⟨va + 4#64, c.ormask_offset + cfg.va .got⟩, ⟨va + 11#64, c.andmask_offset + cfg.va .got⟩,
        ⟨va + 18#64, c.getGotPltVA cfg s⟩] := by
  obtain ⟨rexR, field, hrex, hfield⟩ := maskedReg_cases _ _ _ hreg
  have hdisp₁ (x : Word) : x - va - 4#64 - 7#64 = x - (va + 11#64) := by bv_omega
  have hdisp₂ (x : Word) : x - (va + 11#64) - 7#64 = x - (va + 18#64) := by bv_omega
  have hdisp₃ (x : Word) : x - va - 10#64 - 7#64 - 7#64 = x - (va + 24#64) := by bv_omega
  have hnext₁ : va + 4#64 + 7#64 = va + 11#64 := by bv_omega
  have hnext₂ : va + 11#64 + 7#64 = va + 18#64 := by bv_omega
  have hnext₃ : va + 18#64 + 6#64 = va + 24#64 := by bv_omega
  rw [disassemble_maskingStub cfg c hrex hfield, hdisp₁, hdisp₁, hdisp₂, hdisp₃, hnext₁, hnext₂,
    hnext₃]
  simp only [commentLines, List.filterMap_cons, List.filterMap_nil]
  rw [add_signExtend_of_fits _ _ hor, add_signExtend_of_fits _ _ hand,
    add_signExtend_of_fits _ _ hslot]
  have haddr₁ : va + 11#64 - 7#64 = va + 4#64 := by bv_omega
  have haddr₂ : va + 18#64 - 7#64 = va + 11#64 := by bv_omega
  have haddr₃ : va + 24#64 - 6#64 = va + 18#64 := by bv_omega
  rw [haddr₁, haddr₂, haddr₃]

end Lines

section Link

variable {cfg : Config} {c : Ctx} {done : List SymId}

theorem SlotInv.getGotPltVA_eq (hinv : SlotInv c done) (cfg : Config) {s : SymId} {i : Nat}
    (hs : c.gotPlt[i]? = some s) : c.getGotPltVA cfg s = cfg.va .gotPlt + slotOffset i := by
  have hslot := hinv.slots i s hs
  simp [Ctx.getGotPltVA, hslot.isInIplt, hslot.getGotPltOffset]

theorem SlotInv.getGotPltVA_inj (hinv : SlotInv c done) (h : Reach cfg c) {s t : SymId}
    (hs : s ∈ c.gotPlt) (ht : t ∈ c.gotPlt) (heq : c.getGotPltVA cfg s = c.getGotPltVA cfg t) :
    s = t := by
  obtain ⟨i, hi⟩ := List.mem_iff_getElem?.mp hs
  obtain ⟨k, hk⟩ := List.mem_iff_getElem?.mp ht
  rw [hinv.getGotPltVA_eq cfg hi, hinv.getGotPltVA_eq cfg hk, BitVec.add_right_inj] at heq
  have hilt := (List.getElem?_eq_some_iff.mp hi).1
  have hklt := (List.getElem?_eq_some_iff.mp hk).1
  obtain rfl := slotOffset_inj i k (h.slot_lt hilt) (h.slot_lt hklt) heq
  exact Option.some.inj (hi.symm.trans hk)

theorem StubSection.mem_gotPlt (hinv : SlotInv c done) {S : StubSection} {j : Nat} {s : SymId}
    (hs : (S.entries c)[j]? = some s) : s ∈ c.gotPlt := by
  apply hinv.covered
  cases S with
  | plt => exact .inl (List.mem_of_getElem? hs)
  | fakeplt => exact .inr (List.mem_of_getElem? hs)

theorem Reach.slot_fits (h : Reach cfg c) (hinv : SlotInv c done) {S : StubSection} {j e : Nat}
    {s : SymId} (hs : (S.entries c)[j]? = some s) (he : e ≤ 32) :
    Fits (c.getGotPltVA cfg s - (S.stubVA cfg j + BitVec.ofNat 64 e)) := by
  obtain ⟨i, hi⟩ := List.mem_iff_getElem?.mp (S.mem_gotPlt hinv hs)
  rw [hinv.getGotPltVA_eq cfg hi]
  exact h.fits (List.getElem?_eq_some_iff.mp hi).1 (List.getElem?_eq_some_iff.mp hs).1 he

section Stub

variable (h : Layout cfg c) (hinv : SlotInv c done) {S : StubSection} {j : Nat} {s : SymId}
  {bs : List Byte} (hs : (S.entries c)[j]? = some s)
  (hbs : S.stub cfg c s (S.stubVA cfg j) = some bs)

include h hinv hs hbs

-- A getter jumps 18 bytes after the start of its stub.
theorem commentLines_getter {arg_pos : List Int}
    (hlookup : cfg.callb_get.lookup (c.syms s).name = some arg_pos) :
    commentLines (disassemble bs (S.stubVA cfg j)) =
      [⟨S.stubVA cfg j + 4#64, c.ormask_offset + cfg.va .got⟩,
        ⟨S.stubVA cfg j + 11#64, c.andmask_offset + cfg.va .got⟩,
        ⟨S.stubVA cfg j + 18#64, c.getGotPltVA cfg s⟩] := by
  have hj : j < (S.entries c).length := (List.getElem?_eq_some_iff.mp hs).1
  have hfits : Fits (c.getGotPltVA cfg s - (S.stubVA cfg j + 24#64)) :=
    h.reach.slot_fits hinv hs (by decide)
  have hmasked : (maskedReg arg_pos).map (fun r => maskingStub cfg c r.1 r.2 s (S.stubVA cfg j)) =
      some bs := by
    cases S with
    | fakeplt => simpa [StubSection.stub, X86_64.writeFakePlt, hlookup] using hbs
    | plt => simpa [StubSection.stub, h.target, Target.writePlt, IntelIBT.writePlt, hlookup] using hbs
  obtain ⟨⟨init, reg⟩, hreg, rfl⟩ := Option.map_eq_some_iff.mp hmasked
  exact commentLines_maskingStub hreg s _ (h.ormask S j hj) (h.andmask S j hj) hfits

-- Every other symbol jumps 4 bytes after it, through its slot unless it is a placeholder.
theorem commentLines_plain (hlookup : cfg.callb_get.lookup (c.syms s).name = none) :
    commentLines (disassemble bs (S.stubVA cfg j)) =
        [⟨S.stubVA cfg j + 4#64, c.getGotPltVA cfg s⟩] ∨
      commentLines (disassemble bs (S.stubVA cfg j)) =
        [⟨S.stubVA cfg j + 4#64,
          S.stubVA cfg j + 10#64 + ((S.stubVA cfg j).setWidth 32).signExtend 64⟩] := by
  have hfits : Fits (c.getGotPltVA cfg s - (S.stubVA cfg j + 10#64)) :=
    h.reach.slot_fits hinv hs (by decide)
  have hdisp (x va : Word) : x - va - 10#64 = x - (va + 10#64) := by bv_omega
  have hbytes : plainStub (c.getGotPltVA cfg s - S.stubVA cfg j - 10#64) = bs ∨
      plainStub (S.stubVA cfg j) = bs := by
    cases S with
    | fakeplt =>
      left
      simpa [StubSection.stub, X86_64.writeFakePlt, hlookup] using hbs
    | plt =>
      simp only [StubSection.stub, h.target, Target.writePlt, IntelIBT.writePlt, hlookup] at hbs
      split at hbs
      · exact .inr (Option.some_inj.mp hbs)
      · exact .inl (Option.some_inj.mp hbs)
  rcases hbytes with rfl | rfl
  · left
    rw [commentLines_plainStub, hdisp, add_signExtend_of_fits _ _ hfits]
  · right
    rw [commentLines_plainStub]

end Stub

-- The line that a slot is found in is the jump of the stub of its symbol.
theorem line_of_slot (h : Layout cfg c) (hinv : SlotInv c done) {S : StubSection} {l : Line}
    (hl : l ∈ sectionLines cfg c S) {s : SymId} (hs : s ∈ c.gotPlt)
    (hslot : c.getGotPltVA cfg s = l.comment) :
    ∃ j, (S.entries c)[j]? = some s ∧
      (l.addr = S.stubVA cfg j + 18#64 ∧ (cfg.callb_get.lookup (c.syms s).name).isSome ∨
        l.addr = S.stubVA cfg j + 4#64 ∧ cfg.callb_get.lookup (c.syms s).name = none) := by
  obtain ⟨j, t, bs, ht, hbs, hl⟩ := mem_sectionLines.mp hl
  have htmem := S.mem_gotPlt hinv ht
  obtain ⟨i, hi⟩ := List.mem_iff_getElem?.mp hs
  have hilt := (List.getElem?_eq_some_iff.mp hi).1
  have hva := hinv.getGotPltVA_eq cfg hi
  have hown (heq : c.getGotPltVA cfg s = c.getGotPltVA cfg t) : s = t :=
    hinv.getGotPltVA_inj h.reach hs htmem heq
  cases hlookup : cfg.callb_get.lookup (c.syms t).name with
  | some arg_pos =>
    rw [commentLines_getter h hinv ht hbs hlookup] at hl
    simp only [List.mem_cons, List.not_mem_nil, or_false] at hl
    rcases hl with rfl | rfl | rfl
    · exact absurd (hslot.symm.trans hva) (h.apart i hilt).1
    · exact absurd (hslot.symm.trans hva) (h.apart i hilt).2
    · obtain rfl := hown hslot
      exact ⟨j, ht, .inl ⟨rfl, by rw [hlookup]; rfl⟩⟩
  | none =>
    rcases commentLines_plain h hinv ht hbs hlookup with hlines | hlines
    · rw [hlines, List.mem_singleton] at hl
      subst hl
      obtain rfl := hown hslot
      exact ⟨j, ht, .inr ⟨rfl, hlookup⟩⟩
    · rw [hlines, List.mem_singleton] at hl
      subst hl
      exact absurd (hslot.symm.trans hva) (placeholder_not_slot h S j hilt)

theorem jumpSlots_eq (hinv : SlotInv c done) :
    jumpSlots c = c.gotPlt.map (slotReloc c .R_X86_64_JUMP_SLOT .gotPlt) := by
  apply List.ext_getElem?
  intro i
  rw [List.getElem?_map]
  cases hi : c.gotPlt[i]? with
  | some s => exact (hinv.slots i s hi).reloc
  | none =>
    rw [List.getElem?_eq_none_iff] at hi
    rw [Option.map_none, List.getElem?_eq_none_iff, hinv.relocs]
    exact hi

theorem getSymIndex_slotReloc {s t : SymId} {type : RelType} {sec : Section}
    (h : getSymIndex c (slotReloc c type sec s) = some t) : t = s := by
  unfold getSymIndex slotReloc at h
  split at h
  · rename_i heq
    cases heq
    split at h
    · cases h
    · exact (Option.some_inj.mp h).symm
  · cases h

theorem slotReloc_mem_jumpSlots (hinv : SlotInv c done) {s : SymId} (hs : s ∈ c.gotPlt) :
    slotReloc c .R_X86_64_JUMP_SLOT .gotPlt s ∈ jumpSlots c := by
  rw [jumpSlots_eq hinv]
  exact List.mem_map_of_mem hs

-- A relocation of `.rela.plt` that names a symbol is the one of its slot.
theorem eq_slotReloc_of_getSymIndex (hinv : SlotInv c done) {r : DynamicReloc} (hr : r ∈ jumpSlots c)
    {s : SymId} (hindex : getSymIndex c r = some s) :
    s ∈ c.gotPlt ∧ r = slotReloc c .R_X86_64_JUMP_SLOT .gotPlt s := by
  rw [jumpSlots_eq hinv] at hr
  obtain ⟨t, ht, rfl⟩ := List.mem_map.mp hr
  obtain rfl := getSymIndex_slotReloc hindex
  exact ⟨ht, rfl⟩

theorem mem_relaRows (hinv : SlotInv c done) {value : SymId → Word} {r : Row} :
    r ∈ relaRows cfg c value ↔ ∃ s ∈ c.gotPlt,
      getSymIndex c (slotReloc c .R_X86_64_JUMP_SLOT .gotPlt s) = some s ∧
      r = ⟨c.getGotPltVA cfg s, value s, (c.syms s).name⟩ := by
  have hva {s : SymId} (hs : s ∈ c.gotPlt) :
      cfg.va .gotPlt + c.getGotPltOffset s = c.getGotPltVA cfg s := by
    obtain ⟨i, hi⟩ := List.mem_iff_getElem?.mp hs
    rw [hinv.getGotPltVA_eq cfg hi, (hinv.slots i s hi).getGotPltOffset]
  unfold relaRows
  rw [List.mem_filterMap]
  constructor
  · rintro ⟨r', hr', hr⟩
    obtain ⟨s, hindex, rfl⟩ := Option.map_eq_some_iff.mp hr
    obtain ⟨hs, rfl⟩ := eq_slotReloc_of_getSymIndex hinv hr' hindex
    refine ⟨s, hs, hindex, ?_⟩
    rw [← hva hs]
    rfl
  · rintro ⟨s, hs, hindex, rfl⟩
    refine ⟨_, slotReloc_mem_jumpSlots hinv hs, ?_⟩
    rw [hindex, ← hva hs]
    rfl

theorem offset2symbol_iff (h : Layout cfg c) (hinv : SlotInv c done) {value : SymId → Word}
    {k : Word} {symbol : Name} :
    parseRelaPlt (relaRows cfg c value) k = some symbol ↔
      ∃ s, Listed c value s ∧ c.getGotPltVA cfg s = k ∧ (c.syms s).name = symbol := by
  have hagree : ∀ r ∈ relaRows cfg c value, ∀ r' ∈ relaRows cfg c value,
      r.offset = r'.offset → r = r' := by
    intro r hr r' hr' heq
    obtain ⟨s, hs, -, rfl⟩ := (mem_relaRows hinv).mp hr
    obtain ⟨t, ht, -, rfl⟩ := (mem_relaRows hinv).mp hr'
    obtain rfl := hinv.getGotPltVA_inj h.reach hs ht heq
    rfl
  rw [parseRelaPlt_iff hagree]
  constructor
  · rintro ⟨r, hr, hoffset, hvalue, hsymbol⟩
    obtain ⟨s, hs, hindex, rfl⟩ := (mem_relaRows hinv).mp hr
    exact ⟨s, ⟨hs, hindex, hvalue⟩, hoffset, hsymbol⟩
  · rintro ⟨s, hlisted, hoffset, hsymbol⟩
    exact ⟨_, (mem_relaRows hinv).mpr ⟨s, hlisted.mem, hlisted.index, rfl⟩, hoffset, hlisted.value,
      hsymbol⟩

-- A reported address was read from the jump of a stub of a symbol that is listed.
theorem mem_main_stub (h : Layout cfg c) (hinv : SlotInv c done) {value : SymId → Word}
    {e : Name × Word} (he : e ∈ main (relaRows cfg c value) (sectionLines cfg c .fakeplt)
      (sectionLines cfg c .plt)) :
    ∃ symbol S j s, (e.1 = symbol ∨ e.1 = both symbol) ∧ Listed c value s ∧
      (c.syms s).name = symbol ∧ (StubSection.entries c S)[j]? = some s ∧
      (e.2 = S.stubVA cfg j + 14#64 ∧ (cfg.callb_get.lookup symbol).isSome ∨
        e.2 = S.stubVA cfg j ∧ cfg.callb_get.lookup symbol = none) := by
  obtain ⟨symbol, l, hl, hkey, hsymbol, haddr⟩ := mem_main he
  obtain ⟨s, hlisted, hslot, rfl⟩ := (offset2symbol_iff h hinv).mp hsymbol
  obtain ⟨S, hl⟩ : ∃ S, l ∈ sectionLines cfg c S := by
    rcases hl with hl | hl
    · exact ⟨.fakeplt, hl⟩
    · exact ⟨.plt, hl⟩
  obtain ⟨j, hj, hline⟩ := line_of_slot h hinv hl hlisted.mem hslot
  refine ⟨_, S, j, s, hkey, hlisted, rfl, hj, ?_⟩
  rcases hline with ⟨hline, hgetter⟩ | ⟨hline, hplain⟩
  · left
    refine ⟨?_, hgetter⟩
    rw [haddr, hline]
    bv_omega
  · right
    refine ⟨?_, hplain⟩
    rw [haddr, hline]
    bv_omega

theorem IsStub.setWidth_eq (h : Layout cfg c) {symbol : Name} {a : Word}
    (ha : IsStub cfg c symbol a) : a.setWidth 4 = 0#4 := by
  obtain ⟨S, j, s, -, -, rfl⟩ := ha
  exact setWidth_stubVA h S j

theorem setWidth_getter (h : Layout cfg c) (S : StubSection) (j : Nat) :
    (S.stubVA cfg j + 14#64).setWidth 4 = 14#4 := by
  rw [BitVec.setWidth_add _ _ (by decide), setWidth_stubVA h S j]
  rfl

-- The stub of a getter that was written shows its slot.
theorem exists_line_getter (h : Layout cfg c) (hinv : SlotInv c done)
    (hwritten : ∀ S : StubSection, ∃ buf buf', S.writeTo cfg c buf = some buf') {s : SymId}
    (hs : s ∈ c.gotPlt) {arg_pos : List Int}
    (hlookup : cfg.callb_get.lookup (c.syms s).name = some arg_pos) :
    ∃ l : Line, (l ∈ sectionLines cfg c .fakeplt ∨ l ∈ sectionLines cfg c .plt) ∧
      c.getGotPltVA cfg s = l.comment := by
  obtain ⟨i, hi⟩ := List.mem_iff_getElem?.mp hs
  obtain ⟨S, j, hj⟩ : ∃ (S : StubSection) (j : Nat), (S.entries c)[j]? = some s := by
    obtain ⟨j, hj, -⟩ := (hinv.slots i s hi).stub
    split at hj
    · exact ⟨.fakeplt, j, hj⟩
    · exact ⟨.plt, j, hj⟩
  obtain ⟨buf, buf', hbuf⟩ := hwritten S
  obtain ⟨bs, hbs, -⟩ := read_writeTo cfg c S h.target buf buf' hbuf j s hj
  have hl : (⟨S.stubVA cfg j + 18#64, c.getGotPltVA cfg s⟩ : Line) ∈ sectionLines cfg c S := by
    refine mem_sectionLines.mpr ⟨j, s, bs, hj, hbs, ?_⟩
    rw [commentLines_getter h hinv hj hbs hlookup]
    simp
  cases S with
  | fakeplt => exact ⟨_, .inl hl, rfl⟩
  | plt => exact ⟨_, .inr hl, rfl⟩

-- No getter has a name that the script makes up.
theorem both_ne_getter (hnames : ∀ e ∈ cfg.callb_get, ¬ "BothPLTs_".toList <+: e.1) {name : Name}
    {arg_pos : List Int} (hlookup : cfg.callb_get.lookup name = some arg_pos) (symbol : Name) :
    name ≠ both symbol := by
  intro hname
  obtain ⟨pre, post, hsplit, -⟩ := List.lookup_eq_some_iff.mp hlookup
  have hmem : (name, arg_pos) ∈ cfg.callb_get := by simp [hsplit]
  exact hnames _ hmem ⟨symbol, hname.symm⟩

end Link

-- The script reports the starts of stubs exactly if no symbol that it lists is a getter.
theorem pltAddr_reportsStub_iff (cfg : Config) (c : Ctx) (syms : List Nat) (hlink : Link c syms)
    (h : Layout cfg (postScanRelocations cfg c syms)) (value : SymId → Word)
    (hwritten : ∀ S : StubSection, ∃ buf buf',
      S.writeTo cfg (postScanRelocations cfg c syms) buf = some buf')
    (hnames : ∀ e ∈ cfg.callb_get, ¬ "BothPLTs_".toList <+: e.1) :
    (∀ e ∈ main (relaRows cfg (postScanRelocations cfg c syms) value)
        (sectionLines cfg (postScanRelocations cfg c syms) .fakeplt)
        (sectionLines cfg (postScanRelocations cfg c syms) .plt),
      ReportsStub cfg (postScanRelocations cfg c syms) e) ↔
    ∀ s, Listed (postScanRelocations cfg c syms) value s →
      cfg.callb_get.lookup ((postScanRelocations cfg c syms).syms s).name = none := by
  have hinv := hlink.slotInv cfg
  generalize postScanRelocations cfg c syms = C at *
  constructor
  · intro hall s hlisted
    by_contra hgetter
    obtain ⟨arg_pos, hlookup⟩ := Option.ne_none_iff_exists'.mp hgetter
    -- the name of the getter is reported, and whatever stub it was read from is that of a getter
    obtain ⟨l, hl, hslot⟩ := exists_line_getter h hinv hwritten hlisted.mem hlookup
    obtain ⟨a, ha⟩ := exists_mem_main hl ((offset2symbol_iff h hinv).mpr ⟨s, hlisted, hslot, rfl⟩)
    obtain ⟨symbol, S, j, t, hkey, -, -, -, hread⟩ := mem_main_stub h hinv ha
    have hsymbol : (C.syms s).name = symbol :=
      hkey.resolve_right (both_ne_getter hnames hlookup symbol)
    rw [← hsymbol, hlookup] at hread
    obtain ⟨_, -, hstub⟩ := hall _ ha
    have halign := hstub.setWidth_eq h
    rcases hread with ⟨haddr, -⟩ | ⟨-, hnone⟩
    · rw [haddr, setWidth_getter h] at halign
      cases halign
    · cases hnone
  · intro hnone e he
    obtain ⟨symbol, S, j, s, hkey, hlisted, rfl, hj, hread⟩ := mem_main_stub h hinv he
    rcases hread with ⟨-, hgetter⟩ | ⟨haddr, -⟩
    · rw [hnone s hlisted] at hgetter
      cases hgetter
    · exact ⟨_, hkey, S, j, s, hj, rfl, haddr⟩

theorem demoLink_layout :
    Layout (demoConfig .IntelIBT) (postScanRelocations (demoConfig .IntelIBT) demoLink [0, 1, 2]) where
  target := rfl
  reach := demoConfig_reach _ (by decide) (by decide) (by decide)
  stubs S := by cases S <;> rfl
  slots := rfl
  ormask S j hj := by
    have hj' : j < 2 := by cases S <;> exact hj
    cases S <;> interval_cases j <;> rfl
  andmask S j hj := by
    have hj' : j < 2 := by cases S <;> exact hj
    cases S <;> interval_cases j <;> rfl
  apart i hi := by
    have hi' : i < 3 := hi
    interval_cases i <;> decide

theorem pltAddr_reportsStub_iff_demoLink :
    (∀ e ∈ main (relaRows (demoConfig .IntelIBT)
          (postScanRelocations (demoConfig .IntelIBT) demoLink [0, 1, 2]) fun _ => 0#64)
        (sectionLines (demoConfig .IntelIBT)
          (postScanRelocations (demoConfig .IntelIBT) demoLink [0, 1, 2]) .fakeplt)
        (sectionLines (demoConfig .IntelIBT)
          (postScanRelocations (demoConfig .IntelIBT) demoLink [0, 1, 2]) .plt),
      ReportsStub (demoConfig .IntelIBT)
        (postScanRelocations (demoConfig .IntelIBT) demoLink [0, 1, 2]) e) ↔
    ∀ s, Listed (postScanRelocations (demoConfig .IntelIBT) demoLink [0, 1, 2]) (fun _ => 0#64) s →
      (demoConfig .IntelIBT).callb_get.lookup
        ((postScanRelocations (demoConfig .IntelIBT) demoLink [0, 1, 2]).syms s).name = none := by
  refine pltAddr_reportsStub_iff (demoConfig .IntelIBT) demoLink [0, 1, 2] demoLink_link
    demoLink_layout (fun _ => 0#64) ?_ ?_
  · intro S
    cases S with
    | plt => exact ⟨fun _ => 0#8, _, rfl⟩
    | fakeplt => exact ⟨fun _ => 0#8, _, rfl⟩
  · decide

-- `qsort` is a getter, with stubs at 0x2020 and 0x1000; what is reported is inside them.
theorem getter_not_reportsStub :
    main (relaRows (demoConfig .IntelIBT)
          (postScanRelocations (demoConfig .IntelIBT) demoLink [0, 1, 2]) fun _ => 0#64)
        (sectionLines (demoConfig .IntelIBT)
          (postScanRelocations (demoConfig .IntelIBT) demoLink [0, 1, 2]) .fakeplt)
        (sectionLines (demoConfig .IntelIBT)
          (postScanRelocations (demoConfig .IntelIBT) demoLink [0, 1, 2]) .plt) =
      [("f".toList, 0x2000#64), ("qsort".toList, 0x202e#64), ("BothPLTs_qsort".toList, 0x100e#64),
        ("puts".toList, 0x1020#64)] ∧
      ¬ ∃ symbol, IsStub (demoConfig .IntelIBT)
        (postScanRelocations (demoConfig .IntelIBT) demoLink [0, 1, 2]) symbol 0x202e#64 := by
  refine ⟨by decide, ?_⟩
  rintro ⟨symbol, hstub⟩
  have halign := hstub.setWidth_eq demoLink_layout
  revert halign
  decide

end Platypus.Linker
