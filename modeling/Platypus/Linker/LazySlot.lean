import Platypus.Linker.CallTarget

-- What `.got.plt` holds before anything is bound.

namespace Platypus.Linker

open Bytes Machine

variable (cfg : Config) (c : Ctx)

def X86_64.writeGotPlt (s : SymId) : Word :=
  if (cfg.callb_get.lookup (c.syms s).name).isSome then
    if (c.syms s).isFake then c.getFakePltVA cfg s + (6#64 + 2#64 + 2#64)
    else c.getPltVA cfg s + (6#64 + 2#64 + 2#64)
  else if (c.syms s).isFake then c.getFakePltVA cfg s + 6#64
  else c.getPltVA cfg s + 6#64

-- The product is of 32-bit operands.
def IntelIBT.writeGotPlt (s : SymId) : Word :=
  if (c.syms s).startsWith "placeholder" then c.getFakePltVA cfg s
  else cfg.va .ibtPlt + 16#64 + (c.getPltIdx s * pltEntrySize).setWidth 64

def Target.writeGotPlt : Target → SymId → Word
  | .X86_64 => X86_64.writeGotPlt cfg c
  | .IntelIBT => IntelIBT.writeGotPlt cfg c

-- Entry `i` of `writeIBTPlt`; the entries are as far apart as they are long.
def ibtEntry (i : Nat) : List Byte :=
  let inst :=
    [0xf3#8, 0x0f#8, 0x1e#8, 0xfa#8,
      0x68#8, 0#8, 0#8, 0#8, 0#8,
      0xe9#8, 0#8, 0#8, 0#8, 0#8,
      0x66#8, 0x90#8]
  writeDisp (write32le inst 5 (BitVec.ofNat 32 i)) 10
    (-(BitVec.ofNat 64 Target.IntelIBT.pltHeaderSize) - 16#64 * BitVec.ofNat 64 i - 30#64)

def ibtEntryVA (i : Nat) : Word := cfg.va .ibtPlt + 16#64 + BitVec.ofNat 64 (16 * i)

-- The pieces of code that the linker writes for the PLTs, with their addresses.
inductive Entry : Word → List Byte → Prop
  | stub (S : StubSection) (j : Nat) (s : SymId) (bs : List Byte) :
      (S.entries c)[j]? = some s → S.stub cfg c s (S.stubVA cfg j) = some bs →
      Entry (S.stubVA cfg j) bs
  | ibt (i : Nat) : cfg.target = .IntelIBT → i < c.plt.length → Entry (ibtEntryVA cfg i) (ibtEntry i)

-- The address of the PLT header, which leads to the resolver.
def pltHeaderVA : Word :=
  match cfg.target with
  | .X86_64 => cfg.va .plt
  | .IntelIBT => cfg.va .ibtPlt

-- The operand of a `push` with the target of the jump after it.
def pushesAndJumps : List (Insn × Word) → Option (BitVec 32 × Word)
  | (.push imm, _) :: (.jmp disp, next) :: _ => some (imm, next + disp.signExtend 64)
  | (.endbr64, _) :: (.push imm, _) :: (.jmp disp, next) :: _ => some (imm, next + disp.signExtend 64)
  | _ => none

-- The same at one of the instructions of a piece of code that starts at `va`.
def lazyAt : List (Insn × Word) → Word → Word → Option (BitVec 32 × Word)
  | [], _, _ => none
  | (insn, next) :: rest, va, v =>
    if va = v then pushesAndJumps ((insn, next) :: rest) else lazyAt rest next v

-- The slot of `s` starts out with the address of instructions that push `i` and jump to the
-- PLT header.
def LazySlot (s : SymId) (i : Nat) : Prop :=
  ∃ va bs, Entry cfg c va bs ∧
    lazyAt (disassemble bs va) va (cfg.target.writeGotPlt cfg c s) =
      some (BitVec.ofNat 32 i, pltHeaderVA cfg)

-- The sizes that a link can have, and that `.plt` and `.fakeplt` do not overlap.
structure PltLimits : Prop where
  plt : 16 + 32 * c.plt.length < 2 ^ 31
  fakeplt : 32 * c.fakeplt.length < 2 ^ 31
  gotPlt : c.gotPlt.length < 2 ^ 29
  disjoint : ∀ a b, a < 32 * c.fakeplt.length → b < 16 + 32 * c.plt.length →
    cfg.va .fakeplt + BitVec.ofNat 64 a ≠ cfg.va .plt + BitVec.ofNat 64 b

-- The condition under which the slot is right.
def slotRight (s : SymId) (i : Nat) : Bool :=
  match cfg.target with
  | .X86_64 => !(c.syms s).isFake && (cfg.callb_get.lookup (c.syms s).name).isNone
  | .IntelIBT => (c.getPltIdx s * pltEntrySize).toNat = 16 * i && i < c.plt.length

theorem decode_jmp (d : BitVec 32) (rest : List Byte) :
    decode (0xe9#8 :: (le32 d ++ rest)) = some (.jmp d) := by
  simp [decode, le32, ofLe32_le32]

theorem disassemble_ibtEntry (i : Nat) (va : Word) :
    disassemble (ibtEntry i) va =
      [(.endbr64, va + 4#64), (.push (BitVec.ofNat 32 i), va + 4#64 + 5#64),
        (.jmp ((-(BitVec.ofNat 64 Target.IntelIBT.pltHeaderSize) - 16#64 * BitVec.ofNat 64 i -
          30#64).setWidth 32), va + 4#64 + 5#64 + 5#64)] := by
  refine (sweep_cons 15 _ va _ (decode_endbr64 _)).trans (congrArg _ ?_)
  refine (sweep_cons 14 _ _ _ (decode_push _ _)).trans (congrArg _ ?_)
  refine (sweep_cons 13 _ _ _ (decode_jmp _ _)).trans (congrArg _ ?_)
  rfl

theorem disassemble_writePlt_plain {s : SymId} {va : Word} {bs : List Byte}
    (hname : cfg.callb_get.lookup (c.syms s).name = none)
    (h : X86_64.writePlt cfg c s va = some bs) :
    disassemble bs va =
      [(.jmpMem ((c.getGotPltVA cfg s - va - 6#64).setWidth 32), va + 6#64),
        (.push (relocIndex c s), va + 6#64 + 5#64),
        (.jmp ((cfg.va .plt - va - 16#64).setWidth 32), va + 6#64 + 5#64 + 5#64)] := by
  unfold X86_64.writePlt at h
  rw [hname] at h
  cases h
  refine (sweep_cons 15 _ va _ (decode_jmpMem _ _)).trans (congrArg _ ?_)
  refine (sweep_cons 14 _ _ _ (decode_push _ _)).trans (congrArg _ ?_)
  refine (sweep_cons 13 _ _ _ (decode_jmp _ _)).trans (congrArg _ ?_)
  rfl

theorem disassemble_writePlt_masked {s : SymId} {va : Word} {bs : List Byte} {arg_pos : List Int}
    (hname : cfg.callb_get.lookup (c.syms s).name = some arg_pos)
    (h : X86_64.writePlt cfg c s va = some bs) :
    ∃ reg d e f, disassemble bs va =
      [(.orMem reg d, va + 7#64), (.jmpMem e, va + 7#64 + 6#64),
        (.push (relocIndex c s), va + 7#64 + 6#64 + 5#64),
        (.jmp f, va + 7#64 + 6#64 + 5#64 + 5#64)] := by
  unfold X86_64.writePlt at h
  rw [hname] at h
  dsimp only at h
  cases hreg : maskedReg arg_pos with
  | none =>
    rw [hreg] at h
    cases h
  | some pair =>
    obtain ⟨init, reg⟩ := pair
    rw [hreg] at h
    obtain ⟨rexR, field, hrex, hfield⟩ := maskedReg_cases _ _ _ hreg
    cases h
    refine ⟨.ofField rexR field, (c.ormask_offset + cfg.va .got - va - 7#64).setWidth 32,
      (c.getGotPltVA cfg s - va - 6#64 - 7#64).setWidth 32,
      (cfg.va .plt - va - 16#64 - 7#64).setWidth 32, ?_⟩
    refine (sweep_cons 22 _ va _ (decode_orMem hrex hfield _ _)).trans (congrArg _ ?_)
    refine (sweep_cons 21 _ _ _ (decode_jmpMem _ _)).trans (congrArg _ ?_)
    refine (sweep_cons 20 _ _ _ (decode_push _ _)).trans (congrArg _ ?_)
    refine (sweep_cons 19 _ _ _ (decode_jmp _ _)).trans (congrArg _ ?_)
    rfl

variable {cfg c}

-- Where the pieces of code push and jump.

theorem lazyAt_of_no_push {code : List (Insn × Word)} (h : ∀ p ∈ code, ∀ imm, p.1 ≠ .push imm)
    (va v : Word) : lazyAt code va v = none := by
  induction code generalizing va with
  | nil => rfl
  | cons p rest ih =>
    obtain ⟨insn, next⟩ := p
    rw [lazyAt]
    have hrest : ∀ p ∈ rest, ∀ imm, p.1 ≠ .push imm := fun p hp => h p (List.mem_cons_of_mem _ hp)
    split_ifs with heq
    · cases hcode : pushesAndJumps ((insn, next) :: rest) with
      | none => rfl
      | some pair =>
        unfold pushesAndJumps at hcode
        split at hcode
        · rename_i heq'
          cases heq'
          exact absurd rfl (h _ List.mem_cons_self _)
        · rename_i heq'
          cases heq'
          exact absurd rfl (hrest _ List.mem_cons_self _)
        · cases hcode
    · exact ih hrest next

theorem lazyAt_plain {d f : BitVec 32} {imm : BitVec 32} {va v : Word} {r : BitVec 32 × Word}
    (h : lazyAt [(.jmpMem d, va + 6#64), (.push imm, va + 6#64 + 5#64),
      (.jmp f, va + 6#64 + 5#64 + 5#64)] va v = some r) :
    v = va + 6#64 ∧ r = (imm, va + 6#64 + 5#64 + 5#64 + f.signExtend 64) := by
  rw [lazyAt, lazyAt, lazyAt, lazyAt] at h
  split_ifs at h with h₀ h₁ h₂
  · cases h
  · cases h
    exact ⟨h₁.symm, rfl⟩
  · cases h

theorem lazyAt_masked {reg : Reg} {d e f : BitVec 32} {imm : BitVec 32} {va v : Word}
    {r : BitVec 32 × Word}
    (h : lazyAt [(.orMem reg d, va + 7#64), (.jmpMem e, va + 7#64 + 6#64),
      (.push imm, va + 7#64 + 6#64 + 5#64), (.jmp f, va + 7#64 + 6#64 + 5#64 + 5#64)] va v = some r) :
    v = va + 7#64 + 6#64 := by
  rw [lazyAt, lazyAt, lazyAt, lazyAt, lazyAt] at h
  split_ifs at h with h₀ h₁ h₂ h₃
  · cases h
  · cases h
  · exact h₂.symm
  · cases h

theorem lazyAt_ibt {imm f : BitVec 32} {va v : Word} {r : BitVec 32 × Word}
    (h : lazyAt [(.endbr64, va + 4#64), (.push imm, va + 4#64 + 5#64),
      (.jmp f, va + 4#64 + 5#64 + 5#64)] va v = some r) :
    (v = va ∨ v = va + 4#64) ∧ r.1 = imm := by
  rw [lazyAt, lazyAt, lazyAt, lazyAt] at h
  split_ifs at h with h₀ h₁ h₂
  · cases h
    exact ⟨.inl h₀.symm, rfl⟩
  · cases h
    exact ⟨.inr h₁.symm, rfl⟩
  · cases h

theorem writeFakePlt_no_push {s : SymId} {va : Word} {bs : List Byte}
    (h : X86_64.writeFakePlt cfg c s va = some bs) :
    ∀ p ∈ disassemble bs va, ∀ imm, p.1 ≠ .push imm := by
  unfold X86_64.writeFakePlt at h
  split at h
  · obtain ⟨⟨init, reg⟩, hreg, rfl⟩ := Option.map_eq_some_iff.mp h
    obtain ⟨rexR, field, hrex, hfield⟩ := maskedReg_cases _ _ _ hreg
    rw [disassemble_maskingStub cfg c hrex hfield]
    simp
  · cases h
    rw [disassemble_plainStub]
    simp

theorem ibt_writePlt_no_push {s : SymId} {va : Word} {bs : List Byte}
    (h : IntelIBT.writePlt cfg c s va = some bs) :
    ∀ p ∈ disassemble bs va, ∀ imm, p.1 ≠ .push imm := by
  cases hname : (c.syms s).startsWith "placeholder" with
  | false => exact writeFakePlt_no_push (writePlt_eq_writeFakePlt cfg c s va hname ▸ h)
  | true =>
    unfold IntelIBT.writePlt at h
    rw [hname, if_pos rfl] at h
    split at h
    · obtain ⟨⟨init, reg⟩, hreg, rfl⟩ := Option.map_eq_some_iff.mp h
      obtain ⟨rexR, field, hrex, hfield⟩ := maskedReg_cases _ _ _ hreg
      rw [disassemble_maskingStub cfg c hrex hfield]
      simp
    · cases h
      rw [disassemble_plainStub]
      simp

-- The jumps go to the header.

theorem jump_back (header : Word) (k : Nat) (hk : k < 2 ^ 31) :
    header + BitVec.ofNat 64 k + ((header - (header + BitVec.ofNat 64 k)).setWidth 32).signExtend 64 =
      header := by
  refine add_signExtend_of_fits header _ ?_
  have hsub : header - (header + BitVec.ofNat 64 k) = BitVec.ofInt 64 (-(k : Int)) := by
    have h := ofInt_sub_natCast header header 0 k
    rw [BitVec.add_zero] at h
    rw [h]
    congr 1
    push_cast
    omega
  rw [hsub]
  exact fits_ofInt _ (by omega) (by omega)

theorem add_ofNat_inj {base : Word} {a b : Nat} (ha : a < 2 ^ 64) (hb : b < 2 ^ 64)
    (h : base + BitVec.ofNat 64 a = base + BitVec.ofNat 64 b) : a = b := by
  have hab : BitVec.ofNat 64 a = BitVec.ofNat 64 b := (BitVec.add_right_inj base).mp h
  have hnat := congrArg BitVec.toNat hab
  rwa [BitVec.toNat_ofNat, BitVec.toNat_ofNat, Nat.mod_eq_of_lt ha, Nat.mod_eq_of_lt hb] at hnat

theorem add_add_ofNat (base : Word) (a b : Nat) :
    base + BitVec.ofNat 64 a + BitVec.ofNat 64 b = base + BitVec.ofNat 64 (a + b) := by
  rw [BitVec.add_assoc, ← BitVec.ofNat_add]

section Without

variable {s : SymId} {i : Nat} (htarget : cfg.target = .X86_64)

include htarget

theorem stubVA_plt (j : Nat) :
    StubSection.stubVA cfg .plt j = cfg.va .plt + BitVec.ofNat 64 (16 + 32 * j) := by
  rw [StubSection.stubVA, StubSection.offset, StubSection.headerSize, htarget]
  rfl

theorem HasSlot.getPltVA (h : HasSlot c s i) (hlimits : PltLimits cfg c)
    (hfake : (c.syms s).isFake = false) :
    ∃ j, c.plt[j]? = some s ∧ c.getPltVA cfg s = cfg.va .plt + BitVec.ofNat 64 (16 + 32 * j) := by
  obtain ⟨j, hj, hcorrected⟩ := h.stub
  rw [hfake, if_neg Bool.false_ne_true] at hj
  have hlt := (List.getElem?_eq_some_iff.mp hj).1
  have hsize := hlimits.plt
  refine ⟨j, hj, ?_⟩
  rw [Ctx.getPltVA, h.isInIplt, if_neg Bool.false_ne_true, hcorrected,
    corrected_offset j (by omega), htarget]
  exact add_add_ofNat _ 16 _

omit htarget in
theorem HasSlot.getFakePltVA (h : HasSlot c s i) (hlimits : PltLimits cfg c)
    (hfake : (c.syms s).isFake = true) :
    ∃ j < c.fakeplt.length, c.getFakePltVA cfg s = cfg.va .fakeplt + BitVec.ofNat 64 (32 * j) := by
  obtain ⟨j, hj, hcorrected⟩ := h.stub
  rw [hfake, if_pos rfl] at hj
  have hlt := (List.getElem?_eq_some_iff.mp hj).1
  have hsize := hlimits.fakeplt
  refine ⟨j, hlt, ?_⟩
  rw [Ctx.getFakePltVA, h.isInIplt, if_neg Bool.false_ne_true, hcorrected,
    corrected_offset j (by omega), BitVec.add_zero]

-- The only places that push and jump are in `.plt`, after the jump through the slot.
theorem entry_x86 {va v : Word} {bs : List Byte} {r : BitVec 32 × Word} (hentry : Entry cfg c va bs)
    (h : lazyAt (disassemble bs va) va v = some r) :
    ∃ j t, c.plt[j]? = some t ∧
      ((cfg.callb_get.lookup (c.syms t).name = none ∧
          v = cfg.va .plt + BitVec.ofNat 64 (16 + 32 * j + 6) ∧ r.1 = relocIndex c t) ∨
        v = cfg.va .plt + BitVec.ofNat 64 (16 + 32 * j + 13)) := by
  cases hentry with
  | ibt k hibt =>
    rw [htarget] at hibt
    cases hibt
  | stub S j t bs hj hbs =>
    cases S with
    | fakeplt =>
      rw [lazyAt_of_no_push (writeFakePlt_no_push hbs)] at h
      cases h
    | plt =>
      rw [StubSection.stub, htarget] at hbs
      rw [stubVA_plt htarget] at h hbs
      refine ⟨j, t, hj, ?_⟩
      cases hname : cfg.callb_get.lookup (c.syms t).name with
      | none =>
        rw [disassemble_writePlt_plain cfg c hname hbs] at h
        obtain ⟨hv, hr⟩ := lazyAt_plain h
        refine .inl ⟨rfl, ?_, by rw [hr]⟩
        rw [hv]
        exact add_add_ofNat _ _ 6
      | some arg_pos =>
        obtain ⟨reg, d, e, f, hcode⟩ := disassemble_writePlt_masked cfg c hname hbs
        rw [hcode] at h
        refine .inr ?_
        rw [lazyAt_masked h]
        exact (congrArg (· + 6#64) (add_add_ofNat _ _ 7)).trans (add_add_ofNat _ _ 6)

theorem writeGotPlt_x86 : cfg.target.writeGotPlt cfg c s = X86_64.writeGotPlt cfg c s := by
  rw [htarget]
  rfl

-- A slot that is lazy points into `.plt`, 6 or 13 bytes into an entry.
theorem LazySlot.offset_x86 (h : LazySlot cfg c s i) :
    ∃ j < c.plt.length, ∃ k, (k = 6 ∨ k = 13) ∧
      X86_64.writeGotPlt cfg c s = cfg.va .plt + BitVec.ofNat 64 (16 + 32 * j + k) := by
  obtain ⟨va, bs, hentry, hlazy⟩ := h
  rw [writeGotPlt_x86 htarget] at hlazy
  obtain ⟨j, t, hj, hv⟩ := entry_x86 htarget hentry hlazy
  refine ⟨j, (List.getElem?_eq_some_iff.mp hj).1, ?_⟩
  rcases hv with ⟨-, hv, -⟩ | hv
  · exact ⟨6, .inl rfl, hv⟩
  · exact ⟨13, .inr rfl, hv⟩

theorem not_lazySlot_fake (h : HasSlot c s i) (hlimits : PltLimits cfg c)
    (hfake : (c.syms s).isFake = true) : ¬LazySlot cfg c s i := by
  intro hlazy
  obtain ⟨j', hlt', k, hk, hv⟩ := hlazy.offset_x86 htarget
  obtain ⟨j, hj, hva⟩ := h.getFakePltVA hlimits hfake
  have hplt := hlimits.plt
  have hfakeplt := hlimits.fakeplt
  rw [X86_64.writeGotPlt, hfake, if_pos rfl, if_pos rfl, hva] at hv
  split_ifs at hv
  · exact hlimits.disjoint (32 * j + 10) _ (by omega) (by omega)
      ((add_add_ofNat _ _ 10).symm.trans hv)
  · exact hlimits.disjoint (32 * j + 6) _ (by omega) (by omega)
      ((add_add_ofNat _ _ 6).symm.trans hv)

-- The slot of a getter points 10 bytes into its entry.
theorem not_lazySlot_getter (h : HasSlot c s i) (hlimits : PltLimits cfg c)
    (hfake : (c.syms s).isFake = false) (hsome : (cfg.callb_get.lookup (c.syms s).name).isSome) :
    ¬LazySlot cfg c s i := by
  intro hlazy
  obtain ⟨j', hlt', k, hk, hv⟩ := hlazy.offset_x86 htarget
  obtain ⟨j, hj, hva⟩ := h.getPltVA htarget hlimits hfake
  have hlt := (List.getElem?_eq_some_iff.mp hj).1
  have hplt := hlimits.plt
  rw [X86_64.writeGotPlt, if_pos hsome, hfake, if_neg Bool.false_ne_true, hva] at hv
  have hoffset := add_ofNat_inj (by omega) (by omega) ((add_add_ofNat _ _ 10).symm.trans hv)
  omega

-- The push and the jump of an entry of `.plt`.
theorem lazyAt_writePlt_plain {j : Nat} {bs : List Byte} (hj : 16 + 32 * j + 16 < 2 ^ 31)
    (hname : cfg.callb_get.lookup (c.syms s).name = none)
    (hbs : X86_64.writePlt cfg c s (StubSection.stubVA cfg .plt j) = some bs) :
    lazyAt (disassemble bs (StubSection.stubVA cfg .plt j)) (StubSection.stubVA cfg .plt j)
      (StubSection.stubVA cfg .plt j + 6#64) = some (relocIndex c s, cfg.va .plt) := by
  have hstart : StubSection.stubVA cfg .plt j ≠ StubSection.stubVA cfg .plt j + 6#64 := by
    intro heq
    have := congrArg BitVec.toNat heq
    bv_omega
  have hnext : StubSection.stubVA cfg .plt j + 6#64 + 5#64 + 5#64 =
      cfg.va .plt + BitVec.ofNat 64 (16 + 32 * j + 16) := by
    rw [stubVA_plt htarget, ← add_add_ofNat _ (16 + 32 * j) 16]
    bv_omega
  have hdisp : cfg.va .plt - StubSection.stubVA cfg .plt j - 16#64 =
      cfg.va .plt - (cfg.va .plt + BitVec.ofNat 64 (16 + 32 * j + 16)) := by
    rw [stubVA_plt htarget, ← add_add_ofNat _ (16 + 32 * j) 16]
    bv_omega
  rw [disassemble_writePlt_plain cfg c hname hbs, lazyAt, if_neg hstart, lazyAt, if_pos rfl,
    pushesAndJumps, hnext, hdisp, jump_back _ _ hj]

theorem lazySlot_plain (h : HasSlot c s i) (hlimits : PltLimits cfg c)
    (hfake : (c.syms s).isFake = false) (hname : cfg.callb_get.lookup (c.syms s).name = none) :
    LazySlot cfg c s i := by
  obtain ⟨j, hj, hva⟩ := h.getPltVA htarget hlimits hfake
  have hlt := (List.getElem?_eq_some_iff.mp hj).1
  have hplt := hlimits.plt
  have hvalue : X86_64.writeGotPlt cfg c s = StubSection.stubVA cfg .plt j + 6#64 := by
    rw [X86_64.writeGotPlt, hname, hfake, hva, stubVA_plt htarget]
    rfl
  obtain ⟨bs, hbs⟩ : ∃ bs, X86_64.writePlt cfg c s (StubSection.stubVA cfg .plt j) = some bs := by
    rw [X86_64.writePlt, hname]
    exact ⟨_, rfl⟩
  refine ⟨StubSection.stubVA cfg .plt j, bs, .stub .plt j s bs hj ?_, ?_⟩
  · rw [StubSection.stub, htarget]
    exact hbs
  · rw [writeGotPlt_x86 htarget, hvalue, lazyAt_writePlt_plain htarget (by omega) hname hbs, h.index,
      pltHeaderVA, htarget]

theorem lazySlot_x86_iff (h : HasSlot c s i) (hlimits : PltLimits cfg c) :
    LazySlot cfg c s i ↔
      (c.syms s).isFake = false ∧ cfg.callb_get.lookup (c.syms s).name = none := by
  constructor
  · intro hlazy
    have hfake : (c.syms s).isFake = false :=
      Bool.eq_false_iff.mpr fun hfake => not_lazySlot_fake htarget h hlimits hfake hlazy
    refine ⟨hfake, Option.not_isSome_iff_eq_none.mp fun hsome => ?_⟩
    exact not_lazySlot_getter htarget h hlimits hfake hsome hlazy
  · rintro ⟨hfake, hname⟩
    exact lazySlot_plain htarget h hlimits hfake hname

end Without

section With

variable {s : SymId} {i : Nat} (htarget : cfg.target = .IntelIBT)

include htarget

-- The only places that push and jump are the entries of `.plt` for the resolver.
theorem entry_ibt {va v : Word} {bs : List Byte} {r : BitVec 32 × Word} (hentry : Entry cfg c va bs)
    (h : lazyAt (disassemble bs va) va v = some r) :
    ∃ k < c.plt.length, (v = ibtEntryVA cfg k ∨ v = ibtEntryVA cfg k + 4#64) ∧
      r.1 = BitVec.ofNat 32 k := by
  cases hentry with
  | ibt k hibt hk =>
    rw [disassemble_ibtEntry] at h
    exact ⟨k, hk, lazyAt_ibt h⟩
  | stub S j t bs hj hbs =>
    exfalso
    have hnone : ∀ p ∈ disassemble bs (S.stubVA cfg j), ∀ imm, p.1 ≠ .push imm := by
      cases S with
      | fakeplt => exact writeFakePlt_no_push hbs
      | plt =>
        rw [StubSection.stub, htarget] at hbs
        exact ibt_writePlt_no_push hbs
    rw [lazyAt_of_no_push hnone] at h
    cases h

theorem ibtEntry_jumps (k : Nat) (hk : 30 + 16 * k < 2 ^ 31) :
    lazyAt (disassemble (ibtEntry k) (ibtEntryVA cfg k)) (ibtEntryVA cfg k) (ibtEntryVA cfg k) =
      some (BitVec.ofNat 32 k, pltHeaderVA cfg) := by
  rw [disassemble_ibtEntry, lazyAt, if_pos rfl, pushesAndJumps, pltHeaderVA, htarget]
  dsimp only
  congr 2
  have hnext : ibtEntryVA cfg k + 4#64 + 5#64 + 5#64 =
      cfg.va .ibtPlt + BitVec.ofNat 64 (30 + 16 * k) := by
    rw [ibtEntryVA, ← add_add_ofNat _ 30 (16 * k)]
    bv_omega
  have hdisp : -(BitVec.ofNat 64 Target.IntelIBT.pltHeaderSize) - 16#64 * BitVec.ofNat 64 k - 30#64 =
      cfg.va .ibtPlt - (cfg.va .ibtPlt + BitVec.ofNat 64 (30 + 16 * k)) := by
    have hmul : 16#64 * BitVec.ofNat 64 k = BitVec.ofNat 64 (16 * k) := (BitVec.ofNat_mul 16 k).symm
    have hzero : BitVec.ofNat 64 Target.IntelIBT.pltHeaderSize = 0#64 := rfl
    rw [hmul, hzero, ← add_add_ofNat _ 30 (16 * k)]
    bv_omega
  rw [hnext, hdisp]
  exact jump_back _ _ hk

theorem lazySlot_ibt_iff (hi : i < c.gotPlt.length) (hlimits : PltLimits cfg c)
    (hname : (c.syms s).startsWith "placeholder" = false) :
    LazySlot cfg c s i ↔
      (c.getPltIdx s * pltEntrySize).toNat = 16 * i ∧ i < c.plt.length := by
  have hplt := hlimits.plt
  have hgot := hlimits.gotPlt
  have hlt := (c.getPltIdx s * pltEntrySize).isLt
  have hvalue : cfg.target.writeGotPlt cfg c s =
      cfg.va .ibtPlt + 16#64 + BitVec.ofNat 64 (c.getPltIdx s * pltEntrySize).toNat := by
    rw [htarget, Target.writeGotPlt, IntelIBT.writeGotPlt, hname, if_neg Bool.false_ne_true,
      BitVec.ofNat_toNat]
  unfold LazySlot
  rw [hvalue]
  constructor
  · rintro ⟨va, bs, hentry, hlazy⟩
    obtain ⟨k, hk, hv, hpushed⟩ := entry_ibt htarget hentry hlazy
    have hki : k = i := by
      have hnat := congrArg BitVec.toNat hpushed
      simp only [BitVec.toNat_ofNat] at hnat
      omega
    subst hki
    refine ⟨?_, hk⟩
    rcases hv with hv | hv
    · exact add_ofNat_inj (by omega) (by omega) hv
    · -- The offset is a multiple of 32, the `push` is not at one.
      have hoff := add_ofNat_inj (by omega) (by omega) (hv.trans (add_add_ofNat _ _ 4))
      rw [BitVec.toNat_mul, pltEntrySize, BitVec.toNat_ofNat] at hoff
      omega
  · rintro ⟨hoff, hk⟩
    refine ⟨ibtEntryVA cfg i, ibtEntry i, .ibt i htarget hk, ?_⟩
    rw [hoff]
    exact ibtEntry_jumps htarget i (by omega)

end With

-- The slot of a symbol leads to its own entry of the resolver exactly if, without IBT, it has
-- no fake stub and is no callback getter, and, with IBT, the index of its entry, of which 32
-- bytes are counted for 16, comes out right.
theorem gotPlt_lazySlot_iff (cfg : Config) (c : Ctx) (syms : List Nat) (h : Link c syms)
    (hlimits : PltLimits cfg (postScanRelocations cfg c syms)) (i : Nat) (s : SymId)
    (hs : (postScanRelocations cfg c syms).gotPlt[i]? = some s)
    (hname : ((postScanRelocations cfg c syms).syms s).startsWith "placeholder" = false) :
    (∃ r, (computeRels (postScanRelocations cfg c syms).relaPlt)[i]? = some r ∧
        r.type = .R_X86_64_JUMP_SLOT ∧ r.sym = some s) ∧
      (LazySlot cfg (postScanRelocations cfg c syms) s i ↔
        slotRight cfg (postScanRelocations cfg c syms) s i = true) := by
  have hinv := h.slotInv cfg
  have hslot := hinv.slots i s hs
  obtain ⟨r, hr, htype, -, -, hsym⟩ := (hinv.slotsAgree cfg).reloc i s hs
  refine ⟨⟨r, hr, htype, hsym⟩, ?_⟩
  cases htarget : cfg.target with
  | X86_64 =>
    rw [lazySlot_x86_iff htarget hslot hlimits, slotRight, htarget]
    simp
  | IntelIBT =>
    rw [lazySlot_ibt_iff htarget (List.getElem?_eq_some_iff.mp hs).1 hlimits hname, slotRight,
      htarget]
    simp

theorem demoConfig_limits (target : Target) (c : Ctx) (hplt : c.plt.length ≤ 3)
    (hfake : c.fakeplt.length ≤ 2) (hgot : c.gotPlt.length ≤ 3) : PltLimits (demoConfig target) c where
  plt := by omega
  fakeplt := by omega
  gotPlt := by omega
  disjoint a b ha hb heq := by
    have hnat : (0x2000#64 + BitVec.ofNat 64 a).toNat = (0x1000#64 + BitVec.ofNat 64 b).toNat :=
      congrArg BitVec.toNat heq
    simp only [BitVec.toNat_add, BitVec.toNat_ofNat] at hnat
    omega

-- Three functions that are only called.
def callsLink : Ctx where
  syms
    | .sym n =>
      { name := ["puts".toList, "exit".toList, "free".toList].getD n []
        flags := { NEEDS_PLT := true } }
    | .direct _ => { name := [] }

theorem callsLink_link : Link callsLink [0, 1, 2] where
  fresh := ⟨rfl, rfl, rfl, rfl, rfl, by
    intro s
    rcases s with n | n <;> rfl⟩
  nodup := by decide
  odd := by decide

-- With IBT the slot of the second function leads to the entry that pushes the index of the third.
theorem gotPlt_not_lazySlot :
    Link callsLink [0, 1, 2] ∧
      (postScanRelocations (demoConfig .IntelIBT) callsLink [0, 1, 2]).gotPlt[1]? = some (.sym 1) ∧
      (∃ va bs, Entry (demoConfig .IntelIBT)
          (postScanRelocations (demoConfig .IntelIBT) callsLink [0, 1, 2]) va bs ∧
        lazyAt (disassemble bs va) va (IntelIBT.writeGotPlt (demoConfig .IntelIBT)
          (postScanRelocations (demoConfig .IntelIBT) callsLink [0, 1, 2]) (.sym 1)) =
            some (2#32, pltHeaderVA (demoConfig .IntelIBT))) ∧
      ¬ LazySlot (demoConfig .IntelIBT)
        (postScanRelocations (demoConfig .IntelIBT) callsLink [0, 1, 2]) (.sym 1) 1 := by
  refine ⟨callsLink_link, by decide,
    ⟨ibtEntryVA (demoConfig .IntelIBT) 2, ibtEntry 2, .ibt 2 rfl (by decide), by decide⟩, ?_⟩
  rw [lazySlot_ibt_iff rfl (by decide)
    (demoConfig_limits _ _ (by decide) (by decide) (by decide)) (by decide)]
  decide

-- Without IBT the slot of the function that is only called is right.
theorem lazySlot_demoLink :
    LazySlot (demoConfig .X86_64) (postScanRelocations (demoConfig .X86_64) demoLink [0, 1, 2])
      (.sym 2) 2 :=
  (gotPlt_lazySlot_iff (demoConfig .X86_64) demoLink [0, 1, 2] demoLink_link
    (demoConfig_limits _ _ (by decide) (by decide) (by decide)) 2 (.sym 2)
    (by decide) (by decide)).2.mpr (by decide)

end Platypus.Linker
