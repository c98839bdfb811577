import Platypus.Header.SlotValue
import Platypus.Linker.AddressTaken
import Platypus.Linker.CallTarget
import Platypus.Linker.GotStep

namespace Platypus.Linker

open Loader (Found LinkMap RelaState elfMachineRela)
open Header (toRela)

theorem customrelocType_of_fixed {sym sym' : Symbol} (h : sym'.fixed = sym.fixed) :
    sym'.customrelocType = sym.customrelocType :=
  congrArg (fun p => p.iscustomreloc &&& 0xff#32) h

theorem isFake_of_fixed {sym sym' : Symbol} (h : sym'.fixed = sym.fixed) :
    sym'.isFake = sym.isFake := by
  rw [Symbol.isFake, Symbol.isFake, customrelocType_of_fixed h]

section FakePlt

variable (cfg : Config) (c : Ctx) (s : SymId)

theorem fakeplt_addPltEntry : (addPltEntry c s).fakeplt = c.fakeplt := by
  unfold addPltEntry PltSection.addEntry PltSection.noteDuplicate
  dsimp only
  split_ifs <;> rfl

theorem fakeplt_addPltEntries (tmp : Bool) (flags : Flags) :
    (addPltEntries tmp flags c s).fakeplt =
      c.fakeplt ++ if (c.syms s).isFake then [s] else [] := by
  have hfake : (if (c.syms s).isFake then addFakePltEntry c s else c).fakeplt =
      c.fakeplt ++ if (c.syms s).isFake then [s] else [] := by
    split
    · rfl
    · rw [List.append_nil]
  unfold addPltEntries
  dsimp only
  generalize (if (c.syms s).isFake then addFakePltEntry c s else c) = c₁ at hfake ⊢
  split
  · rw [fakeplt_addPltEntry, hfake]
  · exact hfake

theorem fakeplt_addEntries (tmp : Bool) (flags : Flags) :
    (addEntries cfg tmp flags c s).fakeplt = c.fakeplt ++ if (c.syms s).isFake then [s] else [] := by
  have hsyms : ((c.allocateAux s).syms s).isFake = (c.syms s).isFake := by
    rw [Symbol.isFake, Symbol.isFake, Symbol.customrelocType, Symbol.customrelocType]
    simp only [Ctx.allocateAux, Ctx.update, if_true]
  have hgot : ∀ b : Bool,
      (if b then addGotEntry cfg (c.allocateAux s) s else c.allocateAux s).fakeplt = c.fakeplt ∧
      (if b then addGotEntry cfg (c.allocateAux s) s else c.allocateAux s).syms =
        (c.allocateAux s).syms := by
    intro b
    cases b with
    | false => exact ⟨rfl, rfl⟩
    | true => exact ⟨congrArg PltView.fakeplt (view_addGotEntry cfg _ s), syms_addGotEntry cfg _ s⟩
  obtain ⟨hfakeplt, hsame⟩ := hgot flags.NEEDS_GOT
  unfold addEntries
  dsimp only
  generalize (if flags.NEEDS_GOT then addGotEntry cfg (c.allocateAux s) s else c.allocateAux s) = c₁
    at hfakeplt hsame ⊢
  have hentries := fakeplt_addPltEntries c₁ s tmp flags
  rw [hsame, hsyms, hfakeplt] at hentries
  rw [← hentries]
  have hcopy := view_ite flags.NEEDS_COPY _ _ (view_addCopy cfg (addPltEntries tmp flags c₁ s) s)
  exact congrArg PltView.fakeplt ((view_ite _ _ _ (view_addTls cfg flags _ s)).trans hcopy)

-- A symbol of an odd custom type gets an entry, whatever its flags are.
theorem getsEntries_of_fake (n : Nat) (h : (c.syms (.sym n)).isFake = true) :
    ((setNeedsPlt c (.sym n)).syms (.sym n)).needsDynReloc = true ∨
      ¬((setNeedsPlt c (.sym n)).syms (.sym n)).customrelocType < 2#32 := by
  by_cases hone : (c.syms (.sym n)).customrelocType = 1#32
  · left
    simp [Symbol.needsDynReloc, setNeedsPlt_flag c (.sym n) (.inl hone)]
  · right
    rw [customrelocType_of_fixed ((setNeedsPlt_quiet c (.sym n)).fixed n)]
    rw [Symbol.isFake] at h
    generalize (c.syms (.sym n)).customrelocType = type at h hone
    intro hlt
    have hzero : type = 0#32 := by bv_omega
    rw [hzero] at h
    revert h
    decide

theorem fakeplt_postScanSymbol (n : Nat) :
    (postScanSymbol cfg c (.sym n)).fakeplt = c.fakeplt ++
      if (c.syms (.sym n)).isFake && !isOwnIfunc cfg (c.syms (.sym n)) then [.sym n] else [] := by
  have hturn := postScanSymbol_turn cfg c (.sym n)
  have hneeds : (setNeedsPlt c (.sym n)).fakeplt = c.fakeplt := by
    unfold setNeedsPlt
    split <;> rfl
  have hfake := isFake_of_fixed ((setNeedsPlt_quiet c (.sym n)).fixed n)
  generalize postScanSymbol cfg c (.sym n) = c' at hturn ⊢
  cases hturn with
  | unused hown =>
    rw [hown, Bool.not_true, Bool.and_false]
    exact (List.append_nil _).symm
  | ifunc hown =>
    rw [hown, Bool.not_true, Bool.and_false, (addIfunc_step cfg c (.sym n) (SymId.copy_ne n)).fakeplt]
  | skipped hown hdyn hcustom =>
    rw [hown, Bool.not_false, Bool.and_true, hneeds]
    split_ifs with hodd
    · exact (getsEntries_of_fake c n hodd).elim (by simp [hdyn]) (absurd hcustom)
    · exact (List.append_nil _).symm
  | entries hown =>
    rw [hown, Bool.not_false, Bool.and_true, fakeplt_addEntries, hfake, hneeds]

end FakePlt

-- The relocations that write the address of a symbol, between two states of the second pass: all
-- new ones are of one type.
def NewWords (s : SymId) (type : RelType) (got : Bool) (c c' : Ctx) : Prop :=
  ∃ new, c'.relaDyn = c.relaDyn ++ new ∧
    (∀ r ∈ new, r.sym = some s → r.type ∈ wordTypes → r.type = type) ∧
    ((∃ r ∈ new, r.sym = some s ∧ r.type ∈ wordTypes) ↔ got = true)

namespace NewWords

variable {s : SymId} {type : RelType} {got got' : Bool} {c c' c'' : Ctx}

theorem trans (h : NewWords s type got c c') (h' : NewWords s type got' c' c'') :
    NewWords s type (got || got') c c'' := by
  obtain ⟨new, heq, htype, hnew⟩ := h
  obtain ⟨new', heq', htype', hnew'⟩ := h'
  refine ⟨new ++ new', by rw [heq', heq, List.append_assoc], fun r hr => ?_, ?_⟩
  · exact (List.mem_append.mp hr).elim (htype r) (htype' r)
  · rw [Bool.or_eq_true, ← hnew, ← hnew']
    simp only [List.mem_append, or_and_right, exists_or]

theorem of_none {new : List DynamicReloc} (heq : c'.relaDyn = c.relaDyn ++ new)
    (h : ∀ r ∈ new, r.sym = some s → r.type ∉ wordTypes) : NewWords s type false c c' := by
  refine ⟨new, heq, fun r hr hs htype => absurd htype (h r hr hs), iff_of_false ?_ Bool.false_ne_true⟩
  rintro ⟨r, hr, hs, htype⟩
  exact h r hr hs htype

theorem refl (c : Ctx) : NewWords s type false c c :=
  .of_none (List.append_nil _).symm (by simp)

theorem of_quiet (h : Quiet c c') : NewWords s type false c c' := by
  obtain ⟨new, heq, hservice⟩ := h.relaDyn
  refine .of_none heq fun r hr _ hword => ?_
  have hdisjoint : ∀ type ∈ wordTypes, type ∉ serviceTypes := by decide
  exact hdisjoint _ hword (hservice r hr)

end NewWords

theorem addGotEntry_relaDyn (cfg : Config) (c : Ctx) (s : SymId) :
    ∃ new, (addGotEntry cfg c s).relaDyn = c.relaDyn ++ new ∧ ∀ r ∈ new, r.sym = some s := by
  have hplain : ∀ c off, ∃ new, (plainGotReloc cfg c s off).relaDyn = c.relaDyn ++ new ∧
      ∀ r ∈ new, r.sym = some s := by
    intro c off
    unfold plainGotReloc addRelativeReloc
    dsimp only
    split_ifs <;> first
      | exact ⟨[_], rfl, by simp [gotReloc]⟩
      | exact ⟨[], (List.append_nil _).symm, by simp⟩
  have hentry : (GotSection.addEntry c).relaDyn = c.relaDyn := rfl
  unfold addGotEntry
  dsimp only
  rw [← hentry]
  generalize GotSection.addEntry c = c₁
  split
  · split
    · rename_i c' hcustom
      unfold customGotReloc noteOrMask noteAndMask at hcustom
      dsimp only at hcustom
      split_ifs at hcustom <;> obtain rfl := Option.some_inj.mp hcustom <;>
        exact ⟨[_], rfl, by simp [gotReloc]⟩
    · exact hplain _ _
  · exact hplain _ _

-- The word in `.got` of a function is relative if the function is fake.
def gotType (sym : Symbol) : RelType :=
  if sym.isFake then .R_X86_64_RELATIVE else .R_X86_64_GLOB_DAT

theorem addGotEntry_own (cfg : Config) (c : Ctx) (s : SymId)
    (hcustom : ¬1#32 < (c.syms s).customrelocType) (hpreempt : (c.syms s).isPreemptible = true) :
    NewWords s (gotType (c.syms s)) true c (addGotEntry cfg c s) := by
  have hword : gotType (c.syms s) ∈ wordTypes := by
    unfold gotType
    split <;> decide
  refine ⟨[gotReloc (gotType (c.syms s)) ((GotSection.addEntry c).getGotOffset s) s], ?_, ?_, ?_⟩
  · unfold addGotEntry gotType
    dsimp only
    rw [show (GotSection.addEntry c).syms = c.syms from rfl, if_neg hcustom, plainGotReloc,
      show (GotSection.addEntry c).syms = c.syms from rfl, if_pos hpreempt]
    split <;> rfl
  · simp [gotReloc]
  · simpa [gotReloc] using hword

-- What the rounds for other symbols do to a symbol.
structure OtherRounds (n : Nat) (c c' : Ctx) : Prop where
  fixed : ∀ m, (c'.syms (.sym m)).fixed = (c.syms (.sym m)).fixed
  words : ∀ type, NewWords (.sym n) type false c c'
  fakeplt : ∃ new, c'.fakeplt = c.fakeplt ++ new ∧ ∀ t ∈ new, ∃ m, m ≠ n ∧ t = .sym m

namespace OtherRounds

variable {cfg : Config} {n : Nat} {c c' c'' : Ctx}

theorem refl (c : Ctx) : OtherRounds n c c where
  fixed _ := rfl
  words _ := .refl c
  fakeplt := ⟨[], (List.append_nil _).symm, by simp⟩

theorem trans (h : OtherRounds n c c') (h' : OtherRounds n c' c'') : OtherRounds n c c'' where
  fixed m := (h'.fixed m).trans (h.fixed m)
  words type := (h.words type).trans (h'.words type)
  fakeplt := by
    obtain ⟨new, heq, hnew⟩ := h.fakeplt
    obtain ⟨new', heq', hnew'⟩ := h'.fakeplt
    refine ⟨new ++ new', by rw [heq', heq, List.append_assoc], fun t ht => ?_⟩
    exact (List.mem_append.mp ht).elim (hnew t) (hnew' t)

theorem round (cfg : Config) (c : Ctx) {m : Nat} (h : m ≠ n) :
    OtherRounds n c (postScanSymbol cfg c (.sym m)) where
  fixed := (postScanSymbol_round cfg c m).fixed
  words type := by
    have hround := postScanSymbol_round cfg c m
    cases hgot : getsGot cfg (c.syms (.sym m)) with
    | false =>
      rw [hgot] at hround
      exact .of_quiet hround
    | true =>
      rw [hgot] at hround
      obtain ⟨c₁, hbefore, hafter⟩ := hround
      obtain ⟨new, heq, hnew⟩ := addGotEntry_relaDyn cfg c₁ (.sym m)
      have hentry : NewWords (.sym n) type false c₁ (addGotEntry cfg c₁ (.sym m)) := by
        refine .of_none heq fun r hr hs => absurd ((hnew r hr).symm.trans hs) ?_
        simpa using h
      exact ((NewWords.of_quiet hbefore).trans hentry).trans (.of_quiet hafter)
  fakeplt := by
    refine ⟨_, fakeplt_postScanSymbol cfg c m, fun t ht => ?_⟩
    split at ht
    · exact ⟨m, h, List.mem_singleton.mp ht⟩
    · exact absurd ht List.not_mem_nil

theorem rounds (cfg : Config) (syms : List Nat) (h : n ∉ syms) (c : Ctx) :
    OtherRounds n c ((syms.map .sym).foldl (postScanSymbol cfg) c) := by
  induction syms generalizing c with
  | nil => exact .refl c
  | cons m syms ih =>
    have hm : m ≠ n := fun heq => h (heq ▸ List.mem_cons_self)
    exact (round cfg c hm).trans (ih (fun hmem => h (List.mem_cons_of_mem m hmem)) _)

end OtherRounds

-- The round of a preemptible symbol itself.
theorem postScanSymbol_own (cfg : Config) (c : Ctx) (n : Nat)
    (hcustom : ¬1#32 < (c.syms (.sym n)).customrelocType)
    (hpreempt : (c.syms (.sym n)).isPreemptible = true) :
    NewWords (.sym n) (gotType (c.syms (.sym n))) (c.syms (.sym n)).flags.NEEDS_GOT c
        (postScanSymbol cfg c (.sym n)) ∧
      (postScanSymbol cfg c (.sym n)).fakeplt =
        c.fakeplt ++ if (c.syms (.sym n)).isFake then [.sym n] else [] := by
  have hown : isOwnIfunc cfg (c.syms (.sym n)) = false := by simp [isOwnIfunc, hpreempt]
  have hgets : getsGot cfg (c.syms (.sym n)) = (c.syms (.sym n)).flags.NEEDS_GOT := by
    simp [getsGot, hown]
  refine ⟨?_, by simpa [hown] using fakeplt_postScanSymbol cfg c n⟩
  have hround := postScanSymbol_round cfg c n
  rw [hgets] at hround
  cases hgot : (c.syms (.sym n)).flags.NEEDS_GOT with
  | false =>
    rw [hgot] at hround
    exact .of_quiet hround
  | true =>
    rw [hgot] at hround
    obtain ⟨c₁, hbefore, hafter⟩ := hround
    have hfixed := hbefore.fixed n
    have hentry := addGotEntry_own cfg c₁ (.sym n)
      (by rw [customrelocType_of_fixed hfixed]; exact hcustom)
      ((congrArg FixedPart.isPreemptible hfixed).trans hpreempt)
    rw [gotType, isFake_of_fixed hfixed, ← gotType] at hentry
    exact ((NewWords.of_quiet hbefore).trans hentry).trans (.of_quiet hafter)

-- A preemptible function before the link.
structure FunctionStart (st : ScanState) (s : SymId) : Prop where
  plain : PlainFunction (st.sym s)
  iscustomreloc : (st.sym s).iscustomreloc = 0#32
  NEEDS_GOT : (st.sym s).flags.NEEDS_GOT = false
  relaDyn : ∀ r ∈ st.ctx.relaDyn, r.sym ≠ some s
  relocs : ∀ r ∈ st.relocs, r.sym ≠ s
  fakeplt : st.ctx.fakeplt = []

theorem fakeplt_scanRelocations (cfg : ScanConfig) (st : ScanState)
    (secs : List (InputSec × List Rel)) :
    (scanRelocations cfg st secs).ctx.fakeplt = st.ctx.fakeplt := by
  refine scanRelocations_induction (P := fun st' => st'.ctx.fakeplt = st.ctx.fakeplt) rfl ?_
  intro st' sec rels rel _ h
  rw [(scanOne_touches cfg sec st' rel).rest]
  exact h

-- The entries of `.fakeplt` before, at and after the round of a preemptible symbol, and the words
-- with its address.
structure LinkedAt (sc : ScanState) (n : Nat) (before c : Ctx) : Prop where
  fixed : (c.syms (.sym n)).fixed = (sc.sym (.sym n)).fixed
  names : ∀ m, (c.syms (.sym m)).name = (before.syms (.sym m)).name
  entries : ∀ t ∈ before.fakeplt, ∃ m, m ≠ n ∧ t = .sym m
  fakeplt : ∃ after, (∀ t ∈ after, ∃ m, m ≠ n ∧ t = .sym m) ∧
    c.fakeplt =
      before.fakeplt ++ (if (sc.sym (.sym n)).isFake then [.sym n] else []) ++ after
  words : NewWords (.sym n) (gotType (sc.sym (.sym n))) (sc.sym (.sym n)).flags.NEEDS_GOT sc.ctx c

theorem link_at (cfg : ScanConfig) (st : ScanState) (secs : List (InputSec × List Rel))
    (pre : List Nat) (n : Nat) (post : List Nat) (hpre : n ∉ pre) (hpost : n ∉ post)
    (hfakeplt : st.ctx.fakeplt = [])
    (hcustom : ¬1#32 < ((scanRelocations cfg st secs).sym (.sym n)).customrelocType)
    (hpreempt : ((scanRelocations cfg st secs).sym (.sym n)).isPreemptible = true) :
    LinkedAt (scanRelocations cfg st secs) n (link cfg st secs pre)
      (link cfg st secs (pre ++ n :: post)) := by
  have hscan := fakeplt_scanRelocations cfg st secs
  unfold link postScanRelocations
  dsimp only
  generalize scanRelocations cfg st secs = sc at hcustom hpreempt hscan ⊢
  have hquiet := addTlsLd_quiet (linkConfig cfg sc) sc.ctx
  have hempty : (addTlsLd (linkConfig cfg sc) sc.ctx).fakeplt = [] := by
    rw [← hfakeplt, ← hscan]
    unfold addTlsLd
    dsimp only
    split_ifs <;> rfl
  rw [List.map_append, List.foldl_append, List.map_cons, List.foldl_cons]
  generalize addTlsLd (linkConfig cfg sc) sc.ctx = c₀ at hquiet hempty ⊢
  have hbefore := OtherRounds.rounds (linkConfig cfg sc) pre hpre c₀
  generalize (pre.map SymId.sym).foldl (postScanSymbol (linkConfig cfg sc)) c₀ = c₁ at hbefore ⊢
  have hfixed : (c₁.syms (.sym n)).fixed = (sc.sym (.sym n)).fixed :=
    (hbefore.fixed n).trans (hquiet.fixed n)
  obtain ⟨hwords, hentry⟩ := postScanSymbol_own (linkConfig cfg sc) c₁ n
    (by rw [customrelocType_of_fixed hfixed]; exact hcustom)
    ((congrArg FixedPart.isPreemptible hfixed).trans hpreempt)
  have hround := (postScanSymbol_round (linkConfig cfg sc) c₁ n).fixed
  generalize postScanSymbol (linkConfig cfg sc) c₁ (.sym n) = c₂ at hwords hentry hround ⊢
  have hafter := OtherRounds.rounds (linkConfig cfg sc) post hpost c₂
  generalize (post.map SymId.sym).foldl (postScanSymbol (linkConfig cfg sc)) c₂ = c₃ at hafter ⊢
  rw [gotType, isFake_of_fixed hfixed, ← gotType,
    show (c₁.syms (.sym n)).flags.NEEDS_GOT = (sc.sym (.sym n)).flags.NEEDS_GOT from
      congrArg FixedPart.NEEDS_GOT hfixed] at hwords
  constructor
  · rw [hafter.fixed, hround, hfixed]
  · intro m
    exact congrArg FixedPart.name ((hafter.fixed m).trans (hround m))
  · obtain ⟨new, heq, hnew⟩ := hbefore.fakeplt
    rwa [heq, hempty, List.nil_append]
  · obtain ⟨after, heq, hnew⟩ := hafter.fakeplt
    rw [heq, hentry, isFake_of_fixed hfixed]
    exact ⟨after, hnew, rfl⟩
  · have hall := (((NewWords.of_quiet hquiet).trans (hbefore.words _)).trans hwords).trans
      (hafter.words _)
    simpa only [Bool.or_false, Bool.false_or] using hall

-- What the loader finds for a relocation: symbol index 0 is the module itself.
def lookup (map : LinkMap) (found : Option Found) (raw : RawReloc) : Option Found :=
  match raw.r_sym with
  | none => some ⟨map, map.l_addr, false⟩
  | some _ => found

-- Wherever the modules are loaded and whatever is found for the symbol, the word is the address of
-- the symbol's own stub.
def AtStub (cfg : Config) (c : Ctx) (s : SymId) (r : DynamicReloc) : Prop :=
  ∃ j raw, c.fakeplt[j]? = some s ∧ computeRaw cfg c r = some raw ∧
    ∀ to_mitigate call skip_ifunc map found st, ∃ st',
      elfMachineRela to_mitigate call skip_ifunc map (lookup map found raw) (toRela c raw) st =
        some st' ∧
      st'.mem (map.l_addr + raw.r_offset) = map.l_addr + StubSection.stubVA cfg .fakeplt j

-- The same of a word that the linker writes.
def WrittenAtStub (cfg : Config) (c : Ctx) (r : Relocation) : Prop :=
  ∃ j, c.fakeplt[j]? = some r.sym ∧
    ∀ l_addr : Word, c.getVA cfg r.sym r.addend = l_addr + StubSection.stubVA cfg .fakeplt j

structure StubPointers (cfg : Config) (c : Ctx) (relocs : List Relocation) (s : SymId) : Prop where
  loaded : ∀ r ∈ c.relaDyn, r.sym = some s → r.type ∈ wordTypes → AtStub cfg c s r
  written : ∀ r ∈ relocs, r.sym = s → r.expr = .R_ABS → WrittenAtStub cfg c r

-- No fixed word is right for two load addresses.
theorem not_writtenAtStub (cfg : Config) (c : Ctx) (r : Relocation) : ¬WrittenAtStub cfg c r := by
  rintro ⟨j, -, h⟩
  have heq := (h 0#64).symm.trans (h 1#64)
  rw [BitVec.add_left_inj] at heq
  exact absurd heq (by decide)

theorem elfMachineRela_fake {c : Ctx} {raw : RawReloc} (hsym : raw.r_sym = none)
    (htype : raw.type ∈ wordTypes) (hne : raw.type ≠ .R_X86_64_GLOB_DAT)
    (to_mitigate : Bool) (call : Loader.Resolver) (skip_ifunc : Bool) (map : LinkMap)
    (found : Option Found) (st : RelaState) :
    elfMachineRela to_mitigate call skip_ifunc map (lookup map found raw) (toRela c raw) st =
      some (st.write (map.l_addr + raw.r_offset) (map.l_addr + BitVec.ofInt 64 raw.addend)) := by
  obtain ⟨off, type, sym, addend⟩ := raw
  subst hsym
  simp only [wordTypes, List.mem_cons, List.not_mem_nil, or_false] at htype
  rcases htype with rfl | rfl | rfl | rfl
  · rfl
  · exact absurd rfl hne
  · rfl
  · simp [elfMachineRela, lookup, toRela, BitVec.add_comm]

theorem computeRaw_fake (cfg : Config) (c : Ctx) {s : SymId} {r : DynamicReloc}
    (hsym : r.sym = some s) (hfake : (c.syms s).isFake = true) :
    computeRaw cfg c r = (findFakePlt c (c.syms s).name).map fun i =>
      ⟨cfg.va r.inputSec + r.offsetInSec, r.type, none, (StubSection.stubVA cfg .fakeplt i).toInt⟩ := by
  simp only [computeRaw, hsym, hfake, if_true, StubSection.stubVA, StubSection.sec,
    StubSection.offset, StubSection.headerSize, Nat.zero_add, Nat.mul_comm 32]

-- The word of a fake symbol is right if the search by name finds the symbol itself.
theorem atStub_iff (cfg : Config) (c : Ctx) {s : SymId} {r : DynamicReloc} (hsym : r.sym = some s)
    (hfake : (c.syms s).isFake = true) (htype : r.type ∈ wordTypes)
    (hne : r.type ≠ .R_X86_64_GLOB_DAT) :
    AtStub cfg c s r ↔ ∃ i j, findFakePlt c (c.syms s).name = some i ∧ c.fakeplt[j]? = some s ∧
      StubSection.stubVA cfg .fakeplt i = StubSection.stubVA cfg .fakeplt j := by
  have hraw := computeRaw_fake cfg c hsym hfake
  constructor
  · rintro ⟨j, raw, hj, hcompute, hload⟩
    rw [hraw] at hcompute
    obtain ⟨i, hi, rfl⟩ := Option.map_eq_some_iff.mp hcompute
    refine ⟨i, j, hi, hj, ?_⟩
    obtain ⟨st', hst', hmem⟩ := hload true id true {} none ⟨fun _ => 0#64, []⟩
    rw [elfMachineRela_fake rfl htype hne, Option.some_inj] at hst'
    rw [← hst', RelaState.mem_write_self, BitVec.ofInt_toInt, BitVec.add_right_inj] at hmem
    exact hmem
  · rintro ⟨i, j, hi, hj, heq⟩
    rw [hi, Option.map_some] at hraw
    refine ⟨j, _, hj, hraw, fun to_mitigate call skip_ifunc map found st => ?_⟩
    refine ⟨_, elfMachineRela_fake rfl htype hne _ _ _ _ _ _, ?_⟩
    rw [RelaState.mem_write_self, BitVec.ofInt_toInt, heq]

theorem findIdx?_append_cons {α : Type} (p : α → Bool) (before after : List α) {a : α}
    (ha : p a = true) :
    (before ++ a :: after).findIdx? p = some before.length ↔ ∀ t ∈ before, p t = false := by
  rw [List.findIdx?_append, List.findIdx?_cons, if_pos ha, Option.map_some, Nat.zero_add]
  cases hfind : before.findIdx? p with
  | none => simpa using List.findIdx?_eq_none_iff.mp hfind
  | some i =>
    obtain ⟨hlt, hp, -⟩ := List.findIdx?_eq_some_iff_getElem.mp hfind
    rw [Option.some_or, Option.some_inj]
    refine iff_of_false (Nat.ne_of_lt hlt) fun hall => ?_
    rw [hall _ (List.getElem_mem hlt)] at hp
    exact absurd hp Bool.false_ne_true

theorem eq_length_of_getElem? {α : Type} {before after : List α} {a : α} {j : Nat}
    (hbefore : a ∉ before) (hafter : a ∉ after) (h : (before ++ a :: after)[j]? = some a) :
    j = before.length := by
  rcases Nat.lt_trichotomy j before.length with hlt | heq | hgt
  · rw [List.getElem?_append_left hlt] at h
    exact absurd (List.mem_of_getElem? h) hbefore
  · exact heq
  · obtain ⟨k, rfl⟩ : ∃ k, j = before.length + (k + 1) := ⟨j - before.length - 1, by omega⟩
    rw [List.getElem?_append_right (by omega), Nat.add_sub_cancel_left, List.getElem?_cons_succ] at h
    exact absurd (List.mem_of_getElem? h) hafter

theorem stubVA_inj {cfg : Config} {i j m : Nat} (hi : i < m) (hj : j < m) (hm : 32 * m ≤ 2 ^ 64)
    (h : StubSection.stubVA cfg .fakeplt i = StubSection.stubVA cfg .fakeplt j) : i = j := by
  simp only [StubSection.stubVA, BitVec.add_right_inj, StubSection.offset, StubSection.headerSize,
    Nat.zero_add] at h
  have hmod := congrArg BitVec.toNat h
  rw [BitVec.toNat_ofNat, BitVec.toNat_ofNat, Nat.mod_eq_of_lt (by omega),
    Nat.mod_eq_of_lt (by omega)] at hmod
  omega

section LinkedAt

variable {sc : ScanState} {n : Nat} {before c : Ctx}

theorem LinkedAt.isFake_of_entry (h : LinkedAt sc n before c) {j : Nat}
    (hj : c.fakeplt[j]? = some (.sym n)) : (sc.sym (.sym n)).isFake = true := by
  obtain ⟨after, hafter, heq⟩ := h.fakeplt
  have hmem := List.mem_of_getElem? hj
  rw [heq, List.mem_append, List.mem_append] at hmem
  rcases hmem with (hmem | hmem) | hmem
  · obtain ⟨m, hne, hm⟩ := h.entries _ hmem
    exact absurd (SymId.sym.inj hm).symm hne
  · by_contra hfake
    simp [hfake] at hmem
  · obtain ⟨m, hne, hm⟩ := hafter _ hmem
    exact absurd (SymId.sym.inj hm).symm hne

theorem LinkedAt.findFakePlt_iff (h : LinkedAt sc n before c)
    (hfake : (sc.sym (.sym n)).isFake = true) :
    findFakePlt c (c.syms (.sym n)).name = some before.fakeplt.length ↔
      ∀ t ∈ before.fakeplt, (before.syms t).name ≠ (sc.sym (.sym n)).name := by
  obtain ⟨after, -, heq⟩ := h.fakeplt
  have hname : (c.syms (.sym n)).name = (sc.sym (.sym n)).name := congrArg FixedPart.name h.fixed
  rw [hfake, if_pos rfl, List.append_assoc, List.singleton_append] at heq
  rw [findFakePlt, heq, findIdx?_append_cons
    (fun s => decide ((c.syms s).name = (c.syms (.sym n)).name)) _ _ (decide_eq_true rfl)]
  refine forall₂_congr fun t ht => ?_
  obtain ⟨m, -, rfl⟩ := h.entries t ht
  rw [decide_eq_false_iff_not, h.names m, hname]

-- The word is right exactly if no symbol before has the name.
theorem LinkedAt.atStub_iff (h : LinkedAt sc n before c) (cfg : Config)
    (hfake : (sc.sym (.sym n)).isFake = true) (hsize : 32 * c.fakeplt.length ≤ 2 ^ 64)
    {r : DynamicReloc} (hsym : r.sym = some (.sym n)) (htype : r.type ∈ wordTypes)
    (hne : r.type ≠ .R_X86_64_GLOB_DAT) :
    AtStub cfg c (.sym n) r ↔
      ∀ t ∈ before.fakeplt, (before.syms t).name ≠ (sc.sym (.sym n)).name := by
  rw [Linker.atStub_iff cfg c hsym ((isFake_of_fixed h.fixed).trans hfake) htype hne,
    ← h.findFakePlt_iff hfake]
  obtain ⟨after, hafter, heq⟩ := h.fakeplt
  rw [hfake, if_pos rfl, List.append_assoc, List.singleton_append] at heq
  constructor
  · rintro ⟨i, j, hi, hj, hva⟩
    have hlt : i < c.fakeplt.length := (List.findIdx?_eq_some_iff_getElem.mp hi).1
    have hj' : j < c.fakeplt.length := (List.getElem?_eq_some_iff.mp hj).1
    obtain rfl := stubVA_inj hlt hj' hsize hva
    rw [hi, Option.some_inj]
    rw [heq] at hj
    refine eq_length_of_getElem? (fun hmem => ?_) (fun hmem => ?_) hj
    · obtain ⟨m, hm, heqm⟩ := h.entries _ hmem
      exact hm (SymId.sym.inj heqm).symm
    · obtain ⟨m, hm, heqm⟩ := hafter _ hmem
      exact hm (SymId.sym.inj heqm).symm
  · intro hfind
    refine ⟨_, _, hfind, ?_, rfl⟩
    rw [heq, List.getElem?_append_right (Nat.le_refl _), Nat.sub_self]
    rfl

end LinkedAt

theorem anyOf_iff {s : SymId} {kind : InputSec → Rel → Bool} {hs : List (InputSec × Rel)} :
    anyOf s kind hs = true ↔ ∃ h ∈ hs, h.2.sym = s ∧ kind h.1 h.2 = true := by
  simp [anyOf]

-- The relocations through which the loader comes to write the address of `s`.
def Taken (cfg : ScanConfig) (st : ScanState) (secs : List (InputSec × List Rel)) (s : SymId) : Prop :=
  ∃ h ∈ handledAll cfg st secs, h.2.sym = s ∧
    (inGot cfg (st.sym s) h.2 || inWord cfg h.1 (st.sym s) h.2) = true

-- What the stubs need: the linker itself writes no address of the function, some relocation is of
-- a type that marks it, and no symbol that comes first has its name.
structure KeepsStub (cfg : ScanConfig) (st : ScanState) (secs : List (InputSec × List Rel))
    (pre : List Nat) (s : SymId) : Prop where
  image : ∀ h ∈ handledAll cfg st secs, h.2.sym = s → inImage cfg h.1 (st.sym s) h.2 = false
  marked : Taken cfg st secs s →
    ∃ h ∈ handledAll cfg st secs, h.2.sym = s ∧ marks (st.sym s) h.2.type = true
  first : Taken cfg st secs s →
    ∀ t ∈ (link cfg st secs pre).fakeplt, ((link cfg st secs pre).syms t).name ≠ (st.sym s).name

section Main

variable {cfg : ScanConfig} {st : ScanState} {secs : List (InputSec × List Rel)} {s : SymId}

theorem taken_iff : Taken cfg st secs s ↔
    (anyOf s (fun _ => inGot cfg (st.sym s)) (handledAll cfg st secs) ||
      anyOf s (inWord cfg · (st.sym s)) (handledAll cfg st secs)) = true := by
  rw [Bool.or_eq_true, anyOf_iff, anyOf_iff]
  simp only [Taken, Bool.or_eq_true, and_or_left, exists_or]

-- After the link there is a word with the address exactly if a relocation takes it, and it is not
-- resolved by its name if the function is marked.
theorem FunctionStart.words {c : Ctx} (h : FunctionStart st s) {got word image : Bool} {sc : ScanState}
    (htakes : Takes s got word image st sc)
    (hwords : NewWords s (gotType (sc.sym s)) (sc.sym s).flags.NEEDS_GOT sc.ctx c) :
    ((∃ r ∈ c.relaDyn, r.sym = some s ∧ r.type ∈ wordTypes) ↔ (got || word) = true) ∧
      ∀ r ∈ c.relaDyn, r.sym = some s → r.type ∈ wordTypes → (sc.sym s).isFake = true →
        r.type ≠ .R_X86_64_GLOB_DAT := by
  obtain ⟨new, heq, hnew, htype⟩ := htakes.word
  obtain ⟨new', heq', htype', hnew'⟩ := hwords
  have hgot : (sc.sym s).flags.NEEDS_GOT = got := by rw [htakes.got, h.NEEDS_GOT, Bool.false_or]
  rw [hgot] at hnew'
  have hmem : ∀ r ∈ c.relaDyn, r.sym = some s → r ∈ new ∨ r ∈ new' := by
    intro r hr hs
    rw [heq', heq, List.mem_append, List.mem_append] at hr
    exact hr.imp_left fun hr => hr.resolve_left fun hr => h.relaDyn r hr hs
  constructor
  · rw [Bool.or_eq_true, or_comm, ← hnew, ← hnew']
    constructor
    · rintro ⟨r, hr, hs, hword⟩
      exact (hmem r hr hs).imp (fun hr => ⟨r, hr, hs, hword⟩) fun hr => ⟨r, hr, hs, hword⟩
    · rintro (⟨r, hr, hs⟩ | ⟨r, hr, hs⟩)
      · exact ⟨r, by rw [heq', heq]; simp [hr], hs⟩
      · exact ⟨r, by rw [heq']; simp [hr], hs⟩
  · intro r hr hs hword hfake
    rcases hmem r hr hs with hr | hr
    · exact htype r hr hs
    · rw [htype' r hr hs hword, gotType, if_pos hfake]
      decide

end Main

-- In a position-independent link, every word with the address of a preemptible function is the
-- address of its stub in `.fakeplt`.
theorem stubPointers_iff (cfg : ScanConfig) (hpic : cfg.isPic = true) (st : ScanState)
    (secs : List (InputSec × List Rel)) (pre : List Nat) (n : Nat) (post : List Nat)
    (hpre : n ∉ pre) (hpost : n ∉ post) (hstart : FunctionStart st (.sym n))
    (hsize : 32 * (link cfg st secs (pre ++ n :: post)).fakeplt.length ≤ 2 ^ 64) :
    StubPointers cfg.toConfig (link cfg st secs (pre ++ n :: post))
        (scanRelocations cfg st secs).relocs (.sym n) ↔
      KeepsStub cfg st secs pre (.sym n) := by
  obtain ⟨hmarked, htakes⟩ := scanRelocations_takes hpic st (.sym n) hstart.plain
    hstart.iscustomreloc secs
  have hcustom := hmarked.customrelocType hstart.iscustomreloc
  have hplain := hmarked.plainFunction hstart.plain
  have hname : ((scanRelocations cfg st secs).sym (.sym n)).name = (st.sym (.sym n)).name := by
    obtain ⟨flags, heq⟩ := hmarked
    rw [heq, Symbol.mark]
    split <;> rfl
  have hfake : ((scanRelocations cfg st secs).sym (.sym n)).isFake = true ↔
      ∃ h ∈ handledAll cfg st secs, h.2.sym = .sym n ∧ marks (st.sym (.sym n)) h.2.type = true := by
    have hany : anyOf (.sym n) (fun _ rel => marks (st.sym (.sym n)) rel.type)
        (handledAll cfg st secs) = true ↔ _ := anyOf_iff
    rw [← hany, Symbol.isFake, hcustom]
    split <;> simp_all
  have hat := link_at cfg st secs pre n post hpre hpost hstart.fakeplt
    (by rw [hcustom]; split <;> decide) hplain.isPreemptible
  obtain ⟨htaken, hglob⟩ := hstart.words htakes hat.words
  rw [← taken_iff] at htaken
  obtain ⟨new, hrelocs, himage⟩ := htakes.image
  have hfirst := fun hfake r hsym htype hne =>
    hname ▸ hat.atStub_iff cfg.toConfig hfake hsize (r := r) hsym htype hne
  constructor
  · intro h
    refine ⟨fun k hk hsym => ?_, fun hk => ?_, fun hk => ?_⟩
    · by_contra hin
      obtain ⟨r, hr, hrsym, habs⟩ := himage.mpr (anyOf_iff.mpr ⟨k, hk, hsym, by simpa using hin⟩)
      exact not_writtenAtStub _ _ r (h.written r (by rw [hrelocs]; simp [hr]) hrsym habs)
    · obtain ⟨r, hr, hsym, htype⟩ := htaken.mpr hk
      obtain ⟨j, raw, hj, -⟩ := h.loaded r hr hsym htype
      exact hfake.mp (hat.isFake_of_entry hj)
    · obtain ⟨r, hr, hsym, htype⟩ := htaken.mpr hk
      have hatStub := h.loaded r hr hsym htype
      obtain ⟨j, raw, hj, -⟩ := id hatStub
      have hfk := hat.isFake_of_entry hj
      exact (hfirst hfk r hsym htype (hglob r hr hsym htype hfk)).mp hatStub
  · intro h
    refine ⟨fun r hr hsym htype => ?_, fun r hr hsym habs => ?_⟩
    · have hk := htaken.mp ⟨r, hr, hsym, htype⟩
      have hfk := hfake.mpr (h.marked hk)
      exact (hfirst hfk r hsym htype (hglob r hr hsym htype hfk)).mpr (h.first hk)
    · rw [hrelocs, List.mem_append] at hr
      have hr' := hr.resolve_left fun hr => hstart.relocs r hr hsym
      obtain ⟨k, hk, hksym, hin⟩ := anyOf_iff.mp (himage.mp ⟨r, hr', hsym, habs⟩)
      exact absurd (h.image k hk hksym) (by simp [hin])

-- A program that takes the address of `free`.
def pointerState : ScanState := { ctx := { syms := fun _ => { name := "free".toList } } }

def pointerSecs (type : RelType) : List (InputSec × List Rel) :=
  [(demoText, [⟨.sym 0, 1, type, 0x8#64, -4⟩])]

theorem pointerState_start : FunctionStart pointerState (.sym 0) where
  plain := ⟨rfl, rfl, by decide, by decide, by decide⟩
  iscustomreloc := rfl
  NEEDS_GOT := rfl
  relaDyn _ hr := absurd hr List.not_mem_nil
  relocs _ hr := absurd hr List.not_mem_nil
  fakeplt := rfl

theorem handledAll_pointerSecs (type : RelType) :
    handledAll demoScanConfig pointerState (pointerSecs type) =
      [(demoText, ⟨.sym 0, 1, type, 0x8#64, -4⟩)] := rfl

theorem stubPointers_marked :
    KeepsStub demoScanConfig pointerState (pointerSecs .R_X86_64_REX_GOTPCRELX) [] (.sym 0) ∧
      StubPointers (demoConfig .IntelIBT)
        (link demoScanConfig pointerState (pointerSecs .R_X86_64_REX_GOTPCRELX) [0])
        (scanRelocations demoScanConfig pointerState (pointerSecs .R_X86_64_REX_GOTPCRELX)).relocs
        (.sym 0) := by
  have hkeeps : KeepsStub demoScanConfig pointerState (pointerSecs .R_X86_64_REX_GOTPCRELX) []
      (.sym 0) := by
    refine ⟨?_, fun _ => ?_, fun _ t ht => ?_⟩
    · rw [handledAll_pointerSecs]
      decide
    · rw [handledAll_pointerSecs]
      exact ⟨_, List.mem_singleton_self _, rfl, by decide⟩
    · exact absurd ht List.not_mem_nil
  exact ⟨hkeeps, (stubPointers_iff demoScanConfig rfl pointerState _ [] 0 [] List.not_mem_nil
    List.not_mem_nil pointerState_start (by decide)).mpr hkeeps⟩

-- With `R_X86_64_GOTPCREL` the word in `.got` is looked up by the name of the function.
theorem stubPointers_unmarked :
    ¬StubPointers (demoConfig .IntelIBT)
      (link demoScanConfig pointerState (pointerSecs .R_X86_64_GOTPCREL) [0])
      (scanRelocations demoScanConfig pointerState (pointerSecs .R_X86_64_GOTPCREL)).relocs
      (.sym 0) := by
  intro h
  have hword : gotReloc .R_X86_64_GLOB_DAT 0#64 (.sym 0) ∈
      (link demoScanConfig pointerState (pointerSecs .R_X86_64_GOTPCREL) [0]).relaDyn := by decide
  obtain ⟨j, raw, hj, -⟩ := h.loaded _ hword rfl (by decide)
  have hnone : (link demoScanConfig pointerState (pointerSecs .R_X86_64_GOTPCREL) [0]).fakeplt = [] := by
    decide
  rw [hnone] at hj
  exact absurd hj (by simp)

end Platypus.Linker
