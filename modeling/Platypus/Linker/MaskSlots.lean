import Platypus.Linker.CallTarget
import Platypus.Linker.CallbackReloc
import Platypus.Linker.GetterStub
import Platypus.Linker.GotStep
import Platypus.Linker.ScanRun

namespace Platypus.Linker

open Bytes Machine

inductive Mask
  | or
  | and
  deriving DecidableEq, Repr

namespace Mask

def text : Mask → String
  | .or => "or_mask"
  | .and => "and_mask"

def rel : Mask → RelType
  | .or => .R_X86_64_ORMASK
  | .and => .R_X86_64_ANDMASK

def offset (c : Ctx) : Mask → Word
  | .or => c.ormask_offset
  | .and => c.andmask_offset

end Mask

-- The slot of `.got` at an offset has the relocation of the mask.
def Carried (c : Ctx) (m : Mask) (off : Word) : Prop :=
  ∃ r ∈ c.relaDyn, r.type = m.rel ∧ r.inputSec = .got ∧ r.offsetInSec = off

-- The offset is the same, and so are the slots with the mask.
structure SameMask (m : Mask) (c c' : Ctx) : Prop where
  offset : m.offset c' = m.offset c
  carried : ∀ off, Carried c' m off ↔ Carried c m off

namespace SameMask

variable {m : Mask} {c c' c'' : Ctx}

theorem trans (h : SameMask m c c') (h' : SameMask m c' c'') : SameMask m c c'' where
  offset := h'.offset.trans h.offset
  carried off := (h'.carried off).trans (h.carried off)

theorem of_append {new : List DynamicReloc} (hoffset : m.offset c' = m.offset c)
    (hrela : c'.relaDyn = c.relaDyn ++ new) (hnew : ∀ r ∈ new, r.type ≠ m.rel) :
    SameMask m c c' where
  offset := hoffset
  carried off := by
    constructor
    · rintro ⟨r, hr, htype, hrest⟩
      rw [hrela] at hr
      rcases List.mem_append.mp hr with hr | hr
      · exact ⟨r, hr, htype, hrest⟩
      · exact absurd htype (hnew r hr)
    · rintro ⟨r, hr, hrest⟩
      exact ⟨r, hrela ▸ List.mem_append_left _ hr, hrest⟩

theorem of_quiet (h : Quiet c c') : SameMask m c c' := by
  obtain ⟨new, hrela, hnew⟩ := h.relaDyn
  have hoffset : m.offset c' = m.offset c := by
    cases m
    · exact h.ormask_offset
    · exact h.andmask_offset
  refine of_append hoffset hrela fun r hr htype => ?_
  have hmem := hnew r hr
  rw [htype] at hmem
  revert hmem
  cases m <;> decide

end SameMask

theorem startsWith_eq_false_of_head {sym : Symbol} {text text' : String} {x y : Char}
    {xs ys : Name} (h : sym.startsWith text = true) (htext : text.toList = x :: xs)
    (htext' : text'.toList = y :: ys) (hne : x ≠ y) : sym.startsWith text' = false := by
  rw [Bool.eq_false_iff]
  intro h'
  rw [Symbol.startsWith, htext, List.isPrefixOf_iff_prefix] at h
  rw [Symbol.startsWith, htext', List.isPrefixOf_iff_prefix] at h'
  obtain ⟨rest, hrest⟩ := h
  obtain ⟨rest', hrest'⟩ := h'
  exact hne (List.cons.inj (hrest.trans hrest'.symm)).1

theorem startsWith_or_of_and {sym : Symbol} (h : sym.startsWith "and_mask" = true) :
    sym.startsWith "or_mask" = false :=
  startsWith_eq_false_of_head h (x := 'a') (y := 'o') rfl rfl (by decide)

section Entry

variable (cfg : Config) (c : Ctx) (s : SymId) (m : Mask)

theorem addRelaDyn_sameMask (type : RelType) (h : type ≠ m.rel) {r : DynamicReloc}
    (hr : r.type = type) : SameMask m c (c.addRelaDyn r) := by
  have hoffset : m.offset (c.addRelaDyn r) = m.offset c := by cases m <;> rfl
  exact .of_append hoffset rfl (by simpa [hr] using h)

theorem plainGotReloc_sameMask (off : Word) (h : (c.syms s).startsWith m.text = false) :
    SameMask m c (plainGotReloc cfg c s off) := by
  have hconst : ∀ k, SameMask m c (c.addConstant k) := by
    intro k
    have hoffset : m.offset (c.addConstant k) = m.offset c := by cases m <;> rfl
    exact .of_append hoffset (List.append_nil _).symm (by simp)
  unfold plainGotReloc addRelativeReloc
  dsimp only
  split_ifs with h₁ h₂ h₃ h₄ h₅ h₆
  · exact addRelaDyn_sameMask c m .R_X86_64_RELATIVE (by cases m <;> decide) rfl
  · exact addRelaDyn_sameMask c m .R_X86_64_GLOB_DAT (by cases m <;> decide) rfl
  · exact hconst _
  · refine addRelaDyn_sameMask c m .R_X86_64_ORMASK ?_ rfl
    cases m with
    | or => exact absurd h₄ (Bool.eq_false_iff.mp h)
    | and => decide
  · refine addRelaDyn_sameMask c m .R_X86_64_ANDMASK ?_ rfl
    cases m with
    | or => decide
    | and => exact absurd h₅ (Bool.eq_false_iff.mp h)
  · have hoffset : ∀ c' : Ctx, m.offset { c' with relrDyn := c'.relrDyn ++ [(.got, off)] } = m.offset c' := by
      intro c'
      cases m <;> rfl
    exact (hconst _).trans (.of_append (hoffset _) (List.append_nil _).symm (by simp))
  · exact addRelaDyn_sameMask c m .R_X86_64_RELATIVE (by cases m <;> decide) rfl

-- The masks do not share their offsets.
theorem noteOther_sameMask (off : Word) :
    SameMask .and c (noteOrMask c off) ∧ SameMask .or c (noteAndMask c off) := by
  unfold noteOrMask noteAndMask
  constructor
  all_goals
    split
    · exact ⟨rfl, fun _ => Iff.rfl⟩
    · exact ⟨rfl, fun _ => Iff.rfl⟩

theorem customGotReloc_sameMask {c' : Ctx} (off : Word)
    (h : (c.syms s).startsWith m.text = false) (hreloc : customGotReloc c s off = some c') :
    SameMask m c c' := by
  unfold customGotReloc at hreloc
  dsimp only at hreloc
  split_ifs at hreloc with h₁ h₂ h₃ h₄ h₅ <;> obtain rfl := Option.some_inj.mp hreloc
  · cases m with
    | or => exact absurd h₁ (Bool.eq_false_iff.mp h)
    | and =>
      exact (noteOther_sameMask c off).1.trans
        (addRelaDyn_sameMask _ _ .R_X86_64_ORMASK (by decide) rfl)
  · cases m with
    | or =>
      exact (noteOther_sameMask c off).2.trans
        (addRelaDyn_sameMask _ _ .R_X86_64_ANDMASK (by decide) rfl)
    | and => exact absurd h₂ (Bool.eq_false_iff.mp h)
  · exact addRelaDyn_sameMask c m .R_X86_64_RELATIVE (by cases m <;> decide) rfl
  · exact addRelaDyn_sameMask c m .R_X86_64_CALLBACK_MAYBE (by cases m <;> decide) rfl
  · exact addRelaDyn_sameMask c m .R_X86_64_DSO_BASE (by cases m <;> decide) rfl

theorem addGotEntry_sameMask (h : (c.syms s).startsWith m.text = false) :
    SameMask m c (addGotEntry cfg c s) := by
  have hentry : SameMask m c (GotSection.addEntry c) := by
    have hoffset : m.offset (GotSection.addEntry c) = m.offset c := by cases m <;> rfl
    exact .of_append hoffset (List.append_nil _).symm (by simp)
  refine hentry.trans ?_
  unfold addGotEntry
  dsimp only
  split
  · split
    · exact customGotReloc_sameMask _ s m _ h ‹_›
    · exact plainGotReloc_sameMask cfg _ s m _ h
  · exact plainGotReloc_sameMask cfg _ s m _ h

-- A new slot with the mask: its offset is noted unless there is one already.
structure NewMask (m : Mask) (c c' : Ctx) (off : Word) : Prop where
  offset : m.offset c' = if m.offset c = 0#64 then off else m.offset c
  carried : ∀ off', Carried c' m off' ↔ Carried c m off' ∨ off' = off

theorem NewMask.of_append {c' : Ctx} {off : Word}
    (hoffset : m.offset c' = if m.offset c = 0#64 then off else m.offset c)
    (hrela : c'.relaDyn = c.relaDyn ++ [gotReloc m.rel off s]) : NewMask m c c' off where
  offset := hoffset
  carried off' := by
    simp only [Carried, hrela, List.mem_append, List.mem_singleton]
    constructor
    · rintro ⟨r, hr | rfl, htype, hsec, hoff⟩
      · exact .inl ⟨r, hr, htype, hsec, hoff⟩
      · exact .inr hoff.symm
    · rintro (⟨r, hr, hrest⟩ | rfl)
      · exact ⟨r, .inl hr, hrest⟩
      · exact ⟨_, .inr rfl, rfl, rfl, rfl⟩

theorem addGotEntry_newMask (h : (c.syms s).startsWith m.text = true)
    (hcustom : 1#32 < (c.syms s).customrelocType) :
    ∃ off, NewMask m c (addGotEntry cfg c s) off := by
  have hsyms : (GotSection.addEntry c).syms = c.syms := rfl
  refine ⟨(GotSection.addEntry c).getGotOffset s, ?_⟩
  unfold addGotEntry customGotReloc
  dsimp only
  rw [hsyms, if_pos hcustom]
  cases m with
  | or =>
    change (c.syms s).startsWith "or_mask" = true at h
    rw [if_pos h]
    refine .of_append c s .or ?_ ?_
    · simp only [Mask.offset, noteOrMask]
      split
      · exact (if_pos ‹_›).symm
      · exact (if_neg ‹_›).symm
    · simp only [noteOrMask]
      split <;> rfl
  | and =>
    change (c.syms s).startsWith "and_mask" = true at h
    rw [if_neg (Bool.eq_false_iff.mp (startsWith_or_of_and h)), if_pos h]
    refine .of_append c s .and ?_ ?_
    · simp only [Mask.offset, noteAndMask]
      split
      · exact (if_pos ‹_›).symm
      · exact (if_neg ‹_›).symm
    · simp only [noteAndMask]
      split <;> rfl

end Entry

-- Names of masks have a custom type above 1 by the time they get a slot.
def Classified (c : Ctx) : Prop :=
  ∀ n (m : Mask), (c.syms (.sym n)).flags.NEEDS_GOT = true → (c.syms (.sym n)).startsWith m.text = true →
    1#32 < (c.syms (.sym n)).customrelocType

-- The symbol is a mask and gets an entry in `.got`.
def GetsMask (cfg : Config) (c : Ctx) (m : Mask) (n : Nat) : Prop :=
  (c.syms (.sym n)).startsWith m.text = true ∧ getsGot cfg (c.syms (.sym n)) = true

-- Once a mask has a slot, the noted offset is that of a slot with the mask.
structure MaskInv (m : Mask) (c : Ctx) (seen : Prop) : Prop where
  noted : seen → Carried c m (m.offset c)
  unset : ¬seen → m.offset c = 0#64 ∧ ∀ off, ¬Carried c m off

section Run

variable {cfg : Config} {c c' : Ctx} {m : Mask} {seen : Prop} {n : Nat}

theorem Classified.of_fixed (h : Classified c)
    (hfixed : ∀ n, (c'.syms (.sym n)).fixed = (c.syms (.sym n)).fixed) : Classified c' := by
  intro n m hgot hname
  have hname' : (c'.syms (.sym n)).name = (c.syms (.sym n)).name := congrArg FixedPart.name (hfixed n)
  have hcustom : (c'.syms (.sym n)).iscustomreloc = (c.syms (.sym n)).iscustomreloc :=
    congrArg FixedPart.iscustomreloc (hfixed n)
  have hgot' : (c'.syms (.sym n)).flags.NEEDS_GOT = (c.syms (.sym n)).flags.NEEDS_GOT :=
    congrArg FixedPart.NEEDS_GOT (hfixed n)
  rw [Symbol.customrelocType, hcustom]
  exact h n m (hgot' ▸ hgot) (by rwa [Symbol.startsWith, ← hname'])

theorem MaskInv.same (h : MaskInv m c seen) (hsame : SameMask m c c') : MaskInv m c' seen where
  noted hseen := by
    rw [hsame.carried, hsame.offset]
    exact h.noted hseen
  unset hunseen := by
    obtain ⟨hoffset, hnone⟩ := h.unset hunseen
    exact ⟨hsame.offset.trans hoffset, fun off hoff => hnone off ((hsame.carried off).mp hoff)⟩

theorem MaskInv.new {off : Word} (h : MaskInv m c seen) (hnew : NewMask m c c' off) :
    MaskInv m c' True where
  noted _ := by
    rw [hnew.carried, hnew.offset]
    split
    · exact .inr rfl
    · rename_i hset
      refine .inl (h.noted ?_)
      by_contra hunseen
      exact hset (h.unset hunseen).1
  unset hfalse := absurd trivial hfalse

theorem MaskInv.congr {seen' : Prop} (h : MaskInv m c seen) (hseen : seen ↔ seen') :
    MaskInv m c seen' := by rwa [← propext hseen]

theorem MaskInv.postScanSymbol (h : MaskInv m c seen) (hclass : Classified c) :
    MaskInv m (postScanSymbol cfg c (.sym n)) (seen ∨ GetsMask cfg c m n) := by
  have hround := postScanSymbol_round cfg c n
  by_cases hgets : GetsMask cfg c m n
  · obtain ⟨hname, hgot⟩ := hgets
    rw [hgot] at hround
    obtain ⟨c₁, hbefore, hafter⟩ := hround
    have hname₁ : ((c₁.syms (.sym n)).startsWith m.text) = true := by
      rwa [Symbol.startsWith, show (c₁.syms (.sym n)).name = (c.syms (.sym n)).name from
        congrArg FixedPart.name (hbefore.fixed n)]
    have hneeds : (c₁.syms (.sym n)).flags.NEEDS_GOT = true :=
      (congrArg FixedPart.NEEDS_GOT (hbefore.fixed n)).trans (Bool.and_eq_true_iff.mp hgot).1
    obtain ⟨off, hnew⟩ := addGotEntry_newMask cfg c₁ (.sym n) m hname₁
      (hclass.of_fixed hbefore.fixed n m hneeds hname₁)
    exact (((h.same (.of_quiet hbefore)).new hnew).same (.of_quiet hafter)).congr
      (iff_of_true trivial (.inr ⟨hname, hgot⟩))
  · have hsame : SameMask m c (Linker.postScanSymbol cfg c (.sym n)) := by
      cases hgot : getsGot cfg (c.syms (.sym n)) with
      | false =>
        rw [hgot] at hround
        exact .of_quiet hround
      | true =>
        rw [hgot] at hround
        obtain ⟨c₁, hbefore, hafter⟩ := hround
        have hname : (c₁.syms (.sym n)).startsWith m.text = false := by
          rw [Symbol.startsWith, show (c₁.syms (.sym n)).name = (c.syms (.sym n)).name from
            congrArg FixedPart.name (hbefore.fixed n), Bool.eq_false_iff]
          exact fun hname => hgets ⟨hname, hgot⟩
        exact ((SameMask.of_quiet hbefore).trans (addGotEntry_sameMask cfg c₁ _ m hname)).trans
          (.of_quiet hafter)
    exact (h.same hsame).congr (or_iff_left hgets).symm

-- After the loop the noted offset is that of a slot exactly if some round gave the mask one.
theorem MaskInv.run (cfg : Config) (syms : List Nat) (h : MaskInv m c seen) (hclass : Classified c) :
    MaskInv m ((syms.map .sym).foldl (Linker.postScanSymbol cfg) c)
      (seen ∨ ∃ pre n post, syms = pre ++ n :: post ∧
        GetsMask cfg ((pre.map .sym).foldl (Linker.postScanSymbol cfg) c) m n) := by
  induction syms generalizing c seen with
  | nil =>
    refine h.congr (or_iff_left ?_).symm
    rintro ⟨pre, n, post, hsplit, -⟩
    cases pre <;> cases hsplit
  | cons n syms ih =>
    have hnext := ih (h.postScanSymbol hclass)
      (hclass.of_fixed (postScanSymbol_round cfg c n).fixed)
    refine hnext.congr ?_
    rw [or_assoc]
    refine or_congr_right ⟨?_, ?_⟩
    · rintro (hfirst | ⟨pre, k, post, rfl, hk⟩)
      · exact ⟨[], n, syms, rfl, hfirst⟩
      · exact ⟨n :: pre, k, post, rfl, hk⟩
    · rintro ⟨pre, k, post, hsplit, hk⟩
      cases pre with
      | nil =>
        obtain ⟨rfl, rfl⟩ := List.cons.inj hsplit
        exact .inl hk
      | cons n' pre =>
        obtain ⟨rfl, rfl⟩ := List.cons.inj hsplit
        exact .inr ⟨pre, k, post, rfl, hk⟩

end Run

section Scan

variable (sym : Symbol) (type : RelType) (m : Mask)

def Mask.custom : Mask → BitVec 32
  | .or => 0x2#32
  | .and => 0xa#32

theorem maskType_mask (h : sym.startsWith m.text = true) :
    maskType sym type = ({ sym with iscustomreloc := m.custom }, m.rel) := by
  unfold maskType
  cases m with
  | or => exact if_pos h
  | and =>
    rw [if_neg (Bool.eq_false_iff.mp (startsWith_or_of_and h))]
    exact if_pos h

theorem startsWith_maskType (text : String) :
    (maskType sym type).1.startsWith text = sym.startsWith text := by
  unfold maskType
  split_ifs <;> rfl

theorem startsWith_decodeCallback : (decodeCallback sym).startsWith m.text = false := by
  refine startsWith_eq_false_of_underscore _ ?_ (by cases m <;> decide)
  intro hmem
  have hne := List.mem_takeWhile_imp hmem
  simp at hne

-- A name that is cut at its first underscore is not that of a mask.
theorem startsWith_of_customType (h : (customType sym type).1.startsWith m.text = true) :
    sym.startsWith m.text = true := by
  unfold customType at h
  split_ifs at h
  · exact h
  · exact h
  · exact h
  · rw [startsWith_decodeCallback] at h
    cases h
  · exact h
  · exact h
  · exact h

-- `scanOne` gives every symbol with the name of a mask its custom type.
theorem classify_mask (h : (classify sym type).1.startsWith m.text = true) :
    1#32 < (classify sym type).1.customrelocType := by
  unfold classify at h ⊢
  dsimp only at h ⊢
  have hname : sym.startsWith m.text = true := by
    rw [← startsWith_maskType sym type]
    exact startsWith_of_customType _ _ m h
  have hcustom : 1#32 < m.custom &&& 0xff#32 := by cases m <;> decide
  have hplaceholder : sym.startsWith "placeholder" = false := by
    cases m with
    | or => exact startsWith_eq_false_of_head hname (x := 'o') (y := 'p') rfl rfl (by decide)
    | and => exact startsWith_eq_false_of_head hname (x := 'a') (y := 'p') rfl rfl (by decide)
  rw [maskType_mask sym type m hname] at h ⊢
  dsimp only at h ⊢
  unfold customType at h ⊢
  split_ifs at h ⊢ with h₁ h₂ h₃ h₄ h₅ h₆
  · change 1#32 < 0x3#32 &&& 0xff#32
    decide
  · exact absurd h₃ (by cases m <;> decide)
  · exact hcustom
  · rw [startsWith_decodeCallback] at h
    cases h
  · exact hcustom
  · rw [Bool.and_eq_true] at h₆
    exact absurd h₆.1 (Bool.eq_false_iff.mp hplaceholder)
  · exact hcustom

end Scan

-- Before the scan: nothing is in `.got`, and no offset is noted.
structure Unlinked (st : ScanState) (secs : List (InputSec × List Rel)) : Prop where
  ormask_offset : st.ctx.ormask_offset = 0#64
  andmask_offset : st.ctx.andmask_offset = 0#64
  relaDyn : ∀ r ∈ st.ctx.relaDyn, r.inputSec ≠ .got
  flags : ∀ n, (st.sym (.sym n)).flags.NEEDS_GOT = false
  secs : ∀ p ∈ secs, p.1.id ≠ .got

-- What the scan keeps of this, with the names of masks classified.
structure GotUnset (st : ScanState) : Prop where
  ormask_offset : st.ctx.ormask_offset = 0#64
  andmask_offset : st.ctx.andmask_offset = 0#64
  relaDyn : ∀ r ∈ st.ctx.relaDyn, r.inputSec ≠ .got
  classified : Classified st.ctx

theorem GotUnset.scanOne {cfg : ScanConfig} {sec : InputSec} {st : ScanState} (h : GotUnset st)
    (hsec : sec.id ≠ .got) (rel : Rel) : GotUnset (scanOne cfg sec st rel).1 := by
  have htouches := scanOne_touches cfg sec st rel
  obtain ⟨new, hrela, hnew⟩ := htouches.relaDyn
  refine ⟨?_, ?_, fun r hr => ?_, fun n m hgot hname => ?_⟩
  · rw [htouches.rest]
    exact h.ormask_offset
  · rw [htouches.rest]
    exact h.andmask_offset
  · rw [hrela] at hr
    rcases List.mem_append.mp hr with hr | hr
    · exact h.relaDyn r hr
    · exact (hnew r hr).1 ▸ hsec
  · by_cases hsym : .sym n = rel.sym
    · obtain ⟨flags, hown⟩ := htouches.own
      have hset : ((Linker.scanOne cfg sec st rel).1.ctx.syms (.sym n)) =
          { (classify (st.sym rel.sym) rel.type).1 with flags := flags } := by
        rw [sym_setSym] at hown
        rw [hsym]
        exact hown
      rw [hset] at hname ⊢
      exact classify_mask _ _ m hname
    · have hkept : (Linker.scanOne cfg sec st rel).1.ctx.syms (.sym n) = st.ctx.syms (.sym n) :=
        (htouches.others _ hsym).trans (if_neg hsym)
      rw [hkept] at hgot hname ⊢
      exact h.classified n m hgot hname

theorem Unlinked.scanRelocations {st : ScanState} {secs : List (InputSec × List Rel)}
    (h : Unlinked st secs) (cfg : ScanConfig) : GotUnset (scanRelocations cfg st secs) := by
  refine scanRelocations_induction ?_ fun st sec rels rel hsec hst =>
    hst.scanOne (h.secs (sec, rels) hsec) rel
  refine ⟨h.ormask_offset, h.andmask_offset, h.relaDyn, fun n m hgot => ?_⟩
  have hflags : (st.ctx.syms (.sym n)).flags.NEEDS_GOT = false := h.flags n
  rw [hflags] at hgot
  cases hgot

theorem GotUnset.maskInv {st : ScanState} (h : GotUnset st) (m : Mask) :
    MaskInv m st.ctx False where
  noted := False.elim
  unset _ := by
    refine ⟨?_, ?_⟩
    · cases m
      · exact h.ormask_offset
      · exact h.andmask_offset
    · rintro off ⟨r, hr, -, hsec, -⟩
      exact h.relaDyn r hr hsec

-- In a whole link the noted offset is that of a slot with the mask exactly if a round of the
-- second pass finds a symbol with the mask's name that needs an entry in `.got`.
theorem carried_link_iff (cfg : ScanConfig) (st : ScanState) (secs : List (InputSec × List Rel))
    (syms : List Nat) (h : Unlinked st secs) (m : Mask) :
    Carried (link cfg st secs syms) m (m.offset (link cfg st secs syms)) ↔
      ∃ pre n post, syms = pre ++ n :: post ∧
        GetsMask cfg.toConfig (link cfg st secs pre) m n := by
  have hunset := h.scanRelocations cfg
  have hquiet := addTlsLd_quiet (linkConfig cfg (Linker.scanRelocations cfg st secs))
    (Linker.scanRelocations cfg st secs).ctx
  have hinv := (((hunset.maskInv m).same (.of_quiet hquiet)).run
    (linkConfig cfg (Linker.scanRelocations cfg st secs)) syms (hunset.classified.of_fixed hquiet.fixed)).congr (by rw [false_or])
  refine ⟨fun hcarried => ?_, hinv.noted⟩
  by_contra hunseen
  exact (hinv.unset hunseen).2 _ hcarried

-- The entry of a callback getter in `.plt` or `.fakeplt`.
structure GetterEntry (cfg : Config) (c : Ctx) (S : StubSection) (j : Nat) (s : SymId)
    (pos : Fin 6) : Prop where
  entry : (S.entries c)[j]? = some s
  getter : cfg.callb_get.lookup (c.syms s).name = some [(pos : Int)]
  fits : StubFits cfg c s (S.stubVA cfg j)

def Mask.op : Mask → Reg → Word → Op
  | .or => .or
  | .and => .and

-- Every word that the code masks a register with is a slot of `.got` with that mask.
def MasksAddressed (cfg : Config) (c : Ctx) (code : List Op) : Prop :=
  ∀ (m : Mask) reg slot, m.op reg slot ∈ code →
    ∃ off, Carried c m off ∧ slot = off + cfg.va .got

theorem masksAddressed_maskingOps (cfg : Config) (c : Ctx) (reg : Reg) (s : SymId) :
    MasksAddressed cfg c (maskingOps cfg c reg s) ↔ ∀ m, Carried c m (m.offset c) := by
  constructor
  · intro h m
    have hmem : m.op reg (m.offset c + cfg.va .got) ∈ maskingOps cfg c reg s := by
      cases m <;> simp [Mask.op, Mask.offset, maskingOps]
    obtain ⟨off, hcarried, hslot⟩ := h m reg _ hmem
    rwa [(BitVec.add_left_inj (cfg.va .got)).mp hslot]
  · intro h m reg' slot hmem
    refine ⟨m.offset c, h m, ?_⟩
    cases m <;> simp_all [Mask.op, Mask.offset, maskingOps]

theorem GetterEntry.ops {cfg : Config} {c : Ctx} {S : StubSection} {j : Nat} {s : SymId}
    {pos : Fin 6} (h : GetterEntry cfg c S j s pos) (htarget : cfg.target = .IntelIBT) :
    ∃ bs, S.stub cfg c s (S.stubVA cfg j) = some bs ∧
      Machine.ops bs (S.stubVA cfg j) = maskingOps cfg c (argReg pos) s := by
  have hwrite : S.stub cfg c = IntelIBT.writePlt cfg c ∨ S.stub cfg c = X86_64.writeFakePlt cfg c := by
    cases S with
    | plt =>
      left
      rw [StubSection.stub, htarget]
      rfl
    | fakeplt => exact .inr rfl
  obtain ⟨bs, hbs, -, hops⟩ := getter_ops hwrite pos h.getter h.fits
  exact ⟨bs, hbs, hops⟩

-- The masking stubs of a link read the slots with the masks exactly if the second pass gives each
-- mask an entry in `.got`.
theorem maskWords_iff (cfg : ScanConfig) (st : ScanState) (secs : List (InputSec × List Rel))
    (syms : List Nat) (htarget : cfg.target = .IntelIBT) (hstart : Unlinked st secs)
    (hgetter : ∃ S j s pos, GetterEntry cfg.toConfig (link cfg st secs syms) S j s pos) :
    (∀ S j s pos bs, GetterEntry cfg.toConfig (link cfg st secs syms) S j s pos →
      S.stub cfg.toConfig (link cfg st secs syms) s (S.stubVA cfg.toConfig j) = some bs →
      MasksAddressed cfg.toConfig (link cfg st secs syms) (ops bs (S.stubVA cfg.toConfig j))) ↔
    ∀ m, ∃ pre n post, syms = pre ++ n :: post ∧ GetsMask cfg.toConfig (link cfg st secs pre) m n := by
  have hcarried := carried_link_iff cfg st secs syms hstart
  constructor
  · intro h m
    obtain ⟨S, j, s, pos, hentry⟩ := hgetter
    obtain ⟨bs, hbs, hops⟩ := hentry.ops htarget
    have haddressed := h S j s pos bs hentry hbs
    rw [hops, masksAddressed_maskingOps] at haddressed
    exact (hcarried m).mp (haddressed m)
  · intro h S j s pos bs hentry hbs
    obtain ⟨bs', hbs', hops⟩ := hentry.ops htarget
    rw [hbs, Option.some_inj] at hbs'
    rw [hbs', hops, masksAddressed_maskingOps]
    exact fun m => (hcarried m).mpr (h m)

-- A program that calls `qsort` and reads `stdin`.
def callerSymbol : SymId → Symbol
  | .sym 0 => { name := "qsort".toList }
  | .sym 1 => { name := "or_mask".toList, type := .STT_NOTYPE, kind := .Undefined, isPreemptible := false }
  | .sym 2 => { name := "and_mask".toList, type := .STT_NOTYPE, kind := .Undefined, isPreemptible := false }
  | _ => { name := "stdin".toList, type := .STT_OBJECT, size := 8#64 }

def callerState : ScanState := { ctx := { syms := callerSymbol } }

def callerRels : List Rel :=
  [⟨.sym 0, 1, .R_X86_64_PLT32, 0x1#64, -4⟩, ⟨.sym 3, 4, .R_X86_64_GOTPCREL, 0x8#64, -4⟩]

-- What an indirect call adds to it.
def maskRels : List Rel :=
  [⟨.sym 1, 2, .R_X86_64_REX_GOTPCRELX, 0x10#64, -4⟩, ⟨.sym 2, 3, .R_X86_64_REX_GOTPCRELX, 0x18#64, -4⟩]

def callerLink (rels : List Rel) : Ctx :=
  link demoScanConfig callerState [(demoText, rels)] [0, 1, 2, 3]

theorem callerState_unlinked (rels : List Rel) : Unlinked callerState [(demoText, rels)] where
  ormask_offset := rfl
  andmask_offset := rfl
  relaDyn := by
    intro r hr
    exact absurd hr List.not_mem_nil
  flags n := by rcases n with _ | _ | _ | n <;> rfl
  secs := by
    intro p hp
    rw [List.mem_singleton.mp hp]
    change Section.input 0 ≠ .got
    decide

theorem callerLink_masked :
    GetterEntry demoScanConfig.toConfig (callerLink (callerRels ++ maskRels)) .plt 0 (.sym 0) 3 where
  entry := rfl
  getter := rfl
  fits := ⟨by decide, by decide, by decide⟩

theorem maskWords_masked :
    ∃ bs, StubSection.plt.stub demoScanConfig.toConfig (callerLink (callerRels ++ maskRels)) (.sym 0)
        (StubSection.plt.stubVA demoScanConfig.toConfig 0) = some bs ∧
      MasksAddressed demoScanConfig.toConfig (callerLink (callerRels ++ maskRels))
        (ops bs (StubSection.plt.stubVA demoScanConfig.toConfig 0)) := by
  obtain ⟨bs, hbs, -⟩ := callerLink_masked.ops rfl
  refine ⟨bs, hbs, (maskWords_iff demoScanConfig callerState [(demoText, callerRels ++ maskRels)]
    [0, 1, 2, 3] rfl (callerState_unlinked _) ⟨_, _, _, _, callerLink_masked⟩).mpr ?_ .plt 0 (.sym 0)
    3 bs callerLink_masked hbs⟩
  intro m
  cases m with
  | or => exact ⟨[0], 1, [2, 3], rfl, rfl, rfl⟩
  | and => exact ⟨[0, 1], 2, [3], rfl, rfl, rfl⟩

theorem callerLink_unmasked :
    GetterEntry demoScanConfig.toConfig (callerLink callerRels) .plt 0 (.sym 0) 3 where
  entry := rfl
  getter := rfl
  fits := ⟨by decide, by decide, by decide⟩

-- Without an indirect call in the program, the stub masks the callback with the address of `stdin`.
theorem maskWords_unmasked :
    Unlinked callerState [(demoText, callerRels)] ∧
    GetterEntry demoScanConfig.toConfig (callerLink callerRels) .plt 0 (.sym 0) 3 ∧
    (callerLink callerRels).relaDyn = [gotReloc .R_X86_64_GLOB_DAT 0#64 (.sym 3)] ∧
    ∃ bs, StubSection.plt.stub demoScanConfig.toConfig (callerLink callerRels) (.sym 0)
        (StubSection.plt.stubVA demoScanConfig.toConfig 0) = some bs ∧
      ops bs (StubSection.plt.stubVA demoScanConfig.toConfig 0) =
        [.endbr64, .or .rcx (demoScanConfig.va .got), .and .rcx (demoScanConfig.va .got),
          .jmpThrough 0x5018#64] ∧
      ¬MasksAddressed demoScanConfig.toConfig (callerLink callerRels)
        (ops bs (StubSection.plt.stubVA demoScanConfig.toConfig 0)) := by
  obtain ⟨bs, hbs, hops⟩ := callerLink_unmasked.ops rfl
  have hrela : (callerLink callerRels).relaDyn = [gotReloc .R_X86_64_GLOB_DAT 0#64 (.sym 3)] := rfl
  refine ⟨callerState_unlinked _, callerLink_unmasked, hrela, bs, hbs, hops, ?_⟩
  rw [hops, masksAddressed_maskingOps]
  intro h
  obtain ⟨r, hr, htype, -⟩ := h .or
  rw [hrela, List.mem_singleton] at hr
  rw [hr] at htype
  cases htype

end Platypus.Linker
