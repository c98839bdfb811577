import Platypus.Parser.Records
import Platypus.Text.Lines

-- The getter file that `parse_output.py` makes of the log of `callback_parser.py`.

namespace Platypus.Parser

open Text

def expect (pre s : Name) : Option Name :=
  if pre.isPrefixOf s then some (s.drop pre.length) else none

-- `[^c]+` or `[^c]*` followed by `c`
def upTo (c : Char) (s : Name) : Option (Name × Name) :=
  if c ∈ s then some (splitFirst c s) else none

def upTo1 (c : Char) (s : Name) : Option (Name × Name) :=
  (upTo c s).filter fun p => p.1 ≠ []

-- The fixed parts of `ITEM_RE`.

def itemPhrase : Name := "Item to insert in callb_getters:".toList

def libPhrase : Name := "lib:".toList

def positionsPhrase : Name := "positions:".toList

def openBrace : Name := ['\x7b']

-- `ITEM_RE.match`: the first and the third group, up to blanks at their ends. The groups before a
-- comma may start with the blanks that `\s*` leaves to them, and both are stripped later.
def itemMatch (line : Name) : Option (Name × Name) := do
  let rest ← expect itemPhrase line
  let (item, rest) ← upTo1 ',' rest
  let rest ← expect libPhrase (rest.dropWhile isBlank)
  let (_, rest) ← upTo1 ',' rest
  let rest ← expect positionsPhrase (rest.dropWhile isBlank)
  let rest ← expect openBrace (rest.dropWhile isBlank)
  let (positions, rest) ← upTo '\x7d' rest
  if rest.all isBlank then some (item, positions) else none

def isDec (c : Char) : Bool := IsDigit 10 c

-- The zeros of the blocks of ten decimal digits of Unicode.
def decimalZeros : List Nat :=
  [0x30, 0x660, 0x6f0, 0x7c0, 0x966, 0x9e6, 0xa66, 0xae6, 0xb66, 0xbe6, 0xc66, 0xce6, 0xd66, 0xde6,
    0xe50, 0xed0, 0xf20, 0x1040, 0x1090, 0x17e0, 0x1810, 0x1946, 0x19d0, 0x1a80, 0x1a90, 0x1b50,
    0x1bb0, 0x1c40, 0x1c50, 0xa620, 0xa8d0, 0xa900, 0xa9d0, 0xa9f0, 0xaa50, 0xabf0, 0xff10, 0x104a0,
    0x10d30, 0x11066, 0x110f0, 0x11136, 0x111d0, 0x112f0, 0x11450, 0x114d0, 0x11650, 0x116c0,
    0x11730, 0x118e0, 0x11950, 0x11c50, 0x11d50, 0x11da0, 0x16a60, 0x16ac0, 0x16b50, 0x1d7ce,
    0x1d7d8, 0x1d7e2, 0x1d7ec, 0x1d7f6, 0x1e140, 0x1e2f0, 0x1e950, 0x1fbf0]

-- `\d` in a pattern for texts.
def isDecimal (c : Char) : Bool :=
  decimalZeros.any fun z => z ≤ c.toNat && c.toNat < z + 10

def extractFirstPosition (positions_str : Name) : Option Name :=
  let num := (positions_str.dropWhile fun c => !isDecimal c).takeWhile isDecimal
  if num = [] then none else some num

def sigaction : Name := "sigaction".toList

def itemPair (line : Name) : Option (Name × Name) := do
  let (group1, group3) ← itemMatch (strip line)
  let symbol_name := strip group1
  if symbol_name = sigaction then none
  else (extractFirstPosition (strip group3)).map fun first_pos => (symbol_name, first_pos)

def parseCallbGetters (text : Name) : List (Name × Name) := (splitlines text).filterMap itemPair

def writeATxt (pairs : List (Name × Name)) : Name :=
  pairs.flatMap fun p => p.1 ++ ":(".toList ++ p.2 ++ ")\n".toList

-- A record of the log: a getter, its library, and the positions in the order in which the set is
-- printed.
structure GetterRecord where
  item : Name
  lib : Path
  positions : List Name
  deriving DecidableEq, Repr

-- What `callback_parser.py` prints: the records of `check`, and all other output.
inductive Printed
  | record (r : GetterRecord)
  | other (text : Name)
  deriving DecidableEq, Repr

def quoted (s : Name) : Name := '\'' :: (s ++ ['\''])

def joinQuoted : List Name → Name
  | [] => []
  | [p] => quoted p
  | p :: ps => quoted p ++ ", ".toList ++ joinQuoted ps

-- The `repr` of a set of strings without quotes and backslashes.
def reprSet (ps : List Name) : Name := openBrace ++ (joinQuoted ps ++ ['\x7d'])

theorem mem_joinQuoted {ps : List Name} {c : Char} (h : c ∈ joinQuoted ps) :
    c = '\'' ∨ c = ',' ∨ c = ' ' ∨ ∃ p ∈ ps, c ∈ p := by
  induction ps with
  | nil => cases h
  | cons p ps ih =>
    have hquoted (h : c ∈ quoted p) : c = '\'' ∨ c ∈ p := by
      simp only [quoted, List.mem_cons, List.mem_append, List.not_mem_nil, or_false] at h
      tauto
    have hhead (h : c ∈ quoted p) : c = '\'' ∨ c = ',' ∨ c = ' ' ∨ ∃ q ∈ p :: ps, c ∈ q := by
      rcases hquoted h with h | h
      · exact .inl h
      · exact .inr (.inr (.inr ⟨p, List.mem_cons_self, h⟩))
    cases ps with
    | nil => exact hhead h
    | cons q ps =>
      have hjoin : joinQuoted (p :: q :: ps) = quoted p ++ ", ".toList ++ joinQuoted (q :: ps) := rfl
      rw [hjoin, List.mem_append, List.mem_append] at h
      rcases h with (h | h) | h
      · exact hhead h
      · have hsep : c = ',' ∨ c = ' ' := by simpa using h
        exact .inr (hsep.imp_right .inl)
      · rcases ih h with h | h | h | ⟨t, ht, h⟩
        · exact .inl h
        · exact .inr (.inl h)
        · exact .inr (.inr (.inl h))
        · exact .inr (.inr (.inr ⟨t, List.mem_cons_of_mem p ht, h⟩))

def GetterRecord.line (r : GetterRecord) : Name :=
  itemPhrase ++ ((' ' :: r.item) ++ ',' :: ' ' :: (libPhrase ++ ((' ' :: r.lib) ++
    ',' :: ' ' :: (positionsPhrase ++ ' ' :: reprSet r.positions))))

example : (GetterRecord.mk "qsort".toList "libc.so".toList ["3".toList, "1".toList]).line =
    "Item to insert in callb_getters: qsort, lib: libc.so, positions: \x7b'3', '1'\x7d".toList := by
  decide

def Printed.text : Printed → Name
  | .record r => '\n' :: (r.line ++ ['\n'])
  | .other text => text ++ ['\n']

def Printed.record? : Printed → Option GetterRecord
  | .record r => some r
  | .other _ => none

-- The file that the linker is given for a log.
def getterFile (log : List Printed) : Name :=
  writeATxt (parseCallbGetters (universalNewlines (log.flatMap Printed.text)))

-- The records that the regular expression was written for.
structure GetterRecord.Plain (r : GetterRecord) : Prop where
  item : CName r.item
  lib : ∀ c ∈ r.lib, c ≠ ',' ∧ isLineBreak c = false
  printed : r.positions ≠ []
  digits : ∀ p ∈ r.positions, p ≠ [] ∧ ∀ c ∈ p, isDec c = true

-- The rest of the output has no line that looks like a record.
def Printed.Plain : Printed → Prop
  | .record r => r.Plain
  | .other text => ∀ l ∈ splitlines (universalNewlines (text ++ ['\n'])), itemMatch (strip l) = none

theorem isDigit_of_isDec {c : Char} (h : isDec c = true) : c.isDigit = true := by
  have hlt : digitValue c < 10 := of_decide_eq_true h
  unfold digitValue at hlt
  split at hlt
  · rename_i hc
    rw [Char.isDigit, Bool.and_eq_true, decide_eq_true_eq, decide_eq_true_eq]
    exact hc
  · split at hlt
    · omega
    · split at hlt <;> omega

theorem isDecimal_of_isDec {c : Char} (h : isDec c = true) : isDecimal c = true := by
  have hdigit := isDigit_of_isDec h
  rw [Char.isDigit, Bool.and_eq_true, decide_eq_true_eq, decide_eq_true_eq] at hdigit
  have hlo : 48 ≤ c.toNat := UInt32.le_iff_toNat_le.mp hdigit.1
  have hhi : c.toNat ≤ 57 := UInt32.le_iff_toNat_le.mp hdigit.2
  refine List.any_eq_true.mpr ⟨0x30, List.mem_cons_self, ?_⟩
  rw [Bool.and_eq_true, decide_eq_true_eq, decide_eq_true_eq]
  omega

-- A record of a getter with positions that fit in an int.
structure GetterRecord.Proper (r : GetterRecord) : Prop where
  item : CName r.item
  printed : r.positions ≠ []
  digits : ∀ p ∈ r.positions, p ≠ [] ∧ ∀ c ∈ p, isDec c = true
  int : ∀ p ∈ r.positions, ofDigits 10 p < 2 ^ 31

-- The path of the library is one that the regular expression reads.
def GetterRecord.Readable (r : GetterRecord) : Prop := ∀ c ∈ r.lib, c ≠ ',' ∧ isLineBreak c = false

instance (r : GetterRecord) : Decidable r.Readable :=
  decidable_of_iff ((r.lib.all fun c => c ≠ ',' && !isLineBreak c) = true)
    (by simp [GetterRecord.Readable])

theorem GetterRecord.Proper.plain {r : GetterRecord} (h : r.Proper) (hread : r.Readable) : r.Plain :=
  ⟨h.item, hread, h.printed, h.digits⟩

section Line

theorem expect_append (pre s : Name) : expect pre (pre ++ s) = some s := by
  rw [expect, if_pos (List.isPrefixOf_iff_prefix.mpr (List.prefix_append _ _)), List.drop_left]

theorem upTo_append {c : Char} {s : Name} (h : c ∉ s) (t : Name) :
    upTo c (s ++ c :: t) = some (s, t) := by
  rw [upTo, if_pos (by simp), splitFirst_cons h]

theorem upTo1_append {c : Char} {s : Name} (h : c ∉ s) (hne : s ≠ []) (t : Name) :
    upTo1 c (s ++ c :: t) = some (s, t) := by
  rw [upTo1, upTo_append h, Option.filter_some, if_pos (decide_eq_true hne)]

theorem dropWhile_blank_word (w : Name) (hw : Word w) (s : Name) :
    (' ' :: (w ++ s)).dropWhile isBlank = w ++ s := by
  obtain ⟨c, rest, rfl⟩ := List.exists_cons_of_ne_nil hw.1
  rw [List.dropWhile_cons, if_pos isBlank_space, List.cons_append, List.dropWhile_cons,
    if_neg (by rw [hw.2 c List.mem_cons_self]; exact Bool.false_ne_true)]

theorem libPhrase_word : Word libPhrase := .of_all (by decide)

theorem positionsPhrase_word : Word positionsPhrase := .of_all (by decide)

theorem openBrace_word : Word openBrace := .of_all (by decide)

theorem line_tight (r : GetterRecord) : Tight r.line := by
  refine ⟨⟨'I', _, rfl, by decide⟩, ?_⟩
  refine ⟨itemPhrase ++ ((' ' :: r.item) ++ ',' :: ' ' :: (libPhrase ++ ((' ' :: r.lib) ++
    ',' :: ' ' :: (positionsPhrase ++ ' ' :: (openBrace ++ joinQuoted r.positions))))), '\x7d', ?_,
    by decide⟩
  simp only [GetterRecord.line, reprSet, List.append_assoc, List.cons_append]

variable {r : GetterRecord} (hr : r.Plain)
include hr

theorem joinQuoted_no_brace : '\x7d' ∉ joinQuoted r.positions := by
  intro hmem
  rcases mem_joinQuoted hmem with heq | heq | heq | ⟨p, hp, hc⟩
  · exact absurd heq (by decide)
  · exact absurd heq (by decide)
  · exact absurd heq (by decide)
  · exact absurd ((hr.digits p hp).2 _ hc) (by decide)

theorem itemMatch_line : itemMatch r.line = some (' ' :: r.item, joinQuoted r.positions) := by
  have hcomma : ',' ∉ ' ' :: r.item := by
    rw [List.mem_cons, not_or]
    exact ⟨by decide, not_mem_of_nameChars hr.item.chars (by decide)⟩
  have hlib : ',' ∉ ' ' :: r.lib := by
    rw [List.mem_cons, not_or]
    exact ⟨by decide, fun hmem => (hr.lib _ hmem).1 rfl⟩
  simp only [GetterRecord.line, reprSet, itemMatch, expect_append, Option.bind_eq_bind, Option.bind_some,
    upTo1_append hcomma (List.cons_ne_nil _ _), upTo1_append hlib (List.cons_ne_nil _ _),
    dropWhile_blank_word _ libPhrase_word, dropWhile_blank_word _ positionsPhrase_word,
    dropWhile_blank_word _ openBrace_word, upTo_append (joinQuoted_no_brace hr)]
  rfl

end Line

section Positions

theorem joinQuoted_cons (p : Name) (ps : List Name) :
    ∃ rest, joinQuoted (p :: ps) = '\'' :: (p ++ '\'' :: rest) := by
  cases ps with
  | nil => exact ⟨[], by simp [joinQuoted, quoted]⟩
  | cons q ps => exact ⟨", ".toList ++ joinQuoted (q :: ps), by simp [joinQuoted, quoted]⟩

theorem joinQuoted_last (p : Name) (ps : List Name) :
    ∃ init, joinQuoted (p :: ps) = init ++ ['\''] := by
  induction ps generalizing p with
  | nil => exact ⟨'\'' :: p, rfl⟩
  | cons q ps ih =>
    obtain ⟨init, hinit⟩ := ih q
    refine ⟨quoted p ++ ", ".toList ++ init, ?_⟩
    rw [joinQuoted, hinit]
    · simp only [List.append_assoc]
    · exact List.cons_ne_nil q ps

theorem joinQuoted_tight (p : Name) (ps : List Name) : Tight (joinQuoted (p :: ps)) := by
  obtain ⟨rest, hrest⟩ := joinQuoted_cons p ps
  obtain ⟨init, hinit⟩ := joinQuoted_last p ps
  exact ⟨⟨'\'', _, hrest, by decide⟩, init, '\'', hinit, by decide⟩

theorem extractFirstPosition_joinQuoted {p : Name} (ps : List Name) (hne : p ≠ [])
    (hp : ∀ c ∈ p, isDec c = true) : extractFirstPosition (joinQuoted (p :: ps)) = some p := by
  obtain ⟨rest, hrest⟩ := joinQuoted_cons p ps
  have hquote : isDecimal '\'' = false := by decide
  have hp' : ∀ c ∈ p, isDecimal c = true := fun c hc => isDecimal_of_isDec (hp c hc)
  have hdrop : (joinQuoted (p :: ps)).dropWhile (fun c => !isDecimal c) = p ++ '\'' :: rest := by
    obtain ⟨c, cs, rfl⟩ := List.exists_cons_of_ne_nil hne
    rw [hrest, List.dropWhile_cons, if_pos (by rw [hquote]; rfl), List.cons_append,
      List.dropWhile_cons, if_neg (by rw [hp' c List.mem_cons_self]; exact Bool.false_ne_true)]
  have htake : (p ++ '\'' :: rest).takeWhile isDecimal = p := by
    rw [List.takeWhile_append_of_pos hp', List.takeWhile_cons_of_neg (by rw [hquote]; simp),
      List.append_nil]
  rw [extractFirstPosition, hdrop, htake, if_neg hne]

end Positions

-- What a record adds to the getter file.
def GetterRecord.pair? (r : GetterRecord) : Option (Name × Name) :=
  if r.item = sigaction then none else r.positions.head?.map fun p => (r.item, p)

theorem itemPair_line {r : GetterRecord} (hr : r.Plain) : itemPair r.line = r.pair? := by
  obtain ⟨p, ps, hps⟩ := List.exists_cons_of_ne_nil hr.printed
  have hp := hr.digits p (hps ▸ List.mem_cons_self)
  have hitem : Word r.item := ⟨hr.item.ne_nil, fun c hc => isNameChar_visible (hr.item.chars c hc)⟩
  rw [itemPair, strip_tight (line_tight r), itemMatch_line hr, GetterRecord.pair?]
  simp only [Option.bind_eq_bind, Option.bind_some, strip_after hitem.tight, hps,
    strip_tight (joinQuoted_tight p ps), extractFirstPosition_joinQuoted ps hp.1 hp.2,
    Option.map_some, List.head?_cons]

theorem isLineBreak_nameChar {c : Char} (h : isNameChar c = true) : isLineBreak c = false := by
  unfold isNameChar at h
  unfold isLineBreak
  simp only [Bool.or_eq_true, Bool.and_eq_true, decide_eq_true_eq, beq_iff_eq] at h
  simp only [Bool.or_eq_false_iff, Bool.and_eq_false_iff, decide_eq_false_iff_not, beq_eq_false_iff_ne]
  omega

-- A part of a line that has no break.
def Unbroken (s : Name) : Prop := ∀ c ∈ s, isLineBreak c = false

theorem Unbroken.of_all {s : Name} (h : (s.all fun c => !isLineBreak c) = true) : Unbroken s := by
  intro c hc
  simpa using List.all_eq_true.mp h c hc

theorem Unbroken.append {s t : Name} (hs : Unbroken s) (ht : Unbroken t) : Unbroken (s ++ t) := by
  intro c hc
  rcases List.mem_append.mp hc with hc | hc
  · exact hs c hc
  · exact ht c hc

theorem Unbroken.cons {c : Char} {s : Name} (hc : isLineBreak c = false) (hs : Unbroken s) :
    Unbroken (c :: s) := by
  intro d hd
  rcases List.mem_cons.mp hd with rfl | hd
  · exact hc
  · exact hs d hd

theorem isLineBreak_dec {c : Char} (h : isDec c = true) : isLineBreak c = false :=
  isLineBreak_nameChar (isDigit_nameChar (isDigit_of_isDec h))

theorem joinQuoted_unbroken {ps : List Name} (h : ∀ p ∈ ps, Unbroken p) :
    Unbroken (joinQuoted ps) := by
  intro c hc
  rcases mem_joinQuoted hc with rfl | rfl | rfl | ⟨p, hp, hc⟩
  · decide
  · decide
  · decide
  · exact h p hp c hc

theorem line_no_break {r : GetterRecord} (hname : CName r.item) (hlib : Unbroken r.lib)
    (hdigits : ∀ p ∈ r.positions, ∀ c ∈ p, isDec c = true) : Unbroken r.line := by
  have hitem : Unbroken r.item := fun c hc => isLineBreak_nameChar (hname.chars c hc)
  have hpositions : Unbroken (joinQuoted r.positions) :=
    joinQuoted_unbroken fun p hp c hc => isLineBreak_dec (hdigits p hp c hc)
  have hblank : isLineBreak ' ' = false := by decide
  have hcomma : isLineBreak ',' = false := by decide
  exact .append (.of_all (by decide)) <| .append (.cons hblank hitem) <| .cons hcomma <|
    .cons hblank <| .append (.of_all (by decide)) <| .append (.cons hblank hlib) <|
    .cons hcomma <| .cons hblank <| .append (.of_all (by decide)) <| .cons hblank <|
    .append (.of_all (by decide)) <| .append hpositions (.of_all (by decide))

-- What the script reads in one piece of the output.
def Printed.readings (x : Printed) : List (Name × Name) :=
  parseCallbGetters (universalNewlines x.text)

theorem parse_append (x : Printed) (rest : Name) :
    parseCallbGetters (universalNewlines (x.text ++ rest)) =
      x.readings ++ parseCallbGetters (universalNewlines rest) := by
  have hends : ∃ body, x.text = body ++ ['\n'] := by
    cases x with
    | record r => exact ⟨'\n' :: r.line, rfl⟩
    | other text => exact ⟨text, rfl⟩
  obtain ⟨body, hbody⟩ := hends
  rw [Printed.readings, hbody, List.append_assoc, List.singleton_append]
  simp only [parseCallbGetters]
  rw [splitlines_read_append, List.filterMap_append]

theorem parse_pieces (log : List Printed) :
    parseCallbGetters (universalNewlines (log.flatMap Printed.text)) =
      log.flatMap Printed.readings := by
  induction log with
  | nil => rfl
  | cons x log ih => rw [List.flatMap_cons, parse_append, ih, List.flatMap_cons]

theorem readings_unbroken {r : GetterRecord} (h : Unbroken r.line) :
    (Printed.record r).readings = (itemPair r.line).toList := by
  have htext : (Printed.record r).text = [] ++ '\n' :: (r.line ++ ['\n']) := rfl
  have hempty : itemPair [] = none := by decide
  rw [Printed.readings, parseCallbGetters, htext, splitlines_read_append [] _,
    splitlines_read_line h, splitlines_read_line (by simp), List.filterMap_append,
    List.filterMap_cons_none hempty, List.filterMap_nil, List.nil_append]
  cases hpair : itemPair r.line with
  | none => rw [List.filterMap_cons_none hpair]; rfl
  | some p => rw [List.filterMap_cons_some hpair]; rfl

theorem readings_record {r : GetterRecord} (hr : r.Plain) :
    (Printed.record r).readings = r.pair?.toList := by
  have hbreak := line_no_break hr.item (fun c hc => (hr.lib c hc).2) fun p hp => (hr.digits p hp).2
  rw [readings_unbroken hbreak, itemPair_line hr]

theorem readings_other {text : Name} (h : (Printed.other text).Plain) :
    (Printed.other text).readings = [] := by
  refine List.filterMap_eq_nil_iff.mpr fun l hl => ?_
  rw [itemPair, h l hl]
  rfl

-- A name and a position as they are written to a line of the file.
structure Reading (p : Name × Name) : Prop where
  comma : ',' ∉ p.1
  newline : '\n' ∉ p.1
  ne_nil : p.2 ≠ []
  decimal : ∀ c ∈ p.2, isDecimal c = true

theorem mem_of_mem_strip {s : Name} {c : Char} (h : c ∈ strip s) : c ∈ s :=
  (List.dropWhile_suffix isBlank).subset ((List.rdropWhile_prefix isBlank _).subset h)

theorem expect_suffix {pre s t : Name} (h : expect pre s = some t) : t <:+ s := by
  rw [expect] at h
  split at h
  · cases h
    exact List.drop_suffix _ _
  · cases h

theorem upTo1_fst {c : Char} {s a b : Name} (h : upTo1 c s = some (a, b)) : a <+: s ∧ c ∉ a := by
  obtain ⟨hup, -⟩ := Option.filter_eq_some_iff.mp h
  rw [upTo] at hup
  split at hup
  · cases hup
    refine ⟨List.takeWhile_prefix _, fun hmem => ?_⟩
    have hne := List.mem_takeWhile_imp hmem
    simp at hne
  · cases hup

theorem itemMatch_item {line item positions : Name} (h : itemMatch line = some (item, positions)) :
    (∀ c ∈ item, c ∈ line) ∧ ',' ∉ item := by
  rw [itemMatch] at h
  obtain ⟨rest, hrest, h⟩ := Option.bind_eq_some_iff.mp h
  obtain ⟨⟨item', rest'⟩, hitem, h⟩ := Option.bind_eq_some_iff.mp h
  obtain ⟨hpre, hcomma⟩ := upTo1_fst hitem
  have heq : item' = item := by
    dsimp only at h
    obtain ⟨t₁, -, h⟩ := Option.bind_eq_some_iff.mp h
    obtain ⟨t₂, -, h⟩ := Option.bind_eq_some_iff.mp h
    obtain ⟨t₃, -, h⟩ := Option.bind_eq_some_iff.mp h
    obtain ⟨t₄, -, h⟩ := Option.bind_eq_some_iff.mp h
    obtain ⟨t₅, -, h⟩ := Option.bind_eq_some_iff.mp h
    split at h
    · cases h
      rfl
    · cases h
  subst heq
  exact ⟨fun c hc => (expect_suffix hrest).subset (hpre.subset hc), hcomma⟩

theorem extractFirstPosition_decimal {s num : Name} (h : extractFirstPosition s = some num) :
    num ≠ [] ∧ ∀ c ∈ num, isDecimal c = true := by
  unfold extractFirstPosition at h
  dsimp only at h
  split at h
  · cases h
  · rename_i hne
    cases h
    exact ⟨hne, fun c hc => List.mem_takeWhile_imp hc⟩

theorem itemPair_reading {line : Name} {p : Name × Name} (hline : Unbroken line)
    (h : itemPair line = some p) : Reading p := by
  rw [itemPair] at h
  obtain ⟨⟨group1, group3⟩, hmatch, h⟩ := Option.bind_eq_some_iff.mp h
  dsimp only at h
  split at h
  · cases h
  · obtain ⟨num, hnum, rfl⟩ := Option.map_eq_some_iff.mp h
    obtain ⟨hchars, hcomma⟩ := itemMatch_item hmatch
    obtain ⟨hne, hdecimal⟩ := extractFirstPosition_decimal hnum
    refine ⟨fun hmem => hcomma (mem_of_mem_strip hmem), fun hmem => ?_, hne, hdecimal⟩
    have hbreak := hline _ (mem_of_mem_strip (hchars _ (mem_of_mem_strip hmem)))
    exact absurd hbreak (by decide)

theorem readings_reading {x : Printed} {p : Name × Name} (h : p ∈ x.readings) : Reading p := by
  obtain ⟨l, hl, hpair⟩ := List.mem_filterMap.mp h
  exact itemPair_reading (linesBy_unbroken hl) hpair

theorem dropWhile_blank_comma (s t : Name) :
    (s ++ ',' :: t).dropWhile isBlank = s.dropWhile isBlank ++ ',' :: t := by
  induction s with
  | nil => exact List.dropWhile_cons_of_neg (by decide)
  | cons c s ih =>
    rw [List.cons_append, List.dropWhile_cons, List.dropWhile_cons, ih]
    split_ifs <;> rfl

theorem expect_comma {pre s t u : Name} (hpre : ',' ∉ pre) (h : expect pre (s ++ ',' :: t) = some u) :
    ∃ v, s = pre ++ v ∧ u = v ++ ',' :: t := by
  rw [expect] at h
  split at h
  · rename_i hprefix
    obtain ⟨z, hz⟩ := List.isPrefixOf_iff_prefix.mp hprefix
    rw [← hz, List.drop_left, Option.some_inj] at h
    subst h
    rcases List.append_eq_append_iff.mp hz with ⟨v, hs, hv⟩ | ⟨v, hs, hv⟩
    · exact ⟨v, hs, hv⟩
    · cases v with
      | nil => exact ⟨[], by rw [List.append_nil] at hs ⊢; exact hs.symm, hv.symm⟩
      | cons c v =>
        rw [List.cons_append] at hv
        obtain ⟨rfl, -⟩ := List.cons.inj hv
        exact absurd (by rw [hs]; simp) hpre
  · cases h

-- After a comma in the path, the pattern looks for the positions in the rest of the path.
theorem itemMatch_comma {r : GetterRecord} (hr : r.Proper) (hcomma : ',' ∈ r.lib)
    (hbrace : '\x7b' ∉ r.lib) : itemMatch r.line = none := by
  obtain ⟨a, b, hab, ha⟩ := List.eq_append_cons_of_mem hcomma
  have hitem : ',' ∉ ' ' :: r.item := by
    rw [List.mem_cons, not_or]
    exact ⟨by decide, not_mem_of_nameChars hr.item.chars (by decide)⟩
  have hlib : ',' ∉ ' ' :: a := by
    rw [List.mem_cons, not_or]
    exact ⟨by decide, ha⟩
  have hline : r.line = itemPhrase ++ ((' ' :: r.item) ++ ',' :: ' ' :: (libPhrase ++ ((' ' :: a) ++
      ',' :: (b ++ ',' :: ' ' :: (positionsPhrase ++ ' ' :: reprSet r.positions))))) := by
    rw [GetterRecord.line, hab]
    simp only [List.cons_append, List.append_assoc]
  rw [hline]
  simp only [itemMatch, expect_append, Option.bind_eq_bind, Option.bind_some,
    upTo1_append hitem (List.cons_ne_nil _ _), upTo1_append hlib (List.cons_ne_nil _ _),
    dropWhile_blank_word _ libPhrase_word, dropWhile_blank_comma]
  cases hpositions : expect positionsPhrase (b.dropWhile isBlank ++
      ',' :: ' ' :: (positionsPhrase ++ ' ' :: reprSet r.positions)) with
  | none => rfl
  | some u =>
    obtain ⟨v, hv, rfl⟩ := expect_comma (by decide) hpositions
    rw [Option.bind_some, dropWhile_blank_comma]
    cases hopen : expect openBrace (v.dropWhile isBlank ++
        ',' :: ' ' :: (positionsPhrase ++ ' ' :: reprSet r.positions)) with
    | none => rfl
    | some w =>
      obtain ⟨x, hx, -⟩ := expect_comma (by decide) hopen
      have hmem : '\x7b' ∈ v := (List.dropWhile_suffix isBlank).subset (hx ▸ List.mem_cons_self)
      have hmem' : '\x7b' ∈ b := (List.dropWhile_suffix isBlank).subset (by rw [hv]; simp [hmem])
      exact absurd (by rw [hab]; simp [hmem']) hbrace

theorem readings_comma {r : GetterRecord} (hr : r.Proper) (hcomma : ',' ∈ r.lib)
    (hbreak : ∀ c ∈ r.lib, isLineBreak c = false) (hbrace : '\x7b' ∉ r.lib) :
    (Printed.record r).readings = [] := by
  have hunbroken := line_no_break hr.item hbreak fun p hp => (hr.digits p hp).2
  rw [readings_unbroken hunbroken, itemPair, strip_tight (line_tight r),
    itemMatch_comma hr hcomma hbrace]
  rfl

end Platypus.Parser
