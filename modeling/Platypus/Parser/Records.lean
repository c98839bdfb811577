import Mathlib
import Platypus.Parser.Logs
import Platypus.Text.Phrases

-- The records that `FindDynSym` writes, and what `parse_dynsym` reads from them.

namespace Platypus.Parser

open Text

-- The characters of C names.
def isNameChar (c : Char) : Bool :=
  let n := c.toNat
  (48 ≤ n && n ≤ 57) || (65 ≤ n && n ≤ 90) || n == 95 || (97 ≤ n && n ≤ 122)

structure CName (n : Name) : Prop where
  ne_nil : n ≠ []
  chars : ∀ c ∈ n, isNameChar c = true
  head : ∀ c ∈ n.head?, c.isDigit = false

def decimal (i : Nat) : Name := Nat.toDigits 10 i

inductive Record
  | callArg (g f : Name) (arg_pos : Nat)
  | structStore (f struct : Name) (fieldIndex : Nat)
  | structGlobal (f struct : Name)
  | mayCome (g : Name) (arg_pos : Nat) (struct : Name)
  | argument (F : Name) (i : Nat) (callee struct : Name)
  deriving DecidableEq, Repr

namespace Record

-- The words of a record; the log has single blanks between them.
def words : Record → List Name
  | callArg g f arg_pos =>
    [g ++ ":".toList, f, "at".toList, "arg".toList, "index".toList, decimal arg_pos]
  | structStore f struct fieldIndex =>
    ["Possible".toList, "Struct".toList, "Callback:".toList, f, ":".toList,
      "struct.".toList ++ struct, ":".toList, decimal fieldIndex]
  | structGlobal f struct =>
    ["Possible".toList, "Struct".toList, "Callback".toList, "global:".toList, f, ":".toList,
      "struct.".toList ++ struct]
  | mayCome g arg_pos struct =>
    [g ++ ":".toList, "arg".toList, decimal arg_pos, ":".toList, "may".toList, "come".toList,
      "from".toList, "struct".toList, ":".toList, "struct.".toList ++ struct]
  | argument F i callee struct =>
    ["Argument".toList, "in".toList, "function".toList, F, decimal i, "to".toList, "call".toList,
      ":".toList, callee, ":".toList, struct]

def line (r : Record) : Name := phrase r.words

-- The names of a record are names of C.
def Named : Record → Prop
  | callArg g f _ => CName g ∧ CName f
  | structStore f struct _ => CName f ∧ CName struct
  | structGlobal f struct => CName f ∧ CName struct
  | mayCome g _ struct => CName g ∧ CName struct
  | argument F _ callee struct => CName F ∧ CName callee ∧ CName struct

-- The text before the first colon of an argument record.
def argumentKey (F : Name) (i : Nat) : Name :=
  phrase ["Argument".toList, "in".toList, "function".toList, F, decimal i, "to".toList, "call".toList]

end Record

-- The caller map with one more caller, callee and index.
def addCall (x : DynLog) (caller callee index : Name) : DynLog :=
  let info := (x.caller_to_info.get? caller).getD ⟨[], []⟩
  { x with
    caller_to_info := x.caller_to_info.set caller
      ⟨addMember info.callees callee, addMember info.indices index⟩ }

def renamed (caller : Name) : Name :=
  if caller = "atexit".toList then "__cxa_atexit".toList else caller

-- What the second pass makes of a record.
def Record.effect (lib_json : Dict Path Tag) (lib_dict : Dict Path (Dict Name Address))
    (reachable_structs : Dict Tag (List Name)) (x : DynLog) : Record → Option DynLog
  | .callArg g f arg_pos => some (addCall x (renamed g) f (decimal arg_pos))
  | .structStore f struct fieldIndex =>
    some (structLine reachable_structs x
      ["Possible Struct Callback".toList, f, "struct.".toList ++ struct, decimal fieldIndex])
  | .structGlobal f struct =>
    (globalLine lib_json lib_dict x
      ["Possible Struct Callback global".toList, f, "struct.".toList ++ struct]).map fun x =>
        structLine reachable_structs x
          ["Possible Struct Callback global".toList, f, "struct.".toList ++ struct]
  | .mayCome g arg_pos struct =>
    mayComeLine x [g, "arg ".toList ++ decimal arg_pos, "may come from struct".toList,
      "struct.".toList ++ struct]
  | .argument F i callee struct =>
    if struct = callee then none else some (addCall x (Record.argumentKey F i) callee struct)

section Characters

theorem isNameChar_visible {c : Char} (h : isNameChar c = true) : isBlank c = false := by
  unfold isNameChar at h
  unfold isBlank
  simp only [Bool.or_eq_true, Bool.and_eq_true, decide_eq_true_eq, beq_iff_eq] at h
  simp only [Bool.or_eq_false_iff, Bool.and_eq_false_iff, decide_eq_false_iff_not, beq_eq_false_iff_ne]
  omega

theorem isDigit_nameChar {c : Char} (h : c.isDigit = true) : isNameChar c = true := by
  have hbounds : 48 ≤ c.toNat ∧ c.toNat ≤ 57 := by
    rw [Char.isDigit, Bool.and_eq_true, decide_eq_true_eq, decide_eq_true_eq] at h
    exact ⟨UInt32.le_iff_toNat_le.mp h.1, UInt32.le_iff_toNat_le.mp h.2⟩
  unfold isNameChar
  simp only [Bool.or_eq_true, Bool.and_eq_true, decide_eq_true_eq, beq_iff_eq]
  omega

theorem not_mem_of_nameChars {n : Name} (h : ∀ c ∈ n, isNameChar c = true) {c : Char}
    (hc : isNameChar c = false) : c ∉ n := by
  intro hmem
  rw [h c hmem] at hc
  cases hc

theorem decimal_digits (i : Nat) : ∀ c ∈ decimal i, c.isDigit = true :=
  fun _ hc => Nat.isDigit_of_mem_toDigits (by decide) (by decide) hc

theorem decimal_chars (i : Nat) : ∀ c ∈ decimal i, isNameChar c = true :=
  fun c hc => isDigit_nameChar (decimal_digits i c hc)

theorem decimal_ne_nil (i : Nat) : decimal i ≠ [] := Nat.toDigits_ne_nil

theorem decimal_word (i : Nat) : Word (decimal i) :=
  ⟨decimal_ne_nil i, fun c hc => isNameChar_visible (decimal_chars i c hc)⟩

theorem decimal_head? (i : Nat) {c : Char} (hc : c.isDigit = false) : (decimal i).head? ≠ some c := by
  intro h
  rw [decimal_digits i c (List.mem_of_mem_head? h)] at hc
  cases hc

end Characters

namespace CName

variable {n : Name} (h : CName n)

include h

theorem word : Word n := ⟨h.ne_nil, fun c hc => isNameChar_visible (h.chars c hc)⟩

theorem no_colon : ':' ∉ n := not_mem_of_nameChars h.chars (by decide)

theorem ne_decimal (i : Nat) : decimal i ≠ n := by
  intro heq
  obtain ⟨c, rest, rfl⟩ := List.exists_cons_of_ne_nil h.ne_nil
  have hdigit := decimal_digits i c (heq ▸ List.mem_cons_self)
  rw [h.head c rfl] at hdigit
  cases hdigit

end CName

namespace Record

theorem word_append {s t : Name} (hs : ∀ c ∈ s, isBlank c = false) (ht : Word t) : Word (s ++ t) := by
  refine ⟨by simp [ht.1], fun c hc => ?_⟩
  rcases List.mem_append.mp hc with hc | hc
  · exact hs c hc
  · exact ht.2 c hc

theorem structDot_word : Word "struct.".toList := .of_all (by decide +kernel)

theorem words_word {r : Record} (h : r.Named) : ∀ w ∈ r.words, Word w := by
  have hlits : (["at", "arg", "index", "Possible", "Struct", "Callback", "Callback:", "global:",
      ":", "may", "come", "from", "struct", "Argument", "in", "function", "to", "call"].all fun s =>
      !s.toList.isEmpty && s.toList.all fun c => !isBlank c) = true := by
    decide +kernel
  have hlit := fun s hs => Word.of_all (List.all_eq_true.mp hlits s hs)
  have hstruct : ∀ c ∈ "struct.".toList, isBlank c = false := structDot_word.2
  cases r with
  | callArg g f i =>
    have hg := word_append h.1.word.2 (hlit ":" (by decide))
    simp only [words, List.forall_mem_cons, List.not_mem_nil, false_implies, implies_true, and_true]
    exact ⟨hg, h.2.word, hlit _ (by decide), hlit _ (by decide), hlit _ (by decide), decimal_word i⟩
  | structStore f struct k =>
    simp only [words, List.forall_mem_cons, List.not_mem_nil, false_implies, implies_true, and_true]
    exact ⟨hlit _ (by decide), hlit _ (by decide), hlit _ (by decide), h.1.word, hlit _ (by decide),
      word_append hstruct h.2.word, hlit _ (by decide), decimal_word k⟩
  | structGlobal f struct =>
    simp only [words, List.forall_mem_cons, List.not_mem_nil, false_implies, implies_true, and_true]
    exact ⟨hlit _ (by decide), hlit _ (by decide), hlit _ (by decide), hlit _ (by decide), h.1.word,
      hlit _ (by decide), word_append hstruct h.2.word⟩
  | mayCome g i struct =>
    have hg := word_append h.1.word.2 (hlit ":" (by decide))
    simp only [words, List.forall_mem_cons, List.not_mem_nil, false_implies, implies_true, and_true]
    exact ⟨hg, hlit _ (by decide), decimal_word i, hlit _ (by decide), hlit _ (by decide),
      hlit _ (by decide), hlit _ (by decide), hlit _ (by decide), hlit _ (by decide),
      word_append hstruct h.2.word⟩
  | argument F i callee struct =>
    simp only [words, List.forall_mem_cons, List.not_mem_nil, false_implies, implies_true, and_true]
    exact ⟨hlit _ (by decide), hlit _ (by decide), hlit _ (by decide), h.1.word, decimal_word i,
      hlit _ (by decide), hlit _ (by decide), hlit _ (by decide), h.2.1.word, hlit _ (by decide),
      h.2.2.word⟩

theorem words_ne_nil (r : Record) : r.words ≠ [] := by
  cases r <;> exact List.cons_ne_nil _ _

theorem line_strip {r : Record} (h : r.Named) : strip r.line = r.line :=
  strip_tight (phrase_tight r.words_ne_nil (words_word h))

theorem colon_mem_line (r : Record) : ':' ∈ r.line := by
  cases r <;> simp [line, words, phrase]

-- The phrases by which `parse_dynsym` tells the records apart.

theorem line_phi {r : Record} (h : r.Named) : contains r.line "phi incoming".toList = false := by
  have hdigit : ∀ i, (decimal i).head? ≠ some 'i' := fun i => decimal_head? i (by decide)
  refine not_contains_phrase (u := "phi".toList) (v := "incoming".toList) (by decide) (by decide)
    (by decide) r.words (words_word h) ?_
  cases r <;> simp [words, hdigit]

theorem line_possible {r : Record} (h : r.Named) :
    contains r.line "Possible Struct Callback".toList =
      (r matches .structStore .. || r matches .structGlobal ..) := by
  have hdigit : ∀ i, (decimal i).head? ≠ some 'S' := fun i => decimal_head? i (by decide)
  have hnot := not_contains_phrase (u := "Possible".toList) (v := "Struct Callback".toList) (by decide)
      (by decide) (by decide) r.words (words_word h)
  cases r with
  | callArg g f i => exact hnot (by simp [words])
  | mayCome g i struct => exact hnot (by simp [words])
  | argument F i callee struct => exact hnot (by simp [words, hdigit])
  | structStore f struct k =>
    refine contains_iff.mpr (List.IsPrefix.isInfix ?_)
    exact ⟨_, rfl⟩
  | structGlobal f struct =>
    refine contains_iff.mpr (List.IsPrefix.isInfix ?_)
    exact ⟨_, rfl⟩

theorem line_may {r : Record} (h : r.Named) (hstruct : (r matches .structStore .. || r matches .structGlobal ..) = false) :
    contains r.line "may come from struct".toList = (r matches .mayCome ..) := by
  have hdigit : ∀ i, (decimal i).head? ≠ some 'c' := fun i => decimal_head? i (by decide)
  have hnot := not_contains_phrase (u := "may".toList) (v := "come from struct".toList) (by decide)
      (by decide) (by decide) r.words (words_word h)
  cases r with
  | callArg g f i => exact hnot (by simp [words])
  | argument F i callee struct => exact hnot (by simp [words, hdigit])
  | mayCome g i struct =>
    refine contains_iff.mpr ⟨g ++ ": arg ".toList ++ decimal i ++ " : ".toList,
      " : struct.".toList ++ struct, ?_⟩
    simp [line, words, phrase]
  | structStore f struct k => cases hstruct
  | structGlobal f struct => cases hstruct

theorem line_global {r : Record} (h : r.Named) :
    "Possible Struct Callback global:".toList.isPrefixOf r.line = (r matches .structGlobal ..) := by
  have hother : (r matches .structStore .. || r matches .structGlobal ..) = false →
      "Possible Struct Callback global:".toList.isPrefixOf r.line = false := by
    intro hstruct
    rw [← line_possible h] at hstruct
    rw [← Bool.not_eq_true, List.isPrefixOf_iff_prefix]
    intro hprefix
    have hinfix : "Possible Struct Callback".toList <:+: r.line :=
      List.IsPrefix.isInfix (List.IsPrefix.trans ⟨" global:".toList, rfl⟩ hprefix)
    rw [contains_iff.mpr hinfix] at hstruct
    cases hstruct
  cases r with
  | structStore f struct k => rfl
  | structGlobal f struct => exact List.isPrefixOf_iff_prefix.mpr ⟨_, rfl⟩
  | _ => exact hother rfl

-- The parts of the records that are split at the colons.

theorem decimal_no_colon (i : Nat) : ':' ∉ decimal i := not_mem_of_nameChars (decimal_chars i) (by decide)

theorem struct_no_colon {struct : Name} (h : CName struct) : ':' ∉ "struct.".toList ++ struct := by
  rw [List.mem_append, not_or]
  exact ⟨by decide, h.no_colon⟩

theorem struct_tight {struct : Name} (h : CName struct) : Tight ("struct.".toList ++ struct) :=
  (word_append structDot_word.2 h.word).tight

theorem fields_structStore {f struct : Name} (k : Nat) (hf : CName f) (hs : CName struct) :
    fields ':' (structStore f struct k).line =
      ["Possible Struct Callback".toList, f, "struct.".toList ++ struct, decimal k] := by
  have hline : (structStore f struct k).line = "Possible Struct Callback".toList ++ ':' ::
      ((' ' :: (f ++ [' '])) ++ ':' :: ((' ' :: (("struct.".toList ++ struct) ++ [' '])) ++ ':' ::
        (' ' :: decimal k))) := by
    simp [line, words, phrase]
  have hhead : Tight "Possible Struct Callback".toList :=
    ⟨⟨'P', "ossible Struct Callback".toList, rfl, by decide⟩, "Possible Struct Callbac".toList, 'k', rfl,
      by decide⟩
  rw [hline, fields_cons (by decide), fields_cons (by simp [hf.no_colon]),
    fields_cons (by simpa using struct_no_colon hs), fields_singleton (by simp [decimal_no_colon]),
    strip_tight hhead, strip_between hf.word.tight, strip_between (struct_tight hs),
    strip_after (decimal_word k).tight]

theorem fields_structGlobal {f struct : Name} (hf : CName f) (hs : CName struct) :
    fields ':' (structGlobal f struct).line =
      ["Possible Struct Callback global".toList, f, "struct.".toList ++ struct] := by
  have hline : (structGlobal f struct).line = "Possible Struct Callback global".toList ++ ':' ::
      ((' ' :: (f ++ [' '])) ++ ':' :: (' ' :: ("struct.".toList ++ struct))) := by
    simp [line, words, phrase]
  have hhead : Tight "Possible Struct Callback global".toList :=
    ⟨⟨'P', "ossible Struct Callback global".toList, rfl, by decide⟩,
      "Possible Struct Callback globa".toList, 'l', rfl, by decide⟩
  rw [hline, fields_cons (by decide), fields_cons (by simp [hf.no_colon]),
    fields_singleton (by simpa using struct_no_colon hs), strip_tight hhead,
    strip_between hf.word.tight, strip_after (struct_tight hs)]

theorem fields_mayCome {g struct : Name} (i : Nat) (hg : CName g) (hs : CName struct) :
    fields ':' (mayCome g i struct).line =
      [g, "arg ".toList ++ decimal i, "may come from struct".toList, "struct.".toList ++ struct] := by
  have hline : (mayCome g i struct).line = g ++ ':' ::
      ((' ' :: (("arg ".toList ++ decimal i) ++ [' '])) ++ ':' ::
        ((' ' :: ("may come from struct".toList ++ [' '])) ++ ':' ::
          (' ' :: ("struct.".toList ++ struct)))) := by
    simp [line, words, phrase]
  have harg : Tight ("arg ".toList ++ decimal i) := by
    obtain ⟨-, init, c, hlast, hvisible⟩ := (decimal_word i).tight
    exact ⟨⟨'a', "rg ".toList ++ decimal i, rfl, by decide⟩, "arg ".toList ++ init, c,
      by rw [hlast, List.append_assoc], hvisible⟩
  have hmay : Tight "may come from struct".toList :=
    ⟨⟨'m', "ay come from struct".toList, rfl, by decide⟩, "may come from struc".toList, 't', rfl, by decide⟩
  rw [hline, fields_cons hg.no_colon, fields_cons (by simp [decimal_no_colon]),
    fields_cons (by decide), fields_singleton (by simpa using struct_no_colon hs),
    strip_tight hg.word.tight, strip_between harg, strip_between hmay, strip_after (struct_tight hs)]

-- The records that are read as a caller, its callee and an index.

theorem callLine_callArg (x : DynLog) {g f : Name} (i : Nat) (hg : CName g) (hf : CName f) :
    callLine x (callArg g f i).line = some (addCall x (renamed g) f (decimal i)) := by
  have hline : (callArg g f i).line = g ++ ':' :: (' ' ::
      phrase [f, "at".toList, "arg".toList, "index".toList, decimal i]) := by
    simp [line, words, phrase]
  have hwords := words_word (r := callArg g f i) ⟨hg, hf⟩
  have htail : ∀ w ∈ [f, "at".toList, "arg".toList, "index".toList, decimal i], Word w :=
    fun w hw => hwords w (List.mem_cons_of_mem _ hw)
  have hsplit : Text.words (phrase [f, "at".toList, "arg".toList, "index".toList, decimal i]) =
      [f, "at".toList, "arg".toList, "index".toList, decimal i] := by
    rw [phrase, words_cons hf.word, phrase, words_cons (htail _ (by simp)), phrase,
      words_cons (htail _ (by simp)), phrase, words_cons (htail _ (by simp)), phrase,
      words_singleton (decimal_word i)]
  unfold callLine
  rw [hline, splitFirst_cons hg.no_colon]
  dsimp only
  rw [strip_after (phrase_tight (List.cons_ne_nil _ _) htail), hsplit, strip_tight hg.word.tight]
  exact if_neg (hf.ne_decimal i)

theorem callLine_argument (x : DynLog) {F callee struct : Name} (i : Nat) (hF : CName F)
    (hcallee : CName callee) (hstruct : CName struct) :
    callLine x (argument F i callee struct).line =
      if struct = callee then none else some (addCall x (argumentKey F i) callee struct) := by
  have hline : (argument F i callee struct).line = (argumentKey F i ++ [' ']) ++ ':' :: (' ' ::
      phrase [callee, ":".toList, struct]) := by
    simp [line, words, argumentKey, phrase]
  have hwords := words_word (r := argument F i callee struct) ⟨hF, hcallee, hstruct⟩
  have hkey : Tight (argumentKey F i) :=
    phrase_tight (List.cons_ne_nil _ _) fun w hw => hwords w (List.mem_append_left _ hw)
  have hcolon : ':' ∉ argumentKey F i ++ [' '] := by
    simp [argumentKey, phrase, hF.no_colon, decimal_no_colon]
  have htail : ∀ w ∈ [callee, ":".toList, struct], Word w := fun w hw =>
    hwords w (List.mem_append_right ["Argument".toList, "in".toList, "function".toList, F, decimal i,
      "to".toList, "call".toList, ":".toList] hw)
  have hsplit : Text.words (phrase [callee, ":".toList, struct]) = [callee, ":".toList, struct] := by
    rw [phrase, words_cons hcallee.word, phrase, words_cons (htail _ (by simp)), phrase,
      words_singleton hstruct.word]
  have hname : argumentKey F i ≠ "atexit".toList := by
    intro heq
    have hhead : some 'A' = some 'a' := congrArg List.head? heq
    exact absurd hhead (by decide)
  unfold callLine
  rw [hline, splitFirst_cons hcolon]
  dsimp only
  rw [strip_after (phrase_tight (List.cons_ne_nil _ _) htail), hsplit, strip_before hkey, if_neg hname]
  exact ite_congr rfl (fun _ => rfl) fun _ => rfl

end Record

-- The second pass reads each record as its effect says.
theorem dynLine_line (lib_json : Dict Path Tag) (lib_dict : Dict Path (Dict Name Address))
    (reachable_structs : Dict Tag (List Name)) (x : DynLog) {r : Record} (h : r.Named) :
    dynLine lib_json lib_dict reachable_structs x r.line =
      r.effect lib_json lib_dict reachable_structs x := by
  have hpossible := Record.line_possible h
  have hmay := Record.line_may h
  have hglobal := Record.line_global h
  unfold dynLine
  rw [Record.line_strip h]
  dsimp only
  rw [if_neg (by rw [Record.line_phi h]; simp [Record.colon_mem_line]), hpossible, hglobal]
  cases r with
  | callArg g f i =>
    rw [hmay rfl]
    simp only [Bool.or_self, Bool.false_eq_true, if_false, Option.bind_eq_bind, Option.bind_some]
    exact Record.callLine_callArg x i h.1 h.2
  | structStore f struct k =>
    rw [Record.fields_structStore k h.1 h.2]
    rfl
  | structGlobal f struct =>
    rw [Record.fields_structGlobal h.1 h.2]
    rw [Record.effect, Option.map_eq_bind]
    rfl
  | mayCome g i struct =>
    rw [hmay rfl, Record.fields_mayCome i h.1 h.2]
    rfl
  | argument F i callee struct =>
    rw [hmay rfl]
    simp only [Bool.or_self, Bool.false_eq_true, if_false, Option.bind_eq_bind, Option.bind_some]
    exact Record.callLine_argument x i h.1 h.2.1 h.2.2

-- What the records say: callers with their callees and indices.
def Record.entries : Record → List (Name × Name × Name)
  | .callArg g f arg_pos => [(renamed g, f, decimal arg_pos)]
  | .argument F i callee struct => [(argumentKey F i, callee, struct)]
  | _ => []

def calleesOf (d : Dict Name CallInfo) (caller : Name) : CallInfo := (d.get? caller).getD ⟨[], []⟩

-- The map has exactly the callers, callees and indices of the entries.
structure Collects (d : Dict Name CallInfo) (es : List (Name × Name × Name)) : Prop where
  callers : ∀ caller, caller ∈ d.keys ↔ ∃ callee index, (caller, callee, index) ∈ es
  callees : ∀ caller callee, callee ∈ (calleesOf d caller).callees ↔ ∃ index, (caller, callee, index) ∈ es
  indices : ∀ caller index, index ∈ (calleesOf d caller).indices ↔ ∃ callee, (caller, callee, index) ∈ es

def Called (d : Dict Tag (List Name)) (dso : Tag) (f : Name) : Prop := f ∈ (d.get? dso).getD []

theorem mem_addMember {xs : List Name} {x y : Name} : y ∈ addMember xs x ↔ y ∈ xs ∨ y = x := by
  unfold addMember
  split_ifs with h
  · constructor
    · exact .inl
    · rintro (hy | rfl)
      · exact hy
      · exact h
  · simp

theorem calleesOf_addCall_self (x : DynLog) (caller callee index : Name) :
    calleesOf (addCall x caller callee index).caller_to_info caller =
      ⟨addMember (calleesOf x.caller_to_info caller).callees callee,
        addMember (calleesOf x.caller_to_info caller).indices index⟩ := by
  unfold calleesOf addCall Dict.get? Dict.set
  dsimp only
  rw [Dict.find_put_self]
  rfl

theorem calleesOf_addCall_of_ne (x : DynLog) {c caller : Name} (callee index : Name)
    (hc : c ≠ caller) :
    calleesOf (addCall x caller callee index).caller_to_info c = calleesOf x.caller_to_info c := by
  unfold calleesOf addCall
  dsimp only
  rw [Dict.get?_set_of_ne _ _ hc]

theorem Collects.add {x : DynLog} {es : List (Name × Name × Name)} (h : Collects x.caller_to_info es)
    (caller callee index : Name) :
    Collects (addCall x caller callee index).caller_to_info (es ++ [(caller, callee, index)]) := by
  constructor
  · intro c
    have hkeys : c ∈ (addCall x caller callee index).caller_to_info.keys ↔
        c = caller ∨ c ∈ x.caller_to_info.keys := by
      unfold addCall
      exact Dict.mem_keys_set _ _ _ _
    rw [hkeys, h.callers c]
    simp only [List.mem_append, List.mem_singleton, Prod.mk.injEq]
    constructor
    · rintro (rfl | ⟨f, i, hmem⟩)
      · exact ⟨callee, index, .inr ⟨rfl, rfl, rfl⟩⟩
      · exact ⟨f, i, .inl hmem⟩
    · rintro ⟨f, i, hmem | ⟨rfl, -, -⟩⟩
      · exact .inr ⟨f, i, hmem⟩
      · exact .inl rfl
  · intro c f
    simp only [List.mem_append, List.mem_singleton, Prod.mk.injEq, exists_or]
    by_cases hc : c = caller
    · subst hc
      rw [calleesOf_addCall_self, mem_addMember, h.callees]
      simp
    · rw [calleesOf_addCall_of_ne _ _ _ hc, h.callees]
      simp [hc]
  · intro c i
    simp only [List.mem_append, List.mem_singleton, Prod.mk.injEq, exists_or]
    by_cases hc : c = caller
    · subst hc
      rw [calleesOf_addCall_self, mem_addMember, h.indices]
      simp
    · rw [calleesOf_addCall_of_ne _ _ _ hc, h.indices]
      simp [hc]

theorem addOnce_eq (d : Dict Name (List Name)) (key x : Name) :
    addOnce d key x = d.insertOnce key x := by
  unfold addOnce Dict.insertOnce
  cases d.get? key with
  | none => rfl
  | some xs => by_cases h : x ∈ xs <;> simp [h]

theorem called_addOnce_iff {d : Dict Tag (List Name)} {key dso : Tag} {x f : Name} :
    Called (addOnce d key x) dso f ↔ Called d dso f ∨ key = dso ∧ f = x := by
  rw [addOnce_eq]
  exact d.mem_insertOnce key dso x f

theorem called_foldl_iff {d : Dict Tag (List Name)} (f : Name) (dsos : List Tag) {dso : Tag}
    {x : Name} :
    Called (dsos.foldl (fun d dso => addOnce d dso f) d) dso x ↔
      Called d dso x ∨ x = f ∧ dso ∈ dsos := by
  induction dsos generalizing d with
  | nil => simp
  | cons key dsos ih =>
    rw [List.foldl_cons, ih, called_addOnce_iff, List.mem_cons]
    constructor
    · rintro ((h | ⟨rfl, rfl⟩) | ⟨rfl, hmem⟩)
      · exact .inl h
      · exact .inr ⟨rfl, .inl rfl⟩
      · exact .inr ⟨rfl, .inr hmem⟩
    · rintro (h | ⟨rfl, rfl | hmem⟩)
      · exact .inl (.inl h)
      · exact .inl (.inr ⟨rfl, rfl⟩)
      · exact .inr ⟨rfl, hmem⟩

-- The struct under which a record's function is looked for among the reachable structs. For a
-- global the part before the last is the function itself.
def Record.callback : Record → Option (Name × Name)
  | .structStore f struct _ => some (f, struct)
  | .structGlobal f _ => some (f, f)
  | _ => none

def Reaches (reachable_structs : Dict Tag (List Name)) (dso : Tag) (struct : Name) : Prop :=
  ∃ structs, reachable_structs.get? dso = some structs ∧ struct ∈ structs

-- What a step of the second pass brings about.
structure StepOk (reachable_structs : Dict Tag (List Name)) (rs : List Record) (x x' : DynLog) :
    Prop where
  collects : ∀ es, Collects x.caller_to_info es →
    Collects x'.caller_to_info (es ++ rs.flatMap Record.entries)
  called : ∀ dso f, Called x'.struct_callbacks dso f ↔ Called x.struct_callbacks dso f ∨
    ∃ r ∈ rs, ∃ struct, r.callback = some (f, struct) ∧ Reaches reachable_structs dso struct

section Steps

variable {lib_json : Dict Path Tag} {lib_dict : Dict Path (Dict Name Address)}
  {reachable_structs : Dict Tag (List Name)}

theorem mem_dsos_iff (reachable_structs : Dict Tag (List Name)) (struct : Name) (dso : Tag) :
    dso ∈ (reachable_structs.entries.filter fun e => struct ∈ e.2).map Prod.fst ↔
      Reaches reachable_structs dso struct := by
  rw [List.mem_map]
  constructor
  · rintro ⟨⟨dso, structs⟩, hmem, rfl⟩
    obtain ⟨hentry, hstruct⟩ := List.mem_filter.mp hmem
    exact ⟨structs, Dict.get?_of_mem _ hentry, of_decide_eq_true hstruct⟩
  · rintro ⟨structs, hget, hmem⟩
    exact ⟨(dso, structs), List.mem_filter.mpr ⟨Dict.mem_of_get? _ hget, decide_eq_true hmem⟩, rfl⟩

theorem structLine_callbacks (reachable_structs : Dict Tag (List Name)) (x : DynLog)
    (parts : List Name) {f struct : Name} (hf : parts.getD 1 [] = f)
    (hstruct : removePrefix "struct.".toList ((nextToLast parts).getD []) = struct) (dso : Tag)
    (g : Name) :
    Called (structLine reachable_structs x parts).struct_callbacks dso g ↔
      Called x.struct_callbacks dso g ∨ g = f ∧ Reaches reachable_structs dso struct := by
  unfold structLine
  dsimp only
  rw [hf, hstruct, called_foldl_iff, mem_dsos_iff]

theorem removePrefix_struct (struct : Name) :
    removePrefix "struct.".toList ("struct.".toList ++ struct) = struct := by
  rw [removePrefix, if_pos (List.isPrefixOf_iff_prefix.mpr (List.prefix_append _ _)), List.drop_left]

theorem removePrefix_name {f : Name} (hf : CName f) : removePrefix "struct.".toList f = f := by
  rw [removePrefix, if_neg]
  intro h
  have hdot : '.' ∈ f := (List.isPrefixOf_iff_prefix.mp h).subset (by decide)
  exact not_mem_of_nameChars hf.chars (by decide) hdot

variable (hlibs : ∀ e ∈ lib_dict.entries, ∃ tag, lib_json.get? e.1 = some tag)

include hlibs in
theorem globalLine_ok (x : DynLog) (f struct : Name) :
    ∃ x', globalLine lib_json lib_dict x
        ["Possible Struct Callback global".toList, f, "struct.".toList ++ struct] = some x' ∧
      x'.caller_to_info = x.caller_to_info ∧ x'.struct_callbacks = x.struct_callbacks := by
  unfold globalLine
  have hlast : nextToLast ["Possible Struct Callback global".toList, f, "struct.".toList ++ struct] =
      some f := rfl
  rw [hlast]
  dsimp only [Option.bind_eq_bind, Option.bind_some]
  cases hfind : lib_dict.entries.find? fun e => f ∈ e.2.keys with
  | none => exact ⟨x, rfl, rfl, rfl⟩
  | some e =>
    obtain ⟨tag, htag⟩ := hlibs e (List.mem_of_find?_eq_some hfind)
    obtain ⟨lib, symbols⟩ := e
    dsimp only
    rw [htag]
    exact ⟨_, rfl, rfl, rfl⟩

theorem mayComeLine_ok (x : DynLog) (g struct : Name) (i : Nat) :
    ∃ x', mayComeLine x [g, "arg ".toList ++ decimal i, "may come from struct".toList,
        "struct.".toList ++ struct] = some x' ∧
      x'.caller_to_info = x.caller_to_info ∧ x'.struct_callbacks = x.struct_callbacks := by
  have hwords : words ("arg ".toList ++ decimal i) = ["arg".toList, decimal i] := by
    have harg : Word "arg".toList := .of_all (by decide +kernel)
    exact (words_cons harg (decimal i)).trans (congrArg _ (words_singleton (decimal_word i)))
  unfold mayComeLine
  have hpart : [g, "arg ".toList ++ decimal i, "may come from struct".toList,
      "struct.".toList ++ struct].getD 1 [] = "arg ".toList ++ decimal i := rfl
  rw [hpart, hwords]
  exact ⟨_, rfl, rfl, rfl⟩

-- A record without a function of a struct.
theorem StepOk.call {r : Record} {x x' : DynLog} (hcallback : r.callback = none)
    (hcollects : ∀ es, Collects x.caller_to_info es → Collects x'.caller_to_info (es ++ r.entries))
    (hsame : x'.struct_callbacks = x.struct_callbacks) : StepOk reachable_structs [r] x x' where
  collects es hes := by
    rw [List.flatMap_singleton]
    exact hcollects es hes
  called dso f := by
    rw [hsame]
    simp [hcallback]

-- A record with one.
theorem StepOk.callback {r : Record} {x x' : DynLog} {f struct : Name}
    (hcallback : r.callback = some (f, struct)) (hentries : r.entries = [])
    (hsame : x'.caller_to_info = x.caller_to_info)
    (hcalled : ∀ dso g, Called x'.struct_callbacks dso g ↔
      Called x.struct_callbacks dso g ∨ g = f ∧ Reaches reachable_structs dso struct) :
    StepOk reachable_structs [r] x x' where
  collects es hes := by
    rw [List.flatMap_singleton, hentries, List.append_nil, hsame]
    exact hes
  called dso g := by
    rw [hcalled]
    refine or_congr_right ⟨?_, ?_⟩
    · rintro ⟨rfl, hreach⟩
      exact ⟨r, List.mem_singleton_self r, struct, hcallback, hreach⟩
    · rintro ⟨r', hr', struct', hcallback', hreach⟩
      cases List.mem_singleton.mp hr'
      cases hcallback.symm.trans hcallback'
      exact ⟨rfl, hreach⟩

include hlibs in
theorem effect_step {x x' : DynLog} {r : Record} (h : r.Named)
    (heffect : r.effect lib_json lib_dict reachable_structs x = some x') :
    StepOk reachable_structs [r] x x' := by
  cases r with
  | callArg g f i =>
    cases heffect
    exact .call rfl (fun es hes => hes.add _ _ _) rfl
  | argument F i callee struct =>
    rw [Record.effect] at heffect
    split at heffect
    · cases heffect
    · cases heffect
      exact .call rfl (fun es hes => hes.add _ _ _) rfl
  | mayCome g i struct =>
    obtain ⟨x₁, heq, hinfo, hcalled⟩ := mayComeLine_ok x g struct i
    cases heq.symm.trans heffect
    refine .call rfl (fun es hes => ?_) hcalled
    rw [hinfo]
    exact (List.append_nil es).symm ▸ hes
  | structStore f struct k =>
    cases heffect
    exact .callback rfl rfl rfl (structLine_callbacks reachable_structs x
      ["Possible Struct Callback".toList, f, "struct.".toList ++ struct, decimal k] rfl
      (removePrefix_struct struct))
  | structGlobal f struct =>
    obtain ⟨x₁, heq, hinfo, hsame⟩ := globalLine_ok hlibs x f struct
    rw [Record.effect, heq] at heffect
    cases heffect
    have hcalled := structLine_callbacks reachable_structs x₁
      ["Possible Struct Callback global".toList, f, "struct.".toList ++ struct] rfl
      (removePrefix_name h.1)
    rw [hsame] at hcalled
    exact .callback rfl rfl hinfo hcalled

-- Only an argument record can stop the parser.
variable (reachable_structs) in
include hlibs in
theorem effect_isSome (x : DynLog) {r : Record} (hargument : ∀ F i callee struct, r ≠ .argument F i callee struct) :
    ∃ x', r.effect lib_json lib_dict reachable_structs x = some x' := by
  cases r with
  | callArg g f i => exact ⟨_, rfl⟩
  | argument F i callee struct => exact absurd rfl (hargument F i callee struct)
  | mayCome g i struct =>
    obtain ⟨x₁, heq, -⟩ := mayComeLine_ok x g struct i
    exact ⟨x₁, heq⟩
  | structStore f struct k => exact ⟨_, rfl⟩
  | structGlobal f struct =>
    obtain ⟨x₁, heq, -⟩ := globalLine_ok hlibs x f struct
    exact ⟨_, by rw [Record.effect, heq]; rfl⟩

theorem StepOk.trans {x x₁ x₂ : DynLog} {r : Record} {rs : List Record}
    (h : StepOk reachable_structs [r] x x₁) (h' : StepOk reachable_structs rs x₁ x₂) :
    StepOk reachable_structs (r :: rs) x x₂ where
  collects es hes := by
    have hall := h'.collects _ (h.collects es hes)
    rwa [List.flatMap_singleton, List.append_assoc, ← List.flatMap_cons] at hall
  called dso f := by
    rw [h'.called, h.called, or_assoc]
    simp only [List.mem_cons, List.not_mem_nil, or_false, exists_eq_or_imp, exists_eq_left]

include hlibs in
theorem trace_step {rs : List Record} (hnamed : ∀ r ∈ rs, r.Named) {x x' : DynLog}
    (h : State.trace (dynLine lib_json lib_dict reachable_structs) x (rs.map Record.line) = some x') :
    StepOk reachable_structs rs x x' := by
  induction rs generalizing x with
  | nil =>
    cases h
    exact ⟨fun es hes => (List.append_nil es).symm ▸ hes, by simp⟩
  | cons r rs ih =>
    obtain ⟨x₁, hr, hrs⟩ := Option.bind_eq_some_iff.mp h
    rw [dynLine_line _ _ _ _ (hnamed r List.mem_cons_self)] at hr
    exact (effect_step hlibs (hnamed r List.mem_cons_self) hr).trans
      (ih (fun r hr => hnamed r (List.mem_cons_of_mem _ hr)) hrs)

variable (reachable_structs) in
include hlibs in
theorem trace_isSome {rs : List Record} (hnamed : ∀ r ∈ rs, r.Named)
    (hargument : ∀ F i callee struct, .argument F i callee struct ∉ rs) (x : DynLog) :
    ∃ x', State.trace (dynLine lib_json lib_dict reachable_structs) x (rs.map Record.line) =
      some x' := by
  induction rs generalizing x with
  | nil => exact ⟨x, rfl⟩
  | cons r rs ih =>
    obtain ⟨x₁, heffect⟩ := effect_isSome reachable_structs hlibs x
      (r := r) fun F i callee struct hr => hargument F i callee struct (hr ▸ List.mem_cons_self)
    obtain ⟨x₂, htrace⟩ := ih (fun r hr => hnamed r (List.mem_cons_of_mem _ hr))
      (fun F i callee struct hr => hargument F i callee struct (List.mem_cons_of_mem _ hr)) x₁
    refine ⟨x₂, ?_⟩
    rw [List.map_cons, State.trace, dynLine_line _ _ _ _ (hnamed r List.mem_cons_self), heffect]
    exact htrace

end Steps

-- The first pass looks at the part before the last only.

theorem two_le_fields {sep : Char} {s : List Char} (h : sep ∈ s) : 2 ≤ (fields sep s).length := by
  obtain ⟨xs, ys, rfl, hxs⟩ := List.eq_append_cons_of_mem h
  rw [fields_cons hxs, List.length_cons]
  have hne : fields sep ys ≠ [] := by
    rw [fields, Ne, List.map_eq_nil_iff]
    exact List.splitOnP_ne_nil _ _
  have := List.length_pos_iff.mpr hne
  omega

theorem argumentLine_ok (lib_dict : Dict Path (Dict Name Address)) (d : Dict Name Uses) {r : Record}
    (h : r.Named) : ∃ d', argumentLine lib_dict d r.line = some d' := by
  unfold argumentLine
  rw [Record.line_strip h]
  dsimp only
  split_ifs
  · exact ⟨d, rfl⟩
  · have hlength := two_le_fields r.colon_mem_line
    obtain ⟨callee, hcallee⟩ : ∃ callee, nextToLast (fields ':' r.line) = some callee := by
      refine ⟨_, List.getElem?_eq_getElem ?_⟩
      rw [List.length_reverse]
      omega
    rw [hcallee]
    dsimp only [Option.bind_eq_bind, Option.bind_some]
    cases lib_dict.entries.find? fun e => callee ∈ e.2.keys with
    | none => exact ⟨d, rfl⟩
    | some e => exact ⟨_, rfl⟩
  · exact ⟨d, rfl⟩

theorem argumentLines_ok (lib_dict : Dict Path (Dict Name Address)) (rs : List Record)
    (hnamed : ∀ r ∈ rs, r.Named) (d : Dict Name Uses) :
    ∃ d', argumentLines lib_dict d (rs.map Record.line) = some d' := by
  have htrace : ∃ d', State.trace (argumentLine lib_dict) d (rs.map Record.line) = some d' := by
    induction rs generalizing d with
    | nil => exact ⟨d, rfl⟩
    | cons r rs ih =>
      obtain ⟨d₁, hd₁⟩ := argumentLine_ok lib_dict d (hnamed r List.mem_cons_self)
      obtain ⟨d₂, hd₂⟩ := ih (fun r hr => hnamed r (List.mem_cons_of_mem _ hr)) d₁
      refine ⟨d₂, ?_⟩
      rw [List.map_cons, State.trace, hd₁]
      exact hd₂
  obtain ⟨d', hd'⟩ := htrace
  exact ⟨_, by rw [argumentLines, hd']; rfl⟩

theorem Logs.lib_dict_tags (l : Logs) : ∀ e ∈ l.lib_dict.entries, ∃ tag, l.lib_json.get? e.1 = some tag := by
  intro e he
  obtain ⟨⟨path, tag⟩, hmem, rfl⟩ := List.mem_map.mp he
  exact ⟨tag, Dict.get?_of_mem _ hmem⟩

theorem collects_nil : Collects .empty [] where
  callers caller := by simp [Dict.empty, Dict.keys]
  callees caller callee := by simp [calleesOf, Dict.empty, Dict.get?, Dict.find]
  indices caller index := by simp [calleesOf, Dict.empty, Dict.get?, Dict.find]

-- What a record says: a caller with a callee and an index, or a function and its struct.

def Record.call : Record → List (Name × Name × Name)
  | .callArg g f arg_pos => [(g, f, decimal arg_pos)]
  | _ => []

def Record.member : Record → Option (Name × Name)
  | .structStore f struct _ => some (f, struct)
  | .structGlobal f struct => some (f, struct)
  | _ => none

-- The log is read without an error, and gives back what its records say.
structure Logs.Recovers (l : Logs) (rs : List Record) : Prop where
  arguments : ∃ d, argumentLines l.lib_dict l.symLog.STRUCTS_USED_BY_CBGs l.dynsym = some d
  recovered : ∃ x, l.dynLog = some x ∧ Collects x.caller_to_info (rs.flatMap Record.call) ∧
    ∀ r ∈ rs, ∀ f struct, r.member = some (f, struct) → ∀ dso,
      Reaches (parseStructMap l.structMap) dso struct → Called x.struct_callbacks dso f

-- A library that uses the struct of a global uses one that is named like the function, or one that
-- the function is stored to.
def FoundAnyway (l : Logs) (rs : List Record) : Prop :=
  ∀ f struct, .structGlobal f struct ∈ rs → ∀ dso,
    Reaches (parseStructMap l.structMap) dso struct →
      Reaches (parseStructMap l.structMap) dso f ∨
        ∃ other k, .structStore f other k ∈ rs ∧ Reaches (parseStructMap l.structMap) dso other

theorem argumentKey_blank (F : Name) (i : Nat) : ' ' ∈ Record.argumentKey F i := by
  rw [Record.argumentKey, phrase]
  exact List.mem_append_right _ List.mem_cons_self

theorem renamed_ne_atexit (g : Name) : renamed g ≠ "atexit".toList := by
  unfold renamed
  split
  · decide
  · assumption

theorem entries_eq_calls {rs : List Record}
    (hargument : ∀ F i callee struct, .argument F i callee struct ∉ rs)
    (hatexit : ∀ f i, .callArg "atexit".toList f i ∉ rs) :
    rs.flatMap Record.entries = rs.flatMap Record.call := by
  refine List.flatMap_congr fun r hr => ?_
  cases r with
  | callArg g f i =>
    have hne : g ≠ "atexit".toList := by
      rintro rfl
      exact hatexit f i hr
    rw [Record.entries, Record.call, renamed, if_neg hne]
  | argument F i callee struct => exact absurd hr (hargument F i callee struct)
  | _ => rfl

theorem mem_calls_iff {rs : List Record} {caller : Name} :
    (∃ callee index, (caller, callee, index) ∈ rs.flatMap Record.call) ↔
      ∃ f i, .callArg caller f i ∈ rs := by
  constructor
  · rintro ⟨callee, index, hmem⟩
    obtain ⟨r, hr, hmem⟩ := List.mem_flatMap.mp hmem
    cases r with
    | callArg g f i =>
      cases List.mem_singleton.mp hmem
      exact ⟨_, _, hr⟩
    | _ => cases hmem
  · rintro ⟨f, i, hr⟩
    exact ⟨f, decimal i, List.mem_flatMap.mpr ⟨_, hr, List.mem_singleton_self _⟩⟩

-- The key of an argument record is no name of a function.
theorem argumentKey_ne {F g : Name} (i : Nat) (hg : ∀ c ∈ g, isNameChar c) :
    Record.argumentKey F i ≠ g := by
  rintro rfl
  exact not_mem_of_nameChars hg (by decide) (argumentKey_blank F i)

theorem atexit_not_entry {rs : List Record} {callee index : Name} :
    ("atexit".toList, callee, index) ∉ rs.flatMap Record.entries := by
  intro hmem
  obtain ⟨r, -, hmem⟩ := List.mem_flatMap.mp hmem
  cases r with
  | callArg g f i => exact renamed_ne_atexit g (congrArg Prod.fst (List.mem_singleton.mp hmem)).symm
  | argument F i callee struct =>
    have heq : "atexit".toList = Record.argumentKey F i :=
      congrArg Prod.fst (List.mem_singleton.mp hmem)
    exact argumentKey_ne i (List.all_eq_true.mp (by decide)) heq.symm
  | _ => cases hmem

section Read

variable {l : Logs} {rs : List Record} (hlog : l.dynsym = rs.map Record.line)
  (hnamed : ∀ r ∈ rs, r.Named) {x : DynLog} (hx : l.dynLog = some x)
include hlog hnamed hx

theorem Logs.dynLog_step :
    StepOk (parseStructMap l.structMap) rs ⟨.empty, .empty, .empty, .empty, .empty⟩ x := by
  rw [Logs.dynLog, hlog] at hx
  exact trace_step l.lib_dict_tags hnamed hx

theorem Logs.dynLog_collects : Collects x.caller_to_info (rs.flatMap Record.entries) :=
  (l.dynLog_step hlog hnamed hx).collects [] collects_nil

theorem Logs.dynLog_called (dso : Tag) (f : Name) :
    Called x.struct_callbacks dso f ↔ ∃ r ∈ rs, ∃ struct, r.callback = some (f, struct) ∧
      Reaches (parseStructMap l.structMap) dso struct := by
  rw [(l.dynLog_step hlog hnamed hx).called, or_iff_right]
  simp [Called, Dict.empty, Dict.get?, Dict.find]

end Read

-- The records are recovered if there are no argument records, which are taken for calls, no calls
-- of `atexit`, which is renamed on purpose, and no globals that are missed.
theorem Logs.dynLog_recovers_iff (l : Logs) (rs : List Record)
    (hlog : l.dynsym = rs.map Record.line) (hnamed : ∀ r ∈ rs, r.Named) :
    l.Recovers rs ↔ (∀ F i callee struct, .argument F i callee struct ∉ rs) ∧
      (∀ f i, .callArg "atexit".toList f i ∉ rs) ∧ FoundAnyway l rs := by
  constructor
  · rintro ⟨-, x, hx, hcollects, hmembers⟩
    have hcallers (caller : Name) : (∃ callee index, (caller, callee, index) ∈
        rs.flatMap Record.entries) ↔ ∃ f i, .callArg caller f i ∈ rs := by
      rw [← (l.dynLog_collects hlog hnamed hx).callers, hcollects.callers, mem_calls_iff]
    refine ⟨fun F i callee struct hr => ?_, fun f i hr => ?_, fun f struct hr dso hreach => ?_⟩
    · obtain ⟨f, j, hcall⟩ := (hcallers (Record.argumentKey F i)).mp
        ⟨callee, struct, List.mem_flatMap.mpr ⟨_, hr, List.mem_singleton_self _⟩⟩
      exact argumentKey_ne i (hnamed _ hcall).1.chars rfl
    · obtain ⟨callee, index, hmem⟩ := (hcallers "atexit".toList).mpr ⟨f, i, hr⟩
      exact atexit_not_entry hmem
    · obtain ⟨r, hr', struct', hcallback, hreach'⟩ :=
        (l.dynLog_called hlog hnamed hx dso f).mp (hmembers _ hr f struct rfl dso hreach)
      cases r with
      | structStore f' other k =>
        cases hcallback
        exact .inr ⟨_, k, hr', hreach'⟩
      | structGlobal f' other =>
        cases hcallback
        exact .inl hreach'
      | _ => cases hcallback
  · rintro ⟨hargument, hatexit, hfound⟩
    obtain ⟨x, htrace⟩ := trace_isSome (parseStructMap l.structMap)
      l.lib_dict_tags hnamed hargument ⟨.empty, .empty, .empty, .empty, .empty⟩
    have hx : l.dynLog = some x := by
      rw [Logs.dynLog, hlog]
      exact htrace
    refine ⟨?_, x, hx, ?_, ?_⟩
    · rw [hlog]
      exact argumentLines_ok l.lib_dict rs hnamed _
    · have hentries := l.dynLog_collects hlog hnamed hx
      rwa [entries_eq_calls hargument hatexit] at hentries
    · intro r hr f struct hmember dso hreach
      rw [l.dynLog_called hlog hnamed hx]
      cases r with
      | structStore f' struct' k =>
        cases hmember
        exact ⟨_, hr, _, rfl, hreach⟩
      | structGlobal f' struct' =>
        cases hmember
        rcases hfound f struct hr dso hreach with hself | ⟨other, k, hstore, hother⟩
        · exact ⟨_, hr, f, rfl, hself⟩
        · exact ⟨_, hstore, other, rfl, hother⟩
      | _ => cases hmember

theorem CName.of_all {n : Name}
    (h : (!n.isEmpty && n.all isNameChar && n.head?.all fun c => !c.isDigit) = true) : CName n := by
  rw [Bool.and_eq_true, Bool.and_eq_true, List.all_eq_true] at h
  refine ⟨?_, h.1.2, fun c hc => ?_⟩
  · rintro rfl
    exact Bool.false_ne_true h.1.1
  · have hhead := h.2
    rw [Option.mem_def.mp hc] at hhead
    simpa using hhead

theorem CName.of_names {names : List String} (h : (names.all fun s =>
    !s.toList.isEmpty && s.toList.all isNameChar && s.toList.head?.all fun c => !c.isDigit) = true) :
    ∀ s ∈ names, CName s.toList :=
  fun s hs => .of_all (List.all_eq_true.mp h s hs)

def loggedAs (rs : List Record) : Logs where
  name := "prog".toList
  lib_json := .empty
  exported _ := []
  defined := []
  plt_addrs := .empty
  structMap := ["libx : ops".toList]
  dynsym := rs.map Record.line
  sym := []

theorem reaches_ops : Reaches (parseStructMap ["libx : ops".toList]) "libx".toList "ops".toList :=
  ⟨["ops".toList], by decide +kernel, List.mem_singleton_self _⟩

def plainRecords : List Record :=
  [.callArg "qsort".toList "cmp".toList 3, .structStore "handler".toList "ops".toList 1]

theorem dynLog_recovers_plain : (loggedAs plainRecords).Recovers plainRecords := by
  have hname : ∀ s ∈ ["qsort", "cmp", "ops", "handler"], CName s.toList :=
    CName.of_names (by decide +kernel)
  refine (Logs.dynLog_recovers_iff (loggedAs plainRecords) plainRecords rfl ?_).mpr ⟨?_, ?_, ?_⟩
  · intro r hr
    simp only [plainRecords, List.mem_cons, List.not_mem_nil, or_false] at hr
    rcases hr with rfl | rfl
    · exact ⟨hname _ (by decide), hname _ (by decide)⟩
    · exact ⟨hname _ (by decide), hname _ (by decide)⟩
  · simp [plainRecords]
  · simp [plainRecords]
  · simp [FoundAnyway, plainRecords]

-- A global of the struct `ops`, which the library uses: the function is in no set of callbacks.
def globalRecords : List Record := [.structGlobal "handler".toList "ops".toList]

theorem globalRecords_not_recovered :
    (∀ r ∈ globalRecords, r.Named) ∧ ¬(loggedAs globalRecords).Recovers globalRecords := by
  constructor
  · have hname : ∀ s ∈ ["handler", "ops"], CName s.toList := CName.of_names (by decide +kernel)
    intro r hr
    cases List.mem_singleton.mp hr
    exact ⟨hname _ (by decide), hname _ (by decide)⟩
  · rintro ⟨-, x, hx, -, hmembers⟩
    have hcalled := hmembers _ (List.mem_singleton_self _) _ _ rfl _ reaches_ops
    have hnone : ((loggedAs globalRecords).dynLog.map fun x => x.struct_callbacks.get? "libx".toList) =
        some none := by
      decide +kernel
    rw [hx, Option.map_some, Option.some_inj] at hnone
    rw [Called, hnone] at hcalled
    cases hcalled

end Platypus.Parser
