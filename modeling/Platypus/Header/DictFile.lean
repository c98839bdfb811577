import Platypus.Header.Transfer
import Platypus.Text.Literal

-- The files that `parse_output.py` writes and `create_header.py` reads.

namespace Platypus.Header

open Text

-- The first line of a file that is written in `bin_mode`.
def emptyMap : Name := ['\x7b', '\x7d']

def writeHeaderTxt (printable : Char → Bool) (data : MaskDict) (bin_mode : Bool) : Name :=
  (if bin_mode then emptyMap ++ ['\n'] else []) ++ (reprDict printable data ++ ['\n'])

-- `re.findall` of a brace and the shortest text up to a closing brace; the match that is under
-- way is the first argument.
def findBraces : Option Name → Name → List Name
  | _, [] => []
  | none, c :: cs => if c = '\x7b' then findBraces (some [c]) cs else findBraces none cs
  | some m, c :: cs =>
    if c = '\x7d' then (m ++ [c]) :: findBraces none cs else findBraces (some (m ++ [c])) cs

-- `none` is an `IndexError`, a `KeyError` or an error of `ast.literal_eval`.
def parseAllDictsFromFile (file : Name) : Option MaskDict :=
  let text := universalNewlines file
  if text = [] then none
  else do
    let first_line_data ← literalDict literalStr (strip (splitFirst '\n' text).1)
    let possible_dicts ← (findBraces none (splitFirst '\n' text).2).mapM (literalDict literalList)
    parseAllDicts first_line_data possible_dicts

section Merge

-- One dictionary gives its list to its key.
theorem get?_collect (result d : MaskDict) (key : Name) :
    (collect result d).get? key =
      match d.get? key with
      | none => result.get? key
      | some v => some ((result.get? key).getD [] ++ v) := by
  have hfold : ∀ (es : List (Name × List Name)) (r : MaskDict), (es.map Prod.fst).Nodup →
      (es.foldl (fun r e => r.set e.1 ((r.get? e.1).getD [] ++ e.2)) r).get? key =
        match Dict.find es key with
        | none => r.get? key
        | some v => some ((r.get? key).getD [] ++ v) := by
    intro es
    induction es with
    | nil => exact fun r _ => rfl
    | cons e es ih =>
      intro r hnodup
      obtain ⟨k, v⟩ := e
      rw [List.map_cons, List.nodup_cons] at hnodup
      rw [List.foldl_cons, ih _ hnodup.2, Dict.find]
      by_cases hkey : k = key
      · subst hkey
        have hrest : Dict.find es k = none := by
          rw [← Option.not_isSome_iff_eq_none, Dict.find_isSome]
          exact hnodup.1
        rw [hrest, if_pos rfl, Dict.get?_set_self]
      · rw [if_neg hkey, r.get?_set_of_ne _ (Ne.symm hkey)]
  exact hfold d.entries result d.nodup

-- All lists of a key, one behind the other.
def gathered (ds : List MaskDict) (key : Name) : List Name :=
  ds.flatMap fun d => (d.get? key).getD []

theorem get?_foldl_collect (ds : List MaskDict) (r : MaskDict) (key : Name) :
    (ds.foldl collect r).get? key =
      if r.get? key = none ∧ ∀ d ∈ ds, d.get? key = none then none
      else some ((r.get? key).getD [] ++ gathered ds key) := by
  induction ds generalizing r with
  | nil =>
    cases hr : r.get? key with
    | none => simp [hr]
    | some v => simp [hr, gathered]
  | cons d ds ih =>
    have hgathered : gathered (d :: ds) key = (d.get? key).getD [] ++ gathered ds key :=
      List.flatMap_cons
    rw [List.foldl_cons, ih, get?_collect, hgathered]
    simp only [List.forall_mem_cons]
    cases d.get? key with
    | none => simp
    | some v => simp

theorem get?_merged (ds : List MaskDict) (key : Name) :
    (merged ds).get? key =
      if ∀ d ∈ ds, d.get? key = none then none else some (fromkeys (gathered ds key)) := by
  have hempty : (Dict.empty : MaskDict).get? key = none := rfl
  rw [merged, Dict.get?_mapValues, get?_foldl_collect, hempty]
  by_cases h : ∀ d ∈ ds, d.get? key = none
  · rw [if_pos ⟨rfl, h⟩, if_pos h, Option.map_none]
  · rw [if_neg fun h' => h h'.2, if_neg h, Option.map_some, Option.getD_none, List.nil_append]

end Merge

section Find

theorem findBraces_some {body : Name} (h : '\x7d' ∉ body) (m rest : Name) :
    findBraces (some m) (body ++ '\x7d' :: rest) =
      (m ++ (body ++ ['\x7d'])) :: findBraces none rest := by
  induction body generalizing m with
  | nil => rw [List.nil_append, findBraces, if_pos rfl, List.nil_append]
  | cons c body ih =>
    rw [List.mem_cons, not_or] at h
    rw [List.cons_append, findBraces, if_neg (Ne.symm h.1), ih h.2, List.append_assoc,
      List.singleton_append, List.cons_append]

theorem findBraces_line {body : Name} (h : '\x7d' ∉ body) (rest : Name) :
    findBraces none ('\x7b' :: (body ++ ['\x7d']) ++ '\n' :: rest) =
      ('\x7b' :: (body ++ ['\x7d'])) :: findBraces none rest := by
  rw [List.cons_append, List.append_assoc, List.singleton_append, findBraces, if_pos rfl,
    findBraces_some h, List.singleton_append, findBraces, if_neg (by decide)]

end Find

section Written

variable (printable : Char → Bool)

-- No string of the dictionary has a closing brace.
def NoClose (d : MaskDict) : Prop :=
  ∀ e ∈ d.entries, '\x7d' ∉ e.1 ∧ ∀ x ∈ e.2, '\x7d' ∉ x

-- The dictionaries that the reader finds in what was written for one.
def written (w : MaskDict × Bool) : List MaskDict := if w.2 then [.empty, w.1] else [w.1]

variable {printable} {d : MaskDict}

theorem items_safe (h : NoClose d) : Safe (commaJoin (d.entries.map (reprItem printable))) := by
  refine Safe.commaJoin fun t ht => ?_
  obtain ⟨e, he, rfl⟩ := List.mem_map.mp ht
  exact reprItem_safe printable (h e he).1 (h e he).2

theorem findBraces_writeHeaderTxt (h : NoClose d) (bin_mode : Bool) (rest : Name) :
    findBraces none (writeHeaderTxt printable d bin_mode ++ rest) =
      (if bin_mode then [emptyMap] else []) ++ reprDict printable d :: findBraces none rest := by
  have hsafe : Safe (commaJoin (d.entries.map (reprItem printable))) := items_safe h
  have hdict := findBraces_line (fun hmem => (hsafe _ hmem).2 rfl) rest
  have hempty (s : Name) : findBraces none (emptyMap ++ '\n' :: s) = emptyMap :: findBraces none s :=
    rfl
  cases bin_mode with
  | false =>
    rw [writeHeaderTxt, if_neg Bool.false_ne_true, if_neg Bool.false_ne_true, List.nil_append,
      List.nil_append, List.append_assoc]
    exact hdict
  | true =>
    rw [writeHeaderTxt, if_pos rfl, if_pos rfl, List.append_assoc, List.append_assoc,
      List.append_assoc, List.singleton_append, hempty, List.singleton_append]
    exact congrArg _ hdict

theorem mapM_findBraces (ws : List (MaskDict × Bool)) (h : ∀ w ∈ ws, NoClose w.1) :
    (findBraces none (ws.flatMap fun w => writeHeaderTxt printable w.1 w.2)).mapM
      (literalDict literalList) = some (ws.flatMap written) := by
  induction ws with
  | nil => rfl
  | cons w ws ih =>
    have hrest := ih fun w' hw' => h w' (List.mem_cons_of_mem w hw')
    have hempty : literalDict literalList emptyMap = some .empty :=
      literalDict_reprDict printable .empty
    rw [List.flatMap_cons, findBraces_writeHeaderTxt (h w List.mem_cons_self), List.flatMap_cons,
      written]
    cases w.2 with
    | false =>
      rw [if_neg Bool.false_ne_true, if_neg Bool.false_ne_true, List.nil_append,
        List.mapM_cons, literalDict_reprDict, hrest]
      rfl
    | true =>
      rw [if_pos rfl, if_pos rfl, List.singleton_append, List.mapM_cons, hempty,
        List.mapM_cons, literalDict_reprDict, hrest]
      rfl

theorem writeHeaderTxt_chars (h : NoClose d) (bin_mode : Bool) :
    '\r' ∉ writeHeaderTxt printable d bin_mode := by
  intro hmem
  have hdict : '\r' ∉ reprDict printable d := by
    intro hmem
    rw [reprDict, List.mem_cons, List.mem_append, List.mem_singleton] at hmem
    rcases hmem with hmem | hmem | hmem
    · exact absurd hmem (by decide)
    · exact absurd (items_safe h _ hmem).1 (by decide)
    · exact absurd hmem (by decide)
  rw [writeHeaderTxt, List.mem_append, List.mem_append, List.mem_singleton] at hmem
  rcases hmem with hmem | hmem | hmem
  · split at hmem
    · exact absurd hmem (by decide)
    · exact absurd hmem List.not_mem_nil
  · exact hdict hmem
  · exact absurd hmem (by decide)

theorem gathered_written (ws : List (MaskDict × Bool)) (key : Name) :
    gathered (ws.flatMap written) key = gathered (ws.map Prod.fst) key := by
  induction ws with
  | nil => rfl
  | cons w ws ih =>
    rw [List.flatMap_cons, List.map_cons, gathered, gathered, List.flatMap_append,
      List.flatMap_cons]
    refine congrArg₂ _ ?_ ih
    unfold written
    split
    · exact List.append_nil _
    · exact List.append_nil _

theorem get?_written_none {ws : List (MaskDict × Bool)} {key : Name} :
    (∀ d ∈ ws.flatMap written, d.get? key = none) ↔ ∀ w ∈ ws, key ∉ w.1.keys := by
  have hone (w : MaskDict × Bool) : (∀ d ∈ written w, d.get? key = none) ↔ key ∉ w.1.keys := by
    rw [← Dict.get?_eq_none_iff]
    unfold written
    split
    · rw [List.forall_mem_cons, List.forall_mem_singleton]
      exact and_iff_right rfl
    · exact List.forall_mem_singleton
  simp only [List.forall_mem_flatMap, hone]

end Written

-- The dictionaries of any number of files, the first of them with the empty map, are merged list
-- by list.
theorem parseAllDictsFromFile_written (printable : Char → Bool) (first : MaskDict)
    (rest : List (MaskDict × Bool)) (hclose : ∀ w ∈ (first, true) :: rest, NoClose w.1) :
    ∃ r, parseAllDictsFromFile
        (((first, true) :: rest).flatMap fun w => writeHeaderTxt printable w.1 w.2) = some r ∧
      (∀ key, (∃ w ∈ (first, true) :: rest, key ∈ w.1.keys) →
        r.get? key = some (fromkeys (gathered (((first, true) :: rest).map Prod.fst) key))) ∧
      ∀ key, (∀ w ∈ (first, true) :: rest, key ∉ w.1.keys) → r.get? key = none := by
  have hrest : ∀ w ∈ (first, false) :: rest, NoClose w.1 := by
    rw [List.forall_mem_cons] at hclose ⊢
    exact hclose
  have hfile : ((first, true) :: rest).flatMap (fun w => writeHeaderTxt printable w.1 w.2) =
      emptyMap ++ '\n' :: ((first, false) :: rest).flatMap
        fun w => writeHeaderTxt printable w.1 w.2 := rfl
  have hread : universalNewlines (((first, true) :: rest).flatMap
      fun w => writeHeaderTxt printable w.1 w.2) =
      emptyMap ++ '\n' :: ((first, false) :: rest).flatMap
        fun w => writeHeaderTxt printable w.1 w.2 := by
    rw [universalNewlines_of_not_mem, hfile]
    intro hmem
    obtain ⟨w, hw, hmem⟩ := List.mem_flatMap.mp hmem
    exact writeHeaderTxt_chars (hclose w hw) w.2 hmem
  have hbreak : '\n' ∉ emptyMap := by decide
  have hmap : literalDict literalStr (strip emptyMap) = some .empty := rfl
  refine ⟨merged (((first, false) :: rest).flatMap written), ?_, fun key hkey => ?_,
    fun key hkey => ?_⟩
  · have hne (s : Name) : emptyMap ++ s ≠ [] := List.cons_ne_nil _ _
    rw [parseAllDictsFromFile, hread, if_neg (hne _), splitFirst_cons hbreak, hmap,
      Option.bind_eq_bind, Option.bind_some, mapM_findBraces _ hrest]
    rfl
  · rw [get?_merged, if_neg, gathered_written]
    · rfl
    · rw [get?_written_none]
      intro hnone
      obtain ⟨w, hw, hkey⟩ := hkey
      rw [List.forall_mem_cons] at hnone
      rcases List.mem_cons.mp hw with rfl | hw
      · exact hnone.1 hkey
      · exact hnone.2 w hw hkey
  · rw [get?_merged, if_pos]
    rw [get?_written_none]
    rw [List.forall_mem_cons] at hkey ⊢
    exact hkey

-- Two dictionaries that share a key and an entry, with quotes and a line break in their strings.

def quoteDict : MaskDict :=
  ⟨[("cb".toList, ["it's".toList, "f".toList]), ("none".toList, [])], by decide⟩

def sharedDict : MaskDict := ⟨[("cb".toList, ["f".toList, "a\nb".toList])], by decide⟩

theorem parseAllDictsFromFile_sharedDict :
    ∃ r, parseAllDictsFromFile (writeHeaderTxt (fun _ => true) quoteDict true ++
        writeHeaderTxt (fun _ => true) sharedDict false) = some r ∧
      r.get? "cb".toList = some ["it's".toList, "f".toList, "a\nb".toList] ∧
      r.get? "none".toList = some [] ∧ r.get? "x".toList = none := by
  have hquote : NoClose quoteDict := by
    unfold NoClose
    decide
  have hshared : NoClose sharedDict := by
    unfold NoClose
    decide
  have hclose : ∀ w ∈ [(quoteDict, true), (sharedDict, false)], NoClose w.1 :=
    List.forall_mem_cons.mpr ⟨hquote, List.forall_mem_singleton.mpr hshared⟩
  obtain ⟨r, hr, hsome, hnone⟩ :=
    parseAllDictsFromFile_written (fun _ => true) quoteDict [(sharedDict, false)] hclose
  refine ⟨r, ?_, ?_, ?_, ?_⟩
  · rw [← hr, List.flatMap_cons, List.flatMap_cons, List.flatMap_nil, List.append_nil]
  · exact hsome _ ⟨_, List.mem_cons_self, by decide⟩
  · exact hsome _ ⟨_, List.mem_cons_self, by decide⟩
  · exact hnone _ (by decide)

def braceDict : MaskDict := ⟨[("a\x7d".toList, ["f".toList])], by decide⟩

-- The match ends at the brace inside of the key, and the reader fails on what it has.
theorem braceDict_not_read :
    (∀ e ∈ braceDict.entries, ∀ x ∈ e.2, '\x7b' ∉ x ∧ '\x7d' ∉ x) ∧
      findBraces none (reprDict (fun _ => true) braceDict) = ["\x7b'a\x7d".toList] ∧
      parseAllDictsFromFile (writeHeaderTxt (fun _ => true) braceDict true) = none := by
  refine ⟨by decide, by decide, ?_⟩
  have hnone : (parseAllDictsFromFile (writeHeaderTxt (fun _ => true) braceDict true)).isNone := by
    decide
  exact Option.isNone_iff_eq_none.mp hnone

end Platypus.Header
