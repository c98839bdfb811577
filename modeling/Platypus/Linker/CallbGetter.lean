import Platypus.Parser.Output

-- The `--callb_getter` file as the linker reads it.

namespace Platypus.Linker

open Platypus.Text Platypus.Parser

abbrev CallbGet := Dict (List Char) (List Int)

def dropSign : List Char → List Char
  | '-' :: cs => cs
  | '+' :: cs => cs
  | cs => cs

-- `std::stoi`; `none` is one of its two exceptions.
def stoi (s : List Char) : Option Int :=
  let s := s.dropWhile isSpace
  let digits := (dropSign s).takeWhile isDec
  let n : Int := if s.head? = some '-' then -(ofDigits 10 digits : Int) else ofDigits 10 digits
  if digits = [] then none
  else if -2 ^ 31 ≤ n ∧ n < 2 ^ 31 then some n else none

def parsePositions (values : List Char) : Option (List Int) :=
  ((getlines ',' values).filter (· ≠ [])).mapM stoi

-- One round of the loop; `none` is `exit(1337)` or an exception.
def callbGetterLine (callb_get : CallbGet) (line : List Char) : Option CallbGet :=
  if line = [] then some callb_get
  else if ':' ∉ line then none
  else
    let key := (splitFirst ':' line).1
    let values := (splitFirst ':' line).2
    if values.length < 2 ∨ values.head? ≠ some '(' ∨ values.getLast? ≠ some ')' then none
    else do
      let arg_pos ← parsePositions ((values.drop 1).take (values.length - 2))
      return callb_get.set key arg_pos

def parseCallbGetter (file : List Char) : Option CallbGet :=
  State.trace callbGetterLine .empty (getlines '\n' file)

section Line

variable {name pos : List Char}

theorem isSpace_dec {c : Char} (h : isDec c = true) : isSpace c = false := by
  have hvisible := isNameChar_visible (isDigit_nameChar (isDigit_of_isDec h))
  rw [← Bool.not_eq_true] at hvisible ⊢
  intro hspace
  refine hvisible ?_
  simp only [isSpace, Bool.or_eq_true, Bool.and_eq_true, decide_eq_true_eq] at hspace
  rcases hspace with rfl | ⟨hlo, hhi⟩
  · decide
  · have hlo' : 9 ≤ c.toNat := UInt32.le_iff_toNat_le.mp hlo
    have hhi' : c.toNat ≤ 13 := UInt32.le_iff_toNat_le.mp hhi
    simp only [isBlank, Bool.or_eq_true, Bool.and_eq_true, decide_eq_true_eq]
    omega

theorem dropSign_of_dec {c : Char} (h : isDec c = true) (cs : List Char) :
    dropSign (c :: cs) = c :: cs := by
  unfold dropSign
  split
  · rename_i heq
    rw [(List.cons.inj heq).1] at h
    exact absurd h (by decide)
  · rename_i heq
    rw [(List.cons.inj heq).1] at h
    exact absurd h (by decide)
  · rfl

theorem stoi_digits (hne : pos ≠ []) (hpos : ∀ c ∈ pos, isDec c = true)
    (hint : ofDigits 10 pos < 2 ^ 31) : stoi pos = some (ofDigits 10 pos : Int) := by
  obtain ⟨c, cs, rfl⟩ := List.exists_cons_of_ne_nil hne
  have hc := hpos c List.mem_cons_self
  have hspace : (c :: cs).dropWhile isSpace = c :: cs := by
    rw [List.dropWhile_cons, if_neg (by rw [isSpace_dec hc]; exact Bool.false_ne_true)]
  have hminus : (c :: cs).head? ≠ some '-' := by
    intro heq
    rw [Option.some_inj.mp heq] at hc
    exact absurd hc (by decide)
  have hdigits : (c :: cs).takeWhile isDec = c :: cs := List.takeWhile_eq_self_iff.mpr hpos
  simp only [stoi, hspace, dropSign_of_dec hc, hdigits, if_neg hminus, if_neg hne]
  rw [if_pos (by omega)]

theorem parsePositions_single {s : List Char} (hne : s ≠ []) (hcomma : ',' ∉ s) :
    parsePositions s = (stoi s).map fun n => [n] := by
  have hsep : ∀ c ∈ s, decide (c = ',') = false :=
    fun c hc => decide_eq_false fun heq => hcomma (heq ▸ hc)
  rw [parsePositions, getlines, linesBy_rest hne hsep, List.filter_cons_of_pos (by simp [hne]),
    List.filter_nil, List.mapM_cons]
  cases stoi s <;> rfl

end Line

-- A line of the file, and the entry that the linker makes of it.

def writtenLine (p : List Char × List Char) : List Char := p.1 ++ ':' :: ('(' :: (p.2 ++ [')']))

def lineEntry (p : List Char × List Char) : Option (List Char × Int) :=
  let key := (splitFirst ':' (writtenLine p)).1
  let values := (splitFirst ':' (writtenLine p)).2
  if values.head? ≠ some '(' then none
  else (stoi ((values.drop 1).take (values.length - 2))).map fun n => (key, n)

section Written

variable {p : List Char × List Char} {pairs : List (List Char × List Char)}

-- The name may have a colon of its own.
theorem writtenLine_values (hp : Reading p) :
    ∃ v, (splitFirst ':' (writtenLine p)).2 = v ++ [')'] ∧ 2 ≤ v.length ∧ ',' ∉ v := by
  have hcomma : ',' ∉ p.2 := fun hmem => absurd (hp.decimal _ hmem) (by decide)
  have hpos := List.length_pos_iff.mpr hp.ne_nil
  by_cases hcolon : ':' ∈ p.1
  · obtain ⟨a, b, hab, ha⟩ := List.eq_append_cons_of_mem hcolon
    have hb : ',' ∉ b := fun hmem => hp.comma (by rw [hab]; simp [hmem])
    refine ⟨b ++ ':' :: '(' :: p.2, ?_, by simp; omega, by simp [hb, hcomma]⟩
    rw [writtenLine, hab, List.append_assoc, List.cons_append, splitFirst_cons ha]
    simp
  · refine ⟨'(' :: p.2, ?_, by simp; omega, by simp [hcomma]⟩
    rw [writtenLine, splitFirst_cons hcolon]
    rfl

theorem callbGetterLine_written (hp : Reading p) (callb_get : CallbGet) :
    callbGetterLine callb_get (writtenLine p) =
      (lineEntry p).map fun e => callb_get.set e.1 [e.2] := by
  obtain ⟨v, hv, hlen, hcomma⟩ := writtenLine_values hp
  have hvne : v ≠ [] := by
    rintro rfl
    exact absurd hlen (by decide)
  have hhead : (v ++ [')']).head? = v.head? := List.head?_append_of_ne_nil _ hvne
  have hinner : ((v ++ [')']).drop 1).take ((v ++ [')']).length - 2) = v.drop 1 := by
    rw [List.drop_append_of_le_length (by omega), List.length_append, List.length_singleton,
      List.take_append_of_le_length (by rw [List.length_drop]; omega)]
    exact List.take_of_length_le (by rw [List.length_drop]; omega)
  have hparse := parsePositions_single (s := v.drop 1)
    (List.ne_nil_of_length_pos (by rw [List.length_drop]; omega))
    fun hmem => hcomma (List.mem_of_mem_drop hmem)
  rw [callbGetterLine, if_neg (by simp [writtenLine]), if_neg (by simp [writtenLine]), lineEntry]
  simp only [hv, hinner, hhead, hparse]
  by_cases hopen : v.head? = some '('
  · rw [if_neg (by simp [hopen, hvne]), if_neg (by simp [hopen])]
    cases stoi (v.drop 1) <;> rfl
  · rw [if_pos (by simp [hopen]), if_pos hopen]
    rfl

theorem getlines_writeATxt (h : ∀ p ∈ pairs, Reading p) :
    getlines '\n' (writeATxt pairs) = pairs.map writtenLine := by
  induction pairs with
  | nil => rfl
  | cons p pairs ih =>
    have hp := h p List.mem_cons_self
    have hline : writeATxt (p :: pairs) = writtenLine p ++ '\n' :: writeATxt pairs := by
      simp [writeATxt, writtenLine]
    have hbreak : ∀ c ∈ writtenLine p, decide (c = '\n') = false := by
      intro c hc
      refine decide_eq_false ?_
      rintro rfl
      simp only [writtenLine, List.mem_append, List.mem_cons, List.not_mem_nil, or_false] at hc
      rcases hc with hc | hc | hc | hc | hc
      · exact hp.newline hc
      · exact absurd hc (by decide)
      · exact absurd hc (by decide)
      · exact absurd (hp.decimal _ hc) (by decide)
      · exact absurd hc (by decide)
    have hrest := ih fun q hq => h q (List.mem_cons_of_mem p hq)
    rw [getlines] at hrest ⊢
    rw [hline, linesBy_append (by decide), linesBy_line (by decide) hbreak, hrest]
    rfl

-- The linker stops at the first line that it cannot read, and keeps the last entry of a name.
theorem trace_written_iff (h : ∀ p ∈ pairs, Reading p) {callb_get m : CallbGet} :
    State.trace callbGetterLine callb_get (pairs.map writtenLine) = some m ↔
      none ∉ pairs.map lineEntry ∧
        m = (pairs.map lineEntry).reduceOption.foldl (fun m e => m.set e.1 [e.2]) callb_get := by
  induction pairs generalizing callb_get with
  | nil => simp [State.trace, eq_comm]
  | cons p pairs ih =>
    rw [List.map_cons, State.trace, callbGetterLine_written (h p List.mem_cons_self), List.map_cons]
    cases hentry : lineEntry p with
    | none => simp
    | some e =>
      rw [Option.map_some, Option.bind_some, ih fun q hq => h q (List.mem_cons_of_mem p hq),
        List.reduceOption_cons_of_some, List.foldl_cons]
      simp

end Written

theorem lineEntry_plain {name pos : List Char} (hname : CName name) (hne : pos ≠ [])
    (hpos : ∀ c ∈ pos, isDec c = true) (hint : ofDigits 10 pos < 2 ^ 31) :
    lineEntry (name, pos) = some (name, (ofDigits 10 pos : Int)) := by
  have hcolon : ':' ∉ name := not_mem_of_nameChars hname.chars (by decide)
  have hinner : (('(' :: (pos ++ [')'])).drop 1).take (('(' :: (pos ++ [')'])).length - 2) = pos := by
    simp
  rw [lineEntry, writtenLine, splitFirst_cons hcolon]
  dsimp only
  rw [if_neg (by simp), hinner, stoi_digits hne hpos hint]
  rfl

-- The records of a log, the last one of a getter, and what it prints first.

def records (log : List Printed) : List GetterRecord := log.filterMap Printed.record?

def lastRecord (log : List Printed) (name : List Char) : Option GetterRecord :=
  ((records log).filter fun r => r.item = name).getLast?

def firstPrinted (r : GetterRecord) : Int := ofDigits 10 (r.positions.headD [])

theorem mem_records {log : List Printed} {r : GetterRecord} :
    r ∈ records log ↔ .record r ∈ log := by
  constructor
  · intro h
    obtain ⟨x, hx, hr⟩ := List.mem_filterMap.mp h
    cases x with
    | record r' =>
      cases hr
      exact hx
    | other text => cases hr
  · intro h
    exact List.mem_filterMap.mpr ⟨.record r, h, rfl⟩

theorem pair?_of_plain {r : GetterRecord} (hr : r.Plain) :
    r.pair? = if r.item = sigaction then none
      else some (r.item, r.positions.headD []) := by
  obtain ⟨p, ps, hps⟩ := List.exists_cons_of_ne_nil hr.printed
  rw [GetterRecord.pair?, hps]
  rfl

-- What comes of a piece of the output: a record with a path that can be read gives its own entry.
-- Any other text gives what it forges, lines that look like records.
def entries : Printed → List (Option (List Char × Int))
  | .record r =>
    if r.Readable then if r.item = sigaction then [] else [some (r.item, firstPrinted r)]
    else (Printed.record r).readings.map lineEntry
  | .other text => (Printed.other text).readings.map lineEntry

def lastEntry (log : List Printed) (name : List Char) : Option Int :=
  ((log.flatMap entries).reduceOption.filter fun e => e.1 = name).getLast?.map Prod.snd

theorem readings_entries {x : Printed} (hx : ∀ r, x = .record r → r.Proper) :
    x.readings.map lineEntry = entries x := by
  cases x with
  | other text => rfl
  | record r =>
    by_cases hread : r.Readable
    · have hr := hx r rfl
      have hplain := hr.plain hread
      have hmem : r.positions.headD [] ∈ r.positions := by
        obtain ⟨q, qs, hqs⟩ := List.exists_cons_of_ne_nil hr.printed
        rw [hqs]
        exact List.mem_cons_self
      rw [readings_record hplain, pair?_of_plain hplain, entries, if_pos hread]
      split_ifs
      · rfl
      · rw [Option.toList_some, List.map_singleton, lineEntry_plain hr.item (hr.digits _ hmem).1
          (hr.digits _ hmem).2 (hr.int _ hmem), firstPrinted]
    · rw [entries, if_neg hread]

-- The file of a log as the linker reads it.
theorem parse_getterFile_iff {log : List Printed} (hlog : ∀ r ∈ records log, r.Proper)
    {m : CallbGet} : parseCallbGetter (getterFile log) = some m ↔ none ∉ log.flatMap entries ∧
      m = (log.flatMap entries).reduceOption.foldl (fun m e => m.set e.1 [e.2]) .empty := by
  have hreading : ∀ p ∈ log.flatMap Printed.readings, Reading p := by
    intro p hp
    obtain ⟨x, -, hx⟩ := List.mem_flatMap.mp hp
    exact readings_reading hx
  have hentries : (log.flatMap Printed.readings).map lineEntry = log.flatMap entries := by
    rw [List.map_flatMap]
    refine List.flatMap_congr fun x hx => readings_entries ?_
    rintro r rfl
    exact hlog r (mem_records.mpr hx)
  rw [parseCallbGetter, getterFile, parse_pieces, getlines_writeATxt hreading,
    trace_written_iff hreading, hentries]

theorem get?_entries (log : List Printed) (name : List Char) :
    ((log.flatMap entries).reduceOption.foldl (fun m e => m.set e.1 [e.2])
      Dict.empty : CallbGet).get? name = (lastEntry log name).map fun n => [n] := by
  rw [Dict.get?_foldl_set, lastEntry, Option.map_map]
  exact Option.or_none

-- A plain log has the entries of its records, those of `sigaction` apart.
theorem entries_plain {log : List Printed} (hlog : ∀ x ∈ log, x.Plain) :
    (log.flatMap entries).reduceOption = ((records log).filter fun r => r.item ≠ sigaction).map
      fun r => (r.item, firstPrinted r) := by
  induction log with
  | nil => rfl
  | cons x log ih =>
    rw [List.forall_mem_cons] at hlog
    rw [List.flatMap_cons, List.reduceOption_append, ih hlog.2]
    cases x with
    | other text =>
      rw [entries, readings_other hlog.1]
      rfl
    | record r =>
      rw [entries, if_pos (show r.Readable from hlog.1.lib)]
      by_cases hsig : r.item = sigaction <;>
        simp [hsig, records, Printed.record?, List.reduceOption]

theorem get?_of_log {log : List Printed} (hlog : ∀ x ∈ log, x.Plain)
    (hint : ∀ r ∈ records log, ∀ p ∈ r.positions, ofDigits 10 p < 2 ^ 31) {m : CallbGet}
    (hm : parseCallbGetter (getterFile log) = some m) (name : List Char) :
    m.get? name = if name = sigaction then none
      else (lastRecord log name).map fun r => [firstPrinted r] := by
  have hproper : ∀ r ∈ records log, r.Proper := by
    intro r hr
    have hplain : r.Plain := hlog _ (mem_records.mp hr)
    exact ⟨hplain.item, hplain.printed, hplain.digits, hint r hr⟩
  rw [((parse_getterFile_iff hproper).mp hm).2, get?_entries, lastEntry, entries_plain hlog,
    List.filter_map, List.filter_filter, List.getLast?_map, Option.map_map, Option.map_map, lastRecord]
  split_ifs with hname
  · rw [List.filter_eq_nil_iff.mpr (by simp [hname])]
    rfl
  · rw [List.filter_congr (q := fun r => r.item = name) (by simp; grind)]
    rfl

-- The linker accepts the file of a log, and has one position for each getter of the log.
def Served (log : List Printed) : Prop :=
  ∃ m, parseCallbGetter (getterFile log) = some m ∧
    (∀ name r, name ≠ sigaction → lastRecord log name = some r →
      m.get? name = some [firstPrinted r]) ∧
    ∀ name arg_pos, m.get? name = some arg_pos → arg_pos.length = 1

theorem served_iff (log : List Printed) (hlog : ∀ r ∈ records log, r.Proper) :
    Served log ↔ none ∉ log.flatMap entries ∧
      ∀ name r, name ≠ sigaction → lastRecord log name = some r →
        lastEntry log name = some (firstPrinted r) := by
  simp only [Served, parse_getterFile_iff hlog]
  constructor
  · rintro ⟨m, ⟨haccepted, rfl⟩, hserved, -⟩
    refine ⟨haccepted, fun name r hname hr => ?_⟩
    have hlast := hserved name r hname hr
    rw [get?_entries] at hlast
    obtain ⟨n, hn, heq⟩ := Option.map_eq_some_iff.mp hlast
    rw [hn, List.head_eq_of_cons_eq heq]
  · rintro ⟨haccepted, hlast⟩
    refine ⟨_, ⟨haccepted, rfl⟩, fun name r hname hr => ?_, fun name arg_pos h => ?_⟩
    · rw [get?_entries, hlast name r hname hr]
      rfl
    · rw [get?_entries] at h
      obtain ⟨n, -, rfl⟩ := Option.map_eq_some_iff.mp h
      rfl

-- A path with a comma, and no text that looks like positions, loses its record.
theorem entries_comma {r : GetterRecord} (hr : r.Proper) (hcomma : ',' ∈ r.lib)
    (hbreak : ∀ c ∈ r.lib, isLineBreak c = false) (hbrace : '\x7b' ∉ r.lib) :
    entries (.record r) = [] := by
  have hread : ¬r.Readable := fun hread => (hread _ hcomma).1 rfl
  rw [entries, if_neg hread, readings_comma hr hcomma hbreak hbrace, List.map_nil]

-- A test for plain records.
def isPlain (r : GetterRecord) : Bool :=
  !r.item.isEmpty && r.item.all isNameChar && !(r.item.headD 'a').isDigit &&
    (r.lib.all fun c => c ≠ ',' && !isLineBreak c) && !r.positions.isEmpty &&
    r.positions.all fun p => !p.isEmpty && p.all isDec

theorem cname_of_all {n : List Char} (hne : n ≠ []) (hchars : n.all isNameChar = true)
    (hhead : (n.headD 'a').isDigit = false) : CName n := by
  refine ⟨hne, List.all_eq_true.mp hchars, fun c hc => ?_⟩
  rwa [List.headD_eq_head?_getD, hc, Option.getD_some] at hhead

theorem plain_of_isPlain {r : GetterRecord} (h : isPlain r = true) : r.Plain := by
  simp only [isPlain, Bool.and_eq_true, Bool.not_eq_true', List.isEmpty_eq_false_iff] at h
  obtain ⟨⟨⟨⟨⟨hne, hchars⟩, hhead⟩, hlib⟩, hprinted⟩, hdigits⟩ := h
  refine ⟨cname_of_all hne hchars hhead, fun c hc => ?_, hprinted, fun p hp => ?_⟩
  · have h := List.all_eq_true.mp hlib c hc
    simpa using h
  · have h := List.all_eq_true.mp hdigits p hp
    rw [Bool.and_eq_true, Bool.not_eq_true', List.isEmpty_eq_false_iff] at h
    exact ⟨h.1, List.all_eq_true.mp h.2⟩

theorem proper_of_isPlain {r : GetterRecord} (h : isPlain { r with lib := [] } = true)
    (hint : ∀ p ∈ r.positions, ofDigits 10 p < 2 ^ 31) : r.Proper :=
  have hplain := plain_of_isPlain h
  ⟨hplain.item, hplain.printed, hplain.digits, hint⟩

def commaRecord : GetterRecord := ⟨"qsort".toList, "/opt/a,b/libc.so.6".toList, ["2".toList]⟩

-- A log with a record that cannot be read, a later one of the same getter, and one of `sigaction`.
def demoLog : List Printed :=
  [.record commaRecord, .other "Found cmp in: ./app".toList,
    .record ⟨"sigaction".toList, "libc.so.6".toList, ["1".toList]⟩,
    .record ⟨"qsort".toList, "libc.so.6".toList, ["3".toList, "2".toList]⟩]

theorem demoLog_proper : ∀ r ∈ records demoLog, r.Proper := by
  have hplain : ∀ r ∈ records demoLog, isPlain { r with lib := [] } = true ∧
      ∀ p ∈ r.positions, ofDigits 10 p < 2 ^ 31 := by decide
  exact fun r hr => proper_of_isPlain (hplain r hr).1 (hplain r hr).2

theorem demoLog_entries : demoLog.flatMap entries = [some ("qsort".toList, 3)] := by
  have hcomma : entries (.record commaRecord) = [] :=
    entries_comma (demoLog_proper commaRecord (by decide)) (by decide) (Unbroken.of_all (by decide))
      (by decide)
  have hother : entries (.other "Found cmp in: ./app".toList) = [] := by
    have hlines : splitlines (universalNewlines ("Found cmp in: ./app".toList ++ ['\n'])) =
        ["Found cmp in: ./app".toList] := by decide
    have hplain : (Printed.other "Found cmp in: ./app".toList).Plain := by
      intro l hl
      rw [hlines, List.mem_singleton] at hl
      subst hl
      decide
    rw [entries, readings_other hplain, List.map_nil]
  rw [demoLog, List.flatMap_cons, hcomma, List.flatMap_cons, hother]
  decide

theorem served_demoLog : Served demoLog := by
  refine (served_iff demoLog demoLog_proper).mpr ⟨by rw [demoLog_entries]; decide, ?_⟩
  intro name r hname hr
  have hmem := List.mem_filter.mp (List.mem_of_getLast? hr)
  have hitem : name = "qsort".toList := by
    have hcases : ∀ r ∈ records demoLog, r.item = sigaction ∨ r.item = "qsort".toList := by decide
    have heq := of_decide_eq_true hmem.2
    exact heq ▸ (hcases r hmem.1).resolve_left (heq ▸ hname)
  subst hitem
  have hlast : lastRecord demoLog "qsort".toList =
      some ⟨"qsort".toList, "libc.so.6".toList, ["3".toList, "2".toList]⟩ := by decide
  cases hlast.symm.trans hr
  rw [lastEntry, demoLog_entries]
  decide

-- The path of the library has a comma, and its getter does not come through.
theorem commaRecord_lost :
    commaRecord.Proper ∧
      lastRecord [.record commaRecord] "qsort".toList = some commaRecord ∧
      firstPrinted commaRecord = 2 ∧
      (parseCallbGetter (getterFile [.record commaRecord])).map (fun m => m.get? "qsort".toList) =
        some none ∧
      ¬Served [.record commaRecord] := by
  have hlast : lastRecord [.record commaRecord] "qsort".toList = some commaRecord := by decide
  have hlost : (parseCallbGetter (getterFile [.record commaRecord])).map
      (fun m => m.get? "qsort".toList) = some none := by decide
  refine ⟨proper_of_isPlain (by decide) (by decide), hlast, by decide, hlost, ?_⟩
  rintro ⟨m, hm, hserved, -⟩
  rw [hm, Option.map_some, hserved _ _ (by decide) hlast] at hlost
  cases hlost

end Platypus.Linker
