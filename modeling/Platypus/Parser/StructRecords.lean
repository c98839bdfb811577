import Platypus.Parser.Logs
import Platypus.Text.Phrases

-- The records that `LogStructs` writes, and what `parse_sym` reads from them.

namespace Platypus.Parser

open Text

-- A name in a record: no blanks and no colon.
structure Plain (n : Name) : Prop where
  word : Word n
  no_colon : ':' ∉ n

-- The name of a type in the module: the types of C structs and of unions have prefixes.
inductive TypeName
  | struct (name : Name)
  | union (name : Name)
  | anon
  deriving DecidableEq, Repr

def structDot : Name := "struct.".toList

def unionDot : Name := "union.".toList

def anonText : Name := "<anon>".toList

def functionWord : Name := "Function".toList

def TypeName.text : TypeName → Name
  | struct name => structDot ++ name
  | union name => unionDot ++ name
  | anon => anonText

inductive StructRecord
  | stored (F : Name) (type : TypeName)
  | pointerGlobal (N : Name)
  | forward (F callee : Name)
  | structArg (name F : Name)
  deriving DecidableEq, Repr

namespace StructRecord

def line : StructRecord → Name
  | stored F type => F ++ ':' :: ' ' :: type.text
  | pointerGlobal N => N
  | forward F callee => functionWord ++ ' ' :: ':' :: ' ' :: F ++ ' ' :: ':' :: ' ' :: callee
  | structArg name F => structDot ++ name ++ ' ' :: F

def Named : StructRecord → Prop
  | stored F (.struct name) => Plain F ∧ Plain name
  | stored F (.union name) => Plain F ∧ Plain name
  | stored F .anon => Plain F
  | pointerGlobal N => Plain N
  | forward F callee => Plain F ∧ Plain callee
  | structArg name F => Plain name ∧ Plain F

end StructRecord

-- The structs and the forwarded pointers of the records, and nothing else.
structure Recovers (lib_dict : Dict Path (Dict Name Address)) (rs : List StructRecord)
    (x : SymLog) : Prop where
  uses : ∀ S u, u ∈ (x.STRUCTS_USED_BY_CBGs.get? S).getD [] ↔
    ∃ F, u = some F ∧ .stored F (.struct S) ∈ rs
  keys : ∀ S ∈ x.STRUCTS_USED_BY_CBGs.keys, ∃ F, .stored F (.struct S) ∈ rs
  pairs : ∀ F L, (F, L) ∈ x.CPTR_REDIRECTION_TO_EXTERNAL ↔
    ∃ callee, .forward F callee ∈ rs ∧ ∃ symbols, (L, symbols) ∈ lib_dict.entries ∧
      callee ∈ symbols.keys

-- The key that the parser makes of the name of a type.
def TypeName.key : TypeName → Name
  | struct name => name
  | union name => ' ' :: unionDot ++ name
  | anon => ' ' :: anonText

-- What the parser makes of a record.
def StructRecord.effect (lib_dict : Dict Path (Dict Name Address)) (x : SymLog) :
    StructRecord → SymLog
  | .stored F type =>
    if functionWord.isPrefixOf F then x
    else
      { x with
        STRUCTS_USED_BY_CBGs := addUse x.STRUCTS_USED_BY_CBGs type.key F }
  | .forward F callee =>
    { x with
      CPTR_REDIRECTION_TO_EXTERNAL := x.CPTR_REDIRECTION_TO_EXTERNAL ++
        (lib_dict.entries.filter fun e => callee ∈ e.2.keys).map fun e => (F, e.1) }
  | _ => x

section Lines

variable {lib_dict : Dict Path (Dict Name Address)}

theorem functionWord_word : Word functionWord := .of_all (by decide)

theorem functionWord_plain : Plain functionWord := ⟨functionWord_word, by decide⟩

theorem isPrefixOf_append_cons {p s t : Name} {c : Char} (hc : c ∉ p) :
    p.isPrefixOf (s ++ c :: t) = p.isPrefixOf s := by
  induction p generalizing s with
  | nil => simp
  | cons d p ih =>
    rw [List.mem_cons, not_or] at hc
    cases s with
    | nil => simp [List.isPrefixOf, Ne.symm hc.1]
    | cons e s => simp [List.isPrefixOf, ih hc.2]

theorem splitOn_cons {sep : Char} {xs ys : List Char} (hx : sep ∉ xs) (hy : sep ∉ ys) :
    (xs ++ sep :: ys).splitOn sep = [xs, ys] := by
  have hne {zs : List Char} (h : sep ∉ zs) : ∀ z ∈ zs, (z == sep) = false := by
    intro z hz
    rw [beq_eq_false_iff_ne]
    rintro rfl
    exact h hz
  rw [List.splitOn, List.splitOnP_append_cons_of_forall_mem (hne hx) sep (beq_self_eq_true sep),
    List.splitOnP_eq_singleton (hne hy)]

theorem TypeName.text_word {F : Name} {type : TypeName} (h : (StructRecord.stored F type).Named) :
    Word type.text := by
  have happend {pre name : Name} (hpre : Word pre) (hname : Word name) : Word (pre ++ name) := by
    refine ⟨List.append_ne_nil_of_left_ne_nil hpre.1 _, fun c hc => ?_⟩
    exact (List.mem_append.mp hc).elim (hpre.2 c) (hname.2 c)
  cases type with
  | struct name => exact happend (.of_all (by decide)) h.2.word
  | union name => exact happend (.of_all (by decide)) h.2.word
  | anon => exact .of_all (by decide)

theorem TypeName.text_no_colon {F : Name} {type : TypeName}
    (h : (StructRecord.stored F type).Named) : ':' ∉ ' ' :: type.text := by
  have happend {pre name : Name} (hpre : ':' ∉ pre) (hname : ':' ∉ name) : ':' ∉ ' ' :: (pre ++ name) := by
    simp [hpre, hname]
  cases type with
  | struct name => exact happend (by decide) h.2.no_colon
  | union name => exact happend (by decide) h.2.no_colon
  | anon => decide

theorem StructRecord.stored_plain {F : Name} {type : TypeName}
    (h : (StructRecord.stored F type).Named) : Plain F := by
  cases type with
  | struct name => exact h.1
  | union name => exact h.1
  | anon => exact h

theorem removePrefix_text (type : TypeName) :
    removePrefix " struct.".toList (' ' :: type.text) = type.key := by
  have hstruct : " struct.".toList = ' ' :: structDot := by decide
  rw [hstruct, removePrefix]
  cases type with
  | struct name =>
    rw [TypeName.text, if_pos, List.length_cons, List.drop_succ_cons, List.drop_left]
    · rfl
    · exact List.isPrefixOf_iff_prefix.mpr (List.prefix_append (' ' :: structDot) name)
  | union name => rfl
  | anon => rfl

theorem parseSymLine_stored (x : SymLog) {F : Name} {type : TypeName}
    (h : (StructRecord.stored F type).Named) :
    parseSymLine lib_dict x (StructRecord.stored F type).line =
      (StructRecord.stored F type).effect lib_dict x := by
  have hF := StructRecord.stored_plain h
  have hcolon := TypeName.text_no_colon h
  have hstrip : strip (StructRecord.stored F type).line = (StructRecord.stored F type).line := by
    have htight := hF.word.tight.append (TypeName.text_word h).tight [':', ' ']
    rw [List.append_assoc] at htight
    exact strip_tight htight
  have hremove : functionWord.isPrefixOf (StructRecord.stored F type).line =
      functionWord.isPrefixOf F := isPrefixOf_append_cons functionWord_plain.no_colon
  have hfields : fields ':' (StructRecord.stored F type).line =
      [strip F, strip (' ' :: type.text)] := by
    rw [StructRecord.line, fields_cons hF.no_colon, fields_singleton hcolon]
  have hmem : ':' ∈ (StructRecord.stored F type).line :=
    List.mem_append_right _ List.mem_cons_self
  have hsplit : (StructRecord.stored F type).line.splitOn ':' = [F, ' ' :: type.text] :=
    splitOn_cons hF.no_colon hcolon
  rw [StructRecord.effect, parseSymLine]
  change (if functionWord.isPrefixOf _ = true then _ else _) = _
  rw [hremove, hstrip, hfields, hsplit, if_pos hmem]
  by_cases hfunction : functionWord.isPrefixOf F = true
  · rw [if_pos hfunction, if_pos hfunction]
    exact if_neg (by decide : ¬ 3 ≤ 2)
  · rw [if_neg hfunction, if_neg hfunction]
    exact congrArg (fun key => { x with
      STRUCTS_USED_BY_CBGs := addUse x.STRUCTS_USED_BY_CBGs key F }) (removePrefix_text type)

-- The lines of one name have no colon.
theorem parseSymLine_of_no_colon (x : SymLog) {line : Name} (h : ':' ∉ line)
    (hstrip : ':' ∉ strip line) : parseSymLine lib_dict x line = x := by
  unfold parseSymLine
  rw [fields_singleton hstrip, if_neg h]
  split
  · exact if_neg (by decide : ¬ 3 ≤ 1)
  · rfl

theorem parseSymLine_forward (x : SymLog) {F callee : Name} (hF : Plain F) (hcallee : Plain callee) :
    parseSymLine lib_dict x (StructRecord.forward F callee).line =
      (StructRecord.forward F callee).effect lib_dict x := by
  have hline : (StructRecord.forward F callee).line =
      (functionWord ++ [' ']) ++ ':' :: ((' ' :: (F ++ [' '])) ++ ':' :: ' ' :: callee) := by
    simp [StructRecord.line]
  have hremove : functionWord.isPrefixOf (StructRecord.forward F callee).line = true := by
    refine List.isPrefixOf_iff_prefix.mpr ?_
    simp only [StructRecord.line, List.append_assoc]
    exact List.prefix_append _ _
  have hstrip : strip (StructRecord.forward F callee).line =
      (StructRecord.forward F callee).line := by
    have htight := functionWord_word.tight.append hcallee.word.tight
      (' ' :: ':' :: ' ' :: F ++ [' ', ':', ' '])
    refine strip_tight ?_
    simpa [StructRecord.line] using htight
  have hfirst : ':' ∉ functionWord ++ [' '] := by decide
  have hsecond : ':' ∉ ' ' :: (F ++ [' ']) := by simp [hF.no_colon]
  have hthird : ':' ∉ ' ' :: callee := by simp [hcallee.no_colon]
  have hfields : fields ':' (StructRecord.forward F callee).line = [functionWord, F, callee] := by
    rw [hline, fields_cons hfirst, fields_cons hsecond, fields_singleton hthird,
      strip_before functionWord_word.tight, strip_between hF.word.tight,
      strip_after hcallee.word.tight]
  unfold parseSymLine
  change (if functionWord.isPrefixOf _ = true then _ else _) = _
  rw [if_pos hremove, hstrip, hfields]
  rfl

theorem parseSymLine_line (x : SymLog) {r : StructRecord} (h : r.Named) :
    parseSymLine lib_dict x r.line = r.effect lib_dict x := by
  cases r with
  | stored F type => exact parseSymLine_stored x h
  | pointerGlobal N =>
    refine parseSymLine_of_no_colon x h.no_colon ?_
    rw [StructRecord.line, strip_tight h.word.tight]
    exact h.no_colon
  | forward F callee => exact parseSymLine_forward x h.1 h.2
  | structArg name F =>
    have hcolon : ':' ∉ (StructRecord.structArg name F).line := by
      have hstruct : ':' ∉ structDot := by decide
      simp [StructRecord.line, hstruct, h.1.no_colon, h.2.no_colon]
    have htight : Tight (StructRecord.structArg name F).line := by
      have hstruct : Word structDot := .of_all (by decide)
      have happend := hstruct.tight.append h.2.word.tight (name ++ [' '])
      simpa [StructRecord.line] using happend
    refine parseSymLine_of_no_colon x hcolon ?_
    rw [strip_tight htight]
    exact hcolon

end Lines

theorem addUse_eq (d : Dict Name Uses) (struct function : Name) :
    addUse d struct function = d.insertOnce struct (some function) := by
  unfold addUse Dict.insertOnce
  cases d.get? struct with
  | none => rfl
  | some uses => by_cases h : some function ∈ uses <;> simp [h]

-- A record that the parser takes for one of a struct.
def Stored (rs : List StructRecord) (S F : Name) : Prop :=
  ∃ type, .stored F type ∈ rs ∧ functionWord.isPrefixOf F = false ∧ type.key = S

def Forwarded (lib_dict : Dict Path (Dict Name Address)) (rs : List StructRecord) (F : Name)
    (L : Path) : Prop :=
  ∃ callee, .forward F callee ∈ rs ∧ ∃ symbols, (L, symbols) ∈ lib_dict.entries ∧
    callee ∈ symbols.keys

-- What is known after some records.
structure Collected (lib_dict : Dict Path (Dict Name Address)) (rs : List StructRecord)
    (x : SymLog) : Prop where
  uses : ∀ S u, u ∈ (x.STRUCTS_USED_BY_CBGs.get? S).getD [] ↔ ∃ F, u = some F ∧ Stored rs S F
  keys : ∀ S, S ∈ x.STRUCTS_USED_BY_CBGs.keys ↔ ∃ F, Stored rs S F
  pairs : ∀ F L, (F, L) ∈ x.CPTR_REDIRECTION_TO_EXTERNAL ↔ Forwarded lib_dict rs F L

section Collected

variable {lib_dict : Dict Path (Dict Name Address)} {rs : List StructRecord} {x : SymLog}

theorem stored_append (r : StructRecord) (S F : Name) :
    Stored (rs ++ [r]) S F ↔ Stored rs S F ∨ Stored [r] S F := by
  simp only [Stored, List.mem_append, or_and_right, exists_or]

theorem forwarded_append (r : StructRecord) (F : Name) (L : Path) :
    Forwarded lib_dict (rs ++ [r]) F L ↔ Forwarded lib_dict rs F L ∨ Forwarded lib_dict [r] F L := by
  simp only [Forwarded, List.mem_append, or_and_right, exists_or]

theorem collected_nil : Collected lib_dict [] ⟨[], .empty⟩ where
  uses S u := by simp [Dict.get?, Dict.find, Dict.empty, Stored]
  keys S := by simp [Dict.keys, Dict.empty, Stored]
  pairs F L := by simp [Forwarded]

-- A record adds what it says itself.
theorem Collected.add (h : Collected lib_dict rs x) (r : StructRecord)
    (huses : ∀ S u, u ∈ ((r.effect lib_dict x).STRUCTS_USED_BY_CBGs.get? S).getD [] ↔
      u ∈ (x.STRUCTS_USED_BY_CBGs.get? S).getD [] ∨ ∃ F, u = some F ∧ Stored [r] S F)
    (hkeys : ∀ S, S ∈ (r.effect lib_dict x).STRUCTS_USED_BY_CBGs.keys ↔
      S ∈ x.STRUCTS_USED_BY_CBGs.keys ∨ ∃ F, Stored [r] S F)
    (hpairs : ∀ F L, (F, L) ∈ (r.effect lib_dict x).CPTR_REDIRECTION_TO_EXTERNAL ↔
      (F, L) ∈ x.CPTR_REDIRECTION_TO_EXTERNAL ∨ Forwarded lib_dict [r] F L) :
    Collected lib_dict (rs ++ [r]) (r.effect lib_dict x) where
  uses S u := by
    simp only [huses, h.uses, stored_append, and_or_left, exists_or]
  keys S := by
    simp only [hkeys, h.keys, stored_append, exists_or]
  pairs F L := by
    simp only [hpairs, h.pairs, forwarded_append]

-- A record that is not read says nothing.
theorem Collected.skip (h : Collected lib_dict rs x) {r : StructRecord}
    (heffect : r.effect lib_dict x = x) (hstored : ∀ S F, ¬ Stored [r] S F)
    (hforwarded : ∀ F L, ¬ Forwarded lib_dict [r] F L) :
    Collected lib_dict (rs ++ [r]) (r.effect lib_dict x) := by
  refine h.add r ?_ ?_ ?_
  · simp [heffect, hstored]
  · simp [heffect, hstored]
  · simp [heffect, hforwarded]

theorem Collected.effect (h : Collected lib_dict rs x) (r : StructRecord) :
    Collected lib_dict (rs ++ [r]) (r.effect lib_dict x) := by
  cases r with
  | pointerGlobal N => exact h.skip rfl (by simp [Stored]) (by simp [Forwarded])
  | structArg name F => exact h.skip rfl (by simp [Stored]) (by simp [Forwarded])
  | forward F callee =>
    refine h.add (.forward F callee) ?_ ?_ fun F' L => ?_
    · simp [StructRecord.effect, Stored]
    · simp [StructRecord.effect, Stored]
    · simp only [StructRecord.effect, List.mem_append, Forwarded, List.mem_singleton,
        StructRecord.forward.injEq, List.mem_map, List.mem_filter, decide_eq_true_eq,
        Prod.mk.injEq]
      refine or_congr_right ⟨?_, ?_⟩
      · rintro ⟨⟨L', symbols⟩, ⟨hmem, hexport⟩, rfl, rfl⟩
        exact ⟨callee, ⟨rfl, rfl⟩, symbols, hmem, hexport⟩
      · rintro ⟨callee', ⟨rfl, rfl⟩, symbols, hmem, hexport⟩
        exact ⟨(L, symbols), ⟨hmem, hexport⟩, rfl, rfl⟩
  | stored F type =>
    by_cases hfunction : functionWord.isPrefixOf F = true
    · have hnone (S F' : Name) : ¬ Stored [.stored F type] S F' := by
        rintro ⟨type', hmem, hF, -⟩
        cases List.mem_singleton.mp hmem
        rw [hfunction] at hF
        cases hF
      exact h.skip (if_pos hfunction) hnone (by simp [Forwarded])
    · have hone (S F' : Name) : Stored [.stored F type] S F' ↔ type.key = S ∧ F' = F := by
        constructor
        · rintro ⟨type', hmem, -, hkey⟩
          cases List.mem_singleton.mp hmem
          exact ⟨hkey, rfl⟩
        · rintro ⟨hkey, rfl⟩
          exact ⟨type, List.mem_singleton_self _, Bool.eq_false_iff.mpr hfunction, hkey⟩
      refine h.add (.stored F type) (fun S u => ?_) (fun S => ?_) ?_
      · simp only [StructRecord.effect, if_neg hfunction, addUse_eq, Dict.mem_insertOnce, hone]
        refine or_congr_right ⟨?_, ?_⟩
        · rintro ⟨hkey, rfl⟩
          exact ⟨F, rfl, hkey, rfl⟩
        · rintro ⟨F', rfl, hkey, rfl⟩
          exact ⟨hkey, rfl⟩
      · simp only [StructRecord.effect, if_neg hfunction, addUse_eq, Dict.mem_keys_insertOnce,
          hone, exists_eq_right]
        rw [or_comm, eq_comm]
      · simp [StructRecord.effect, hfunction, Forwarded]

theorem collected_parseSym (rs : List StructRecord) (h : ∀ r ∈ rs, r.Named) :
    Collected lib_dict rs (parseSym lib_dict (rs.map StructRecord.line)) := by
  induction rs using List.reverseRecOn with
  | nil => exact collected_nil
  | append_singleton rs r ih =>
    have hprev := ih fun r' hr' => h r' (List.mem_append_left _ hr')
    have hr : r.Named := h r (List.mem_append_right _ (List.mem_singleton_self r))
    have hstep := hprev.effect r
    rw [← parseSymLine_line _ hr] at hstep
    simpa [parseSym, List.foldl_append] using hstep

theorem key_blank {type : TypeName} (h : ∀ S, type ≠ .struct S) : ∃ rest, type.key = ' ' :: rest := by
  cases type with
  | struct S => exact absurd rfl (h S)
  | union name => exact ⟨_, rfl⟩
  | anon => exact ⟨_, rfl⟩

end Collected

-- A line of a function whose name starts like a record of the other kind is not read, and a line
-- of a union or of a type without a name is read as one of a struct whose name starts with a blank.
theorem parseSym_recovers_iff (lib_dict : Dict Path (Dict Name Address)) (rs : List StructRecord)
    (h : ∀ r ∈ rs, r.Named) :
    Recovers lib_dict rs (parseSym lib_dict (rs.map StructRecord.line)) ↔
      ∀ F type, .stored F type ∈ rs →
        (functionWord.isPrefixOf F = false ↔ ∃ S, type = .struct S) := by
  have hall : Collected lib_dict rs (parseSym lib_dict (rs.map StructRecord.line)) :=
    collected_parseSym rs h
  constructor
  · intro hrec F type hmem
    constructor
    · intro hfunction
      by_contra hstruct
      rw [not_exists] at hstruct
      obtain ⟨rest, hkey⟩ := key_blank hstruct
      obtain ⟨F', hF'⟩ := hrec.keys type.key ((hall.keys type.key).mpr
        ⟨F, type, hmem, hfunction, rfl⟩)
      have hword := (h _ hF').2.word.2
      rw [hkey] at hword
      exact absurd (hword ' ' List.mem_cons_self) (by decide)
    · rintro ⟨S, rfl⟩
      obtain ⟨F', hF', type', -, hfunction, -⟩ :=
        (hall.uses S (some F)).mp ((hrec.uses S (some F)).mpr ⟨F, rfl, hmem⟩)
      cases hF'
      exact hfunction
  · intro hrs
    have hstored (S F : Name) : Stored rs S F ↔ .stored F (.struct S) ∈ rs := by
      constructor
      · rintro ⟨type, hmem, hfunction, rfl⟩
        obtain ⟨S, rfl⟩ := (hrs F type hmem).mp hfunction
        exact hmem
      · exact fun hmem => ⟨.struct S, hmem, (hrs F _ hmem).mpr ⟨S, rfl⟩, rfl⟩
    refine ⟨fun S u => ?_, fun S hS => ?_, hall.pairs⟩
    · simp only [hall.uses, hstored]
    · obtain ⟨F, hF⟩ := (hall.keys S).mp hS
      exact ⟨F, (hstored S F).mp hF⟩

-- A module that keeps a pointer in a struct and hands another one to `qsort`.

def sortRecords (F : Name) : List StructRecord :=
  [.stored F (.struct "table".toList), .forward "sort_all".toList "qsort".toList,
    .structArg "table".toList F]

def sortLibs : Dict Path (Dict Name Address) :=
  ⟨[("libc.so".toList, ⟨[("qsort".toList, hex 0x1000)], by decide⟩)], by decide⟩

theorem sortRecords_named {F : Name} (hF : Plain F) : ∀ r ∈ sortRecords F, r.Named := by
  have hname {n : Name} (h : (!n.isEmpty && n.all fun c => !isBlank c) = true ∧ ':' ∉ n) :
      Plain n := ⟨.of_all h.1, h.2⟩
  intro r hr
  rcases List.mem_cons.mp hr with rfl | hr
  · exact ⟨hF, hname (by decide)⟩
  rcases List.mem_cons.mp hr with rfl | hr
  · exact ⟨hname (by decide), hname (by decide)⟩
  · cases List.mem_singleton.mp hr
    exact ⟨hname (by decide), hF⟩

def storeCallback : Name := "store_callback".toList

def functionAdd : Name := "Function_add".toList

theorem storeCallback_plain : Plain storeCallback := ⟨.of_all (by decide), by decide⟩

theorem functionAdd_plain : Plain functionAdd := ⟨.of_all (by decide), by decide⟩

theorem parseSym_recovers_storeCallback :
    Recovers sortLibs (sortRecords storeCallback)
      (parseSym sortLibs ((sortRecords storeCallback).map StructRecord.line)) := by
  refine (parseSym_recovers_iff _ _ (sortRecords_named storeCallback_plain)).mpr ?_
  intro F type hmem
  rcases List.mem_cons.mp hmem with h | h
  · cases h
    exact ⟨fun _ => ⟨_, rfl⟩, fun _ => by decide⟩
  · simp at h

-- The record of `Function_add` is dropped.
theorem functionAdd_not_recovered : ¬ Recovers sortLibs (sortRecords functionAdd)
    (parseSym sortLibs ((sortRecords functionAdd).map StructRecord.line)) := by
  intro h
  have hstored := (h.uses "table".toList (some functionAdd)).mpr
    ⟨functionAdd, rfl, List.mem_cons_self⟩
  obtain ⟨F, hF, type, -, hfunction, -⟩ :=
    ((collected_parseSym _ (sortRecords_named functionAdd_plain)).uses _ _).mp hstored
  cases hF
  revert hfunction
  decide

end Platypus.Parser
