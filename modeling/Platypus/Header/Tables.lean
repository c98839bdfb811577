import Mathlib
import Platypus.Dict.Ordered
import Platypus.Text.Scan

namespace Platypus.Header

abbrev Name := List Char

-- The tables of the header file: for each tag the whitelist entries of its callbacks.
abbrev MaskDict := Dict Name (List Name)

def makeVarnameSuffix (varname : Name) (occurrence : Nat) : Name :=
  if occurrence = 1 then varname ++ "_1337".toList
  else varname ++ "_".toList ++ List.replicate (occurrence - 1) '1' ++ "1337".toList

abbrev Counter := Name → Nat

def Counter.bump (ctr : Counter) (v : Name) : Counter := fun w => if w = v then ctr v + 1 else ctr w

theorem Counter.le_bump (ctr : Counter) (v w : Name) : ctr w ≤ ctr.bump v w := by
  unfold Counter.bump
  split
  · subst ‹w = v›
    exact Nat.le_succ _
  · exact Nat.le_refl _

def countAll (ctr : Counter) : List Name → Counter
  | [] => ctr
  | v :: vs => countAll (ctr.bump v) vs

def maxOccurrencePerSymbol (d : MaskDict) : Counter :=
  d.entries.foldl (fun ctr e => countAll ctr (fromkeys e.2)) fun _ => 0

-- The set of all entries, in some order: Python does not fix one.
structure AllVars (d : MaskDict) where
  vars : List Name
  nodup : vars.Nodup
  mem_iff : ∀ v, v ∈ vars ↔ ∃ e ∈ d.entries, v ∈ e.2

-- The names that `mask.h` declares.
def declaredNames (d : MaskDict) (all_vars : List Name) : List Name :=
  all_vars.flatMap fun varname =>
    (List.range (maxOccurrencePerSymbol d varname)).map fun i => makeVarnameSuffix varname (i + 1)

-- A slot of a table: the entry it stands for and the C symbol whose address it takes.
structure Slot where
  entry : Name
  symbol : Name
  deriving DecidableEq, Repr

structure Table where
  key : Name
  slots : List Slot
  deriving DecidableEq, Repr

-- The symbols whose addresses a table takes, before its zero terminator.
def Table.refs (t : Table) : List Name :=
  t.slots.map Slot.symbol ++ if t.key = "LIBC".toList then ["main".toList] else []

def tableName (key : Name) : Name := key.map Char.toLower ++ "_table".toList

def emitSlots (ctr : Counter) : List Name → List Slot
  | [] => []
  | v :: vs => ⟨v, makeVarnameSuffix v (ctr.bump v v)⟩ :: emitSlots (ctr.bump v) vs

def emitTables (ctr : Counter) : List (Name × List Name) → List Table
  | [] => []
  | (key, values) :: es =>
    ⟨key, emitSlots ctr (fromkeys values)⟩ :: emitTables (countAll ctr (fromkeys values)) es

-- The tables of `mask.c`.
def tables (d : MaskDict) : List Table := emitTables (fun _ => 0) d.entries

def referencedNames (ts : List Table) : List Name := ts.flatMap fun t => t.slots.map Slot.symbol

-- The part of a name after its last underscore tells the occurrence.
theorem makeVarnameSuffix_eq (v : Name) (i : Nat) (hi : 1 ≤ i) :
    makeVarnameSuffix v i = v ++ '_' :: (List.replicate (i - 1) '1' ++ "1337".toList) := by
  by_cases h : i = 1
  · subst h
    rfl
  · rw [makeVarnameSuffix, if_neg h]
    simp [List.append_assoc]

theorem underscore_not_mem_suffix (i : Nat) : '_' ∉ List.replicate i '1' ++ "1337".toList := by
  rw [List.mem_append, not_or]
  exact ⟨fun h => absurd (List.eq_of_mem_replicate h) (by decide), by decide⟩

theorem makeVarnameSuffix_inj {v w : Name} {i j : Nat} (hi : 1 ≤ i) (hj : 1 ≤ j)
    (h : makeVarnameSuffix v i = makeVarnameSuffix w j) : v = w ∧ i = j := by
  rw [makeVarnameSuffix_eq v i hi, makeVarnameSuffix_eq w j hj] at h
  obtain ⟨rfl, hij⟩ :=
    Text.append_cons_inj_of_last (underscore_not_mem_suffix _) (underscore_not_mem_suffix _) h
  have hlen := congrArg List.length hij
  simp only [List.length_append, List.length_replicate] at hlen
  exact ⟨rfl, by omega⟩

theorem countAll_apply (ctr : Counter) (vs : List Name) (v : Name) :
    countAll ctr vs v = ctr v + vs.count v := by
  induction vs generalizing ctr with
  | nil => rfl
  | cons w vs ih =>
    rw [countAll, ih, Counter.bump]
    by_cases h : v = w
    · subst h
      rw [if_pos rfl, List.count_cons_self]
      omega
    · rw [if_neg h, List.count_cons_of_ne (Ne.symm h)]

theorem countAll_append (ctr : Counter) (vs ws : List Name) :
    countAll ctr (vs ++ ws) = countAll (countAll ctr vs) ws := by
  induction vs generalizing ctr with
  | nil => rfl
  | cons v vs ih => exact ih _

theorem emitSlots_append (ctr : Counter) (vs ws : List Name) :
    emitSlots ctr (vs ++ ws) = emitSlots ctr vs ++ emitSlots (countAll ctr vs) ws := by
  induction vs generalizing ctr with
  | nil => rfl
  | cons v vs ih =>
    simp only [List.cons_append, emitSlots, countAll, ih]

theorem emitSlots_entries (ctr : Counter) (vs : List Name) :
    (emitSlots ctr vs).map Slot.entry = vs := by
  induction vs generalizing ctr with
  | nil => rfl
  | cons v vs ih => rw [emitSlots, List.map_cons, ih]

-- A symbol is emitted for the occurrences that the counter has not passed yet.
theorem mem_emitSlots_symbols (ctr : Counter) (vs : List Name) (n : Name) :
    n ∈ (emitSlots ctr vs).map Slot.symbol ↔
      ∃ v i, ctr v < i ∧ i ≤ countAll ctr vs v ∧ n = makeVarnameSuffix v i := by
  induction vs generalizing ctr with
  | nil =>
    simp only [emitSlots, List.map_nil, List.not_mem_nil, false_iff]
    rintro ⟨v, i, hlt, hle, -⟩
    exact absurd hle (Nat.not_le.mpr hlt)
  | cons w vs ih =>
    have hw : ctr.bump w w = ctr w + 1 := if_pos rfl
    have hle : ctr w + 1 ≤ countAll (ctr.bump w) vs w := by
      rw [countAll_apply, hw]
      exact Nat.le_add_right _ _
    rw [emitSlots, List.map_cons, List.mem_cons, ih, countAll]
    constructor
    · rintro (rfl | ⟨v, i, hlt, hi, rfl⟩)
      · exact ⟨w, _, by rw [hw]; omega, by rw [hw]; exact hle, rfl⟩
      · refine ⟨v, i, Nat.lt_of_le_of_lt ?_ hlt, hi, rfl⟩
        exact ctr.le_bump w v
    · rintro ⟨v, i, hlt, hi, rfl⟩
      by_cases h : v = w ∧ i = ctr w + 1
      · obtain ⟨rfl, rfl⟩ := h
        exact .inl (by rw [hw])
      · refine .inr ⟨v, i, ?_, hi, rfl⟩
        by_cases hv : v = w
        · subst hv
          have hne : i ≠ ctr v + 1 := fun hi' => h ⟨rfl, hi'⟩
          rw [hw]
          omega
        · rwa [Counter.bump, if_neg hv]

theorem nodup_emitSlots_symbols (ctr : Counter) (vs : List Name) :
    ((emitSlots ctr vs).map Slot.symbol).Nodup := by
  induction vs generalizing ctr with
  | nil => exact List.nodup_nil
  | cons w vs ih =>
    rw [emitSlots, List.map_cons, List.nodup_cons]
    refine ⟨fun hmem => ?_, ih _⟩
    obtain ⟨v, i, hlt, -, heq⟩ := (mem_emitSlots_symbols _ _ _).mp hmem
    have hpos : 1 ≤ ctr.bump w w := by simp [Counter.bump]
    obtain ⟨rfl, rfl⟩ := makeVarnameSuffix_inj hpos (by omega) heq
    exact absurd hlt (Nat.lt_irrefl _)

-- Both traversals go through the distinct entries of the tables, one table after the other.
def distinctEntries (es : List (Name × List Name)) : List Name := es.flatMap fun e => fromkeys e.2

theorem referencedNames_emitTables (ctr : Counter) (es : List (Name × List Name)) :
    referencedNames (emitTables ctr es) =
      (emitSlots ctr (distinctEntries es)).map Slot.symbol := by
  induction es generalizing ctr with
  | nil => rfl
  | cons e es ih =>
    obtain ⟨key, values⟩ := e
    rw [distinctEntries, List.flatMap_cons, emitSlots_append, List.map_append]
    rw [emitTables, referencedNames, List.flatMap_cons]
    exact congrArg _ (ih _)

theorem maxOccurrencePerSymbol_eq (d : MaskDict) :
    maxOccurrencePerSymbol d = countAll (fun _ => 0) (distinctEntries d.entries) := by
  suffices h : ∀ (es : List (Name × List Name)) (ctr : Counter),
      es.foldl (fun ctr e => countAll ctr (fromkeys e.2)) ctr = countAll ctr (distinctEntries es) from
    h _ _
  intro es
  induction es with
  | nil => exact fun _ => rfl
  | cons e es ih =>
    intro ctr
    rw [List.foldl_cons, ih, ← countAll_append]
    rfl

theorem mem_distinctEntries (es : List (Name × List Name)) (v : Name) :
    v ∈ distinctEntries es ↔ ∃ e ∈ es, v ∈ e.2 := by
  simp only [distinctEntries, List.mem_flatMap, mem_fromkeys]

theorem mem_referencedNames (d : MaskDict) (n : Name) :
    n ∈ referencedNames (tables d) ↔
      ∃ v i, 0 < i ∧ i ≤ maxOccurrencePerSymbol d v ∧ n = makeVarnameSuffix v i := by
  rw [tables, referencedNames_emitTables, mem_emitSlots_symbols, maxOccurrencePerSymbol_eq]

theorem mem_declaredNames (d : MaskDict) (all_vars : List Name) (n : Name) :
    n ∈ declaredNames d all_vars ↔
      ∃ v ∈ all_vars, ∃ i, 0 < i ∧ i ≤ maxOccurrencePerSymbol d v ∧ n = makeVarnameSuffix v i := by
  simp only [declaredNames, List.mem_flatMap, List.mem_map, List.mem_range]
  constructor
  · rintro ⟨v, hv, i, hi, rfl⟩
    exact ⟨v, hv, i + 1, by omega, by omega, rfl⟩
  · rintro ⟨v, hv, i, hpos, hi, rfl⟩
    exact ⟨v, hv, i - 1, by omega, by rw [Nat.sub_add_cancel hpos]⟩

instance (d : MaskDict) : Inhabited (AllVars d) :=
  ⟨fromkeys (distinctEntries d.entries), nodup_fromkeys _, fun v => by
    rw [mem_fromkeys, mem_distinctEntries]⟩

-- A symbol is counted only if some table has it, so that the set of all variables misses none.
theorem mem_all_vars_of_count (d : MaskDict) (all_vars : AllVars d) (v : Name)
    (h : 0 < maxOccurrencePerSymbol d v) : v ∈ all_vars.vars := by
  rw [maxOccurrencePerSymbol_eq, countAll_apply, Nat.zero_add, List.count_pos_iff,
    mem_distinctEntries] at h
  exact (all_vars.mem_iff v).mpr h

theorem emitTables_keys (ctr : Counter) (es : List (Name × List Name)) :
    (emitTables ctr es).map Table.key = es.map Prod.fst := by
  induction es generalizing ctr with
  | nil => rfl
  | cons e es ih => exact congrArg _ (ih _)

theorem emitTables_entries (ctr : Counter) (es : List (Name × List Name)) (t : Table)
    (ht : t ∈ emitTables ctr es) :
    ∃ values, (t.key, values) ∈ es ∧ t.slots.map Slot.entry = fromkeys values := by
  induction es generalizing ctr with
  | nil => exact absurd ht List.not_mem_nil
  | cons e es ih =>
    obtain ⟨key, values⟩ := e
    rw [emitTables, List.mem_cons] at ht
    rcases ht with rfl | ht
    · exact ⟨values, List.mem_cons_self, emitSlots_entries _ _⟩
    · obtain ⟨values', hmem, hslots⟩ := ih _ ht
      exact ⟨values', List.mem_cons_of_mem _ hmem, hslots⟩

-- What the two files are for a dictionary: in `mask.c` every table has each of its entries in
-- one slot, no symbol is in two slots, and `mask.h` declares the symbols of the slots.
structure OneSlotEach (d : MaskDict) (declared : List Name) (ts : List Table) : Prop where
  keys : ts.map Table.key = d.keys
  once : ∀ t ∈ ts, (t.slots.map Slot.entry).Nodup
  entries : ∀ t ∈ ts, ∃ values, d.get? t.key = some values ∧
    ∀ v, v ∈ t.slots.map Slot.entry ↔ v ∈ values
  symbols : (referencedNames ts).Nodup
  declared : ∀ n, n ∈ declared ↔ n ∈ referencedNames ts

theorem tables_oneSlotEach (d : MaskDict) (all_vars : AllVars d) :
    OneSlotEach d (declaredNames d all_vars.vars) (tables d) where
  keys := emitTables_keys _ _
  once t ht := by
    obtain ⟨values, -, hslots⟩ := emitTables_entries _ _ t ht
    rw [hslots]
    exact nodup_fromkeys values
  entries t ht := by
    obtain ⟨values, hmem, hslots⟩ := emitTables_entries _ _ t ht
    refine ⟨values, d.get?_of_mem hmem, fun v => ?_⟩
    rw [hslots, mem_fromkeys]
  symbols := by
    rw [tables, referencedNames_emitTables]
    exact nodup_emitSlots_symbols _ _
  declared n := by
    rw [mem_declaredNames, mem_referencedNames]
    constructor
    · rintro ⟨v, -, i, hi⟩
      exact ⟨v, i, hi⟩
    · rintro ⟨v, i, hpos, hle, rfl⟩
      exact ⟨v, mem_all_vars_of_count d all_vars v (by omega), i, hpos, hle, rfl⟩

end Platypus.Header
