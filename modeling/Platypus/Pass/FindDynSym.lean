import Mathlib

-- The pass `FindDynSym`: which functions it logs as arguments of which calls.

namespace Platypus.Pass

abbrev Name := List Char

-- A value of the IR is known by its number.
abbrev Value := Nat

-- What the pass asks of a value.
inductive Node
  | function (name : Name)
  | load (ptr : Value)
  | cast (v : Value)
  | phi (incoming : List Value)
  | select (trueValue falseValue : Value)
  | other
  deriving DecidableEq, Repr

structure CallBase where
  calledOperand : Value
  -- whether `getCalledFunction` gives the called operand when that is a function
  typeMatches : Bool := true
  args : List Value
  deriving DecidableEq, Repr

inductive Instr
  | store (value ptr : Value)
  | call (c : CallBase)
  | other
  deriving DecidableEq, Repr

structure Module where
  node : Value → Node
  -- the number of values
  size : Nat
  functions : List (List Instr)
  -- the operand of a cast is defined before it
  cast_lt : ∀ v w, node v = .cast w → w < v
  -- what `stripPointerCasts` leaves
  stripPointerCasts : Value → Value

-- A line "g: f at arg index i".
structure Record where
  g : Name
  f : Name
  arg_pos : Nat
  deriving DecidableEq, Repr

namespace Module

variable (m : Module)

def functionName (v : Value) : Option Name :=
  match m.node v with
  | .function name => some name
  | _ => none

def unwrapRounds : Nat → Value → Value
  | 0, v => v
  | rounds + 1, v =>
    match m.node v with
    | .cast w => unwrapRounds rounds w
    | _ => v

-- The numbers of the operands fall, so that the loop ends within as many rounds.
def unwrapCasts (v : Value) : Value := m.unwrapRounds (v + 1) v

-- The values seen so far, and the functions found.
structure Search where
  seen : List Value := []
  funcs : List Value := []

-- The recursion with a set of seen values; `none` if it is deeper than `fuel`.
def findAllFunctionsSeen : Nat → Search → Value → Option Search
  | 0, _, _ => none
  | fuel + 1, s, V =>
    let V := m.unwrapCasts V
    match m.node V with
    | .function _ => some { s with funcs := s.funcs.insert V }
    | node =>
      if V ∈ s.seen then some s
      else
        let s := { s with seen := V :: s.seen }
        match node with
        | .phi incoming => incoming.foldlM (findAllFunctionsSeen fuel) s
        | .select trueValue falseValue =>
          [trueValue, falseValue].foldlM (findAllFunctionsSeen fuel) s
        | _ => some s

-- Each level of the recursion sees a new value, so that it is no deeper than there are values.
def functionsIn (v : Value) : List Value :=
  ((m.findAllFunctionsSeen (m.size + 1) {} v).map Search.funcs).getD []

-- The function that is called, under the casts.
def callee (c : CallBase) : Option Name := m.functionName (m.stripPointerCasts c.calledOperand)

def calleeName (c : CallBase) : Name := (m.callee c).getD "<unknown>".toList

def getCalledFunction (c : CallBase) : Option Name :=
  if c.typeMatches then m.functionName c.calledOperand else none

-- The functions that are arguments themselves.
def directRecords (c : CallBase) (arg : Value) (arg_pos : Nat) : List Record :=
  match m.functionName arg with
  | some f => if c.calledOperand = arg then [] else [⟨m.calleeName c, f, arg_pos⟩]
  | none => []

-- Where the argument points, or is loaded from.
def base (arg : Value) : Value :=
  match m.node arg with
  | .load ptr => ptr
  | _ => arg

-- The functions that the same function stores where the argument points or is loaded from.
def localRecords (F : List Instr) (c : CallBase) (arg : Value) (arg_pos : Nat) : List Record :=
  match m.getCalledFunction c with
  | none => []
  | some g =>
    F.flatMap fun I =>
      match I with
      | .store value ptr =>
        if ptr = m.base arg then
          match m.node value with
          | .function f => [⟨g, f, arg_pos⟩]
          | .phi incoming => (incoming.filterMap m.functionName).map fun f => ⟨g, f, arg_pos⟩
          | _ => []
        else []
      | _ => []

-- The functions that were stored so far where the argument points or is loaded from.
def storedRecords (storedFuncPtrs : List (Value × Name)) (c : CallBase) (arg : Value)
    (arg_pos : Nat) : List Record :=
  storedFuncPtrs.flatMap fun S =>
    (if m.unwrapCasts S.1 = m.unwrapCasts arg then [⟨m.calleeName c, S.2, arg_pos⟩] else []) ++
      match m.node (m.unwrapCasts arg) with
      | .load loadedFrom =>
        if m.unwrapCasts S.1 = m.unwrapCasts loadedFrom then [⟨m.calleeName c, S.2, arg_pos⟩] else []
      | _ => []

-- The functions that reach the argument through phis and selects.
def valueRecords (c : CallBase) (arg : Value) (arg_pos : Nat) : List Record :=
  ((m.functionsIn arg).filter fun f =>
    (m.callee c).isNone || m.stripPointerCasts c.calledOperand ≠ f).filterMap fun f =>
      (m.functionName f).map fun name => ⟨m.calleeName c, name, arg_pos⟩

structure PassState where
  storedFuncPtrs : List (Value × Name) := []
  log : List Record := []

-- The first loop over the instructions of a function.
def firstLoop (st : PassState) : Instr → PassState
  | .store value ptr =>
    match m.functionName value with
    | some f => { st with storedFuncPtrs := st.storedFuncPtrs ++ [(ptr, f)] }
    | none => st
  | .call c =>
    { st with log := st.log ++ c.args.zipIdx.flatMap fun a => m.directRecords c a.1 a.2 }
  | .other => st

-- What the second loop logs for a call.
def callRecords (storedFuncPtrs : List (Value × Name)) (F : List Instr) (c : CallBase) : List Record :=
  c.args.zipIdx.flatMap fun a =>
    m.localRecords F c a.1 a.2 ++ m.storedRecords storedFuncPtrs c a.1 a.2 ++
      m.valueRecords c a.1 a.2

def secondLoop (F : List Instr) (st : PassState) : Instr → PassState
  | .call c => { st with log := st.log ++ m.callRecords st.storedFuncPtrs F c }
  | _ => st

def runFunction (st : PassState) (F : List Instr) : PassState :=
  F.foldl (m.secondLoop F) (F.foldl m.firstLoop st)

def run : PassState := m.functions.foldl m.runFunction {}

theorem unwrapCasts_load {v ptr : Value} (h : m.node v = .load ptr) : m.unwrapCasts v = v := by
  rw [unwrapCasts, unwrapRounds, h]

-- What the loops add.

def storesOf (F : List Instr) : List (Value × Name) :=
  F.filterMap fun I =>
    match I with
    | .store value ptr => (m.functionName value).map fun f => (ptr, f)
    | _ => none

def firstLog : Instr → List Record
  | .call c => c.args.zipIdx.flatMap fun a => m.directRecords c a.1 a.2
  | _ => []

def secondLog (storedFuncPtrs : List (Value × Name)) (F : List Instr) : Instr → List Record
  | .call c => m.callRecords storedFuncPtrs F c
  | _ => []

theorem foldl_firstLoop (Is : List Instr) (st : PassState) :
    Is.foldl m.firstLoop st =
      ⟨st.storedFuncPtrs ++ m.storesOf Is, st.log ++ Is.flatMap m.firstLog⟩ := by
  induction Is generalizing st with
  | nil => simp [storesOf]
  | cons I Is ih =>
    rw [List.foldl_cons, ih]
    cases I with
    | store value ptr =>
      cases hname : m.functionName value with
      | none => simp [firstLoop, storesOf, firstLog, hname]
      | some f => simp [firstLoop, storesOf, firstLog, hname]
    | call c => simp [firstLoop, storesOf, firstLog]
    | other => simp [firstLoop, storesOf, firstLog]

theorem foldl_secondLoop (F Is : List Instr) (st : PassState) :
    Is.foldl (m.secondLoop F) st =
      ⟨st.storedFuncPtrs, st.log ++ Is.flatMap (m.secondLog st.storedFuncPtrs F)⟩ := by
  induction Is generalizing st with
  | nil => simp
  | cons I Is ih =>
    rw [List.foldl_cons, ih]
    cases I with
    | _ => simp [secondLoop, secondLog]

-- What is logged for one function, when `stored` are the stores of the functions before it.
def functionLog (stored : List (Value × Name)) (F : List Instr) : List Record :=
  F.flatMap m.firstLog ++ F.flatMap (m.secondLog (stored ++ m.storesOf F) F)

theorem runFunction_eq (st : PassState) (F : List Instr) :
    m.runFunction st F =
      ⟨st.storedFuncPtrs ++ m.storesOf F, st.log ++ m.functionLog st.storedFuncPtrs F⟩ := by
  rw [runFunction, foldl_firstLoop, foldl_secondLoop, functionLog, List.append_assoc]

theorem mem_log_foldl (Fs : List (List Instr)) (st : PassState) (r : Record) :
    r ∈ (Fs.foldl m.runFunction st).log ↔
      r ∈ st.log ∨ ∃ b F, Fs[b]? = some F ∧
        r ∈ m.functionLog (st.storedFuncPtrs ++ (Fs.take b).flatMap m.storesOf) F := by
  induction Fs generalizing st with
  | nil => simp
  | cons F Fs ih =>
    rw [List.foldl_cons, ih, runFunction_eq]
    dsimp only
    rw [List.mem_append, or_assoc]
    refine or_congr_right ?_
    constructor
    · rintro (hF | ⟨b, G, hG, hr⟩)
      · exact ⟨0, F, rfl, by simpa using hF⟩
      · refine ⟨b + 1, G, hG, ?_⟩
        rwa [List.take_succ_cons, List.flatMap_cons, ← List.append_assoc]
    · rintro ⟨b, G, hG, hr⟩
      cases b with
      | zero =>
        cases hG
        exact .inl (by simpa using hr)
      | succ b =>
        refine .inr ⟨b, G, hG, ?_⟩
        rwa [List.take_succ_cons, List.flatMap_cons, ← List.append_assoc] at hr

-- A function stores the address of `f` to `p`.
def Stored (a : Nat) (f : Name) (p : Value) : Prop :=
  ∃ F v, m.functions[a]? = some F ∧ .store v p ∈ F ∧ m.functionName v = some f

-- A function passes `p`, or what it loads from `p`, at index `i` of a call.
def Passed (b : Nat) (c : CallBase) (i : Nat) (p : Value) : Prop :=
  ∃ F, m.functions[b]? = some F ∧ .call c ∈ F ∧
    ∃ arg, c.args[i]? = some arg ∧ (arg = p ∨ m.node arg = .load p)

-- The argument points where `p` points, or is loaded from there.
def Matches (p arg : Value) : Prop :=
  m.unwrapCasts p = m.unwrapCasts arg ∨
    ∃ q, m.node (m.unwrapCasts arg) = .load q ∧ m.unwrapCasts p = m.unwrapCasts q

-- The ways in which a record gets into the log.
inductive Logged (r : Record) (b : Nat) (F : List Instr) (c : CallBase) (arg : Value) : Prop
  | direct : r ∈ m.directRecords c arg r.arg_pos → Logged r b F c arg
  | sameFunction : r ∈ m.localRecords F c arg r.arg_pos → Logged r b F c arg
  | value : r ∈ m.valueRecords c arg r.arg_pos → Logged r b F c arg
  | stored (a : Nat) (p : Value) : a ≤ b → m.Stored a r.f p → m.Matches p arg →
      m.calleeName c = r.g → Logged r b F c arg

def IsLogged (r : Record) : Prop :=
  ∃ b F c arg, m.functions[b]? = some F ∧ .call c ∈ F ∧ c.args[r.arg_pos]? = some arg ∧
    m.Logged r b F c arg

theorem mem_storesOf {F : List Instr} {p : Value} {f : Name} :
    (p, f) ∈ m.storesOf F ↔ ∃ v, .store v p ∈ F ∧ m.functionName v = some f := by
  rw [storesOf, List.mem_filterMap]
  constructor
  · rintro ⟨I, hI, h⟩
    cases I with
    | store v ptr =>
      obtain ⟨f', hf', heq⟩ := Option.map_eq_some_iff.mp h
      cases heq
      exact ⟨v, hI, hf'⟩
    | call c => cases h
    | other => cases h
  · rintro ⟨v, hI, hf⟩
    exact ⟨_, hI, by simp [hf]⟩

-- The stores in sight while the calls of function `b` are looked at.
theorem mem_stores_take {b : Nat} {F : List Instr} (hF : m.functions[b]? = some F) {p : Value}
    {f : Name} :
    (p, f) ∈ (m.functions.take b).flatMap m.storesOf ++ m.storesOf F ↔
      ∃ a, a ≤ b ∧ m.Stored a f p := by
  rw [List.mem_append, List.mem_flatMap]
  constructor
  · rintro (⟨G, hG, h⟩ | h)
    · obtain ⟨v, hv, hf⟩ := m.mem_storesOf.mp h
      obtain ⟨a, ha⟩ := List.mem_iff_getElem?.mp hG
      rw [List.getElem?_take] at ha
      split at ha
      · rename_i hlt
        exact ⟨a, hlt.le, G, v, ha, hv, hf⟩
      · cases ha
    · obtain ⟨v, hv, hf⟩ := m.mem_storesOf.mp h
      exact ⟨b, le_rfl, F, v, hF, hv, hf⟩
  · rintro ⟨a, hab, G, v, hG, hv, hf⟩
    have hmem : (p, f) ∈ m.storesOf G := m.mem_storesOf.mpr ⟨v, hv, hf⟩
    rcases Nat.lt_or_eq_of_le hab with hlt | rfl
    · refine .inl ⟨G, List.mem_iff_getElem?.mpr ⟨a, ?_⟩, hmem⟩
      rw [List.getElem?_take, if_pos hlt, hG]
    · rw [hF] at hG
      cases hG
      exact .inr hmem

theorem mem_storedRecords {stored : List (Value × Name)} {c : CallBase} {arg : Value} {i : Nat}
    {r : Record} :
    r ∈ m.storedRecords stored c arg i ↔
      ∃ p, (p, r.f) ∈ stored ∧ m.Matches p arg ∧ m.calleeName c = r.g ∧ i = r.arg_pos := by
  rw [storedRecords, List.mem_flatMap]
  constructor
  · rintro ⟨⟨p, f⟩, hS, h⟩
    rcases List.mem_append.mp h with h | h
    · split at h
      · rename_i hp
        cases List.mem_singleton.mp h
        exact ⟨p, hS, .inl hp, rfl, rfl⟩
      · cases h
    · split at h
      · rename_i q hq
        split at h
        · rename_i hp
          cases List.mem_singleton.mp h
          exact ⟨p, hS, .inr ⟨q, hq, hp⟩, rfl, rfl⟩
        · cases h
      · cases h
  · rintro ⟨p, hS, hp, hg, rfl⟩
    refine ⟨(p, r.f), hS, List.mem_append.mpr ?_⟩
    rcases hp with hp | ⟨q, hq, hp⟩
    · exact .inl (by simp [hp, hg])
    · exact .inr (by simp [hq, hp, hg])

theorem arg_pos_of_mem_directRecords {c : CallBase} {arg : Value} {i : Nat} {r : Record}
    (h : r ∈ m.directRecords c arg i) : i = r.arg_pos := by
  rw [directRecords] at h
  split at h
  · split at h
    · cases h
    · cases List.mem_singleton.mp h
      rfl
  · cases h

theorem arg_pos_of_mem_localRecords {F : List Instr} {c : CallBase} {arg : Value} {i : Nat}
    {r : Record} (h : r ∈ m.localRecords F c arg i) : i = r.arg_pos := by
  rw [localRecords] at h
  split at h
  · cases h
  · obtain ⟨I, -, hr⟩ := List.mem_flatMap.mp h
    split at hr
    · split at hr
      · split at hr
        · cases List.mem_singleton.mp hr
          rfl
        · obtain ⟨f, -, rfl⟩ := List.mem_map.mp hr
          rfl
        · cases hr
      · cases hr
    · cases hr

theorem arg_pos_of_mem_valueRecords {c : CallBase} {arg : Value} {i : Nat} {r : Record}
    (h : r ∈ m.valueRecords c arg i) : i = r.arg_pos := by
  obtain ⟨f, -, hr⟩ := List.mem_filterMap.mp h
  obtain ⟨name, -, rfl⟩ := Option.map_eq_some_iff.mp hr
  rfl

theorem mem_functionLog {stored : List (Value × Name)} {F : List Instr} {r : Record} :
    r ∈ m.functionLog stored F ↔
      ∃ c arg, .call c ∈ F ∧ c.args[r.arg_pos]? = some arg ∧
        (r ∈ m.directRecords c arg r.arg_pos ∨ r ∈ m.localRecords F c arg r.arg_pos ∨
          r ∈ m.storedRecords (stored ++ m.storesOf F) c arg r.arg_pos ∨
          r ∈ m.valueRecords c arg r.arg_pos) := by
  rw [functionLog, List.mem_append, List.mem_flatMap, List.mem_flatMap]
  constructor
  · rintro (⟨I, hI, h⟩ | ⟨I, hI, h⟩)
    · cases I with
      | call c =>
        obtain ⟨⟨arg, i⟩, ha, hr⟩ := List.mem_flatMap.mp h
        cases m.arg_pos_of_mem_directRecords hr
        exact ⟨c, arg, hI, List.mem_zipIdx_iff_getElem?.mp ha, .inl hr⟩
      | store v p => cases h
      | other => cases h
    · cases I with
      | call c =>
        obtain ⟨⟨arg, i⟩, ha, hr⟩ := List.mem_flatMap.mp h
        have hget := List.mem_zipIdx_iff_getElem?.mp ha
        rcases List.mem_append.mp hr with hr | hr
        · rcases List.mem_append.mp hr with hr | hr
          · cases m.arg_pos_of_mem_localRecords hr
            exact ⟨c, arg, hI, hget, .inr (.inl hr)⟩
          · obtain ⟨-, -, -, -, rfl⟩ := m.mem_storedRecords.mp hr
            exact ⟨c, arg, hI, hget, .inr (.inr (.inl hr))⟩
        · cases m.arg_pos_of_mem_valueRecords hr
          exact ⟨c, arg, hI, hget, .inr (.inr (.inr hr))⟩
      | store v p => cases h
      | other => cases h
  · rintro ⟨c, arg, hI, hget, h⟩
    have ha : (arg, r.arg_pos) ∈ c.args.zipIdx := List.mem_zipIdx_iff_getElem?.mpr hget
    rcases h with h | h | h | h
    · exact .inl ⟨_, hI, List.mem_flatMap.mpr ⟨_, ha, h⟩⟩
    · exact .inr ⟨_, hI, List.mem_flatMap.mpr
        ⟨_, ha, List.mem_append_left _ (List.mem_append_left _ h)⟩⟩
    · exact .inr ⟨_, hI, List.mem_flatMap.mpr
        ⟨_, ha, List.mem_append_left _ (List.mem_append_right _ h)⟩⟩
    · exact .inr ⟨_, hI, List.mem_flatMap.mpr ⟨_, ha, List.mem_append_right _ h⟩⟩

theorem mem_run_log_iff (r : Record) : r ∈ m.run.log ↔ m.IsLogged r := by
  rw [run, mem_log_foldl]
  constructor
  · rintro (h | ⟨b, F, hF, h⟩)
    · cases h
    · obtain ⟨c, arg, hc, hget, h⟩ := m.mem_functionLog.mp h
      refine ⟨b, F, c, arg, hF, hc, hget, ?_⟩
      rcases h with h | h | h | h
      · exact .direct h
      · exact .sameFunction h
      · obtain ⟨p, hS, hp, hg, -⟩ := m.mem_storedRecords.mp h
        obtain ⟨a, hab, ha⟩ := (m.mem_stores_take hF).mp hS
        exact .stored a p hab ha hp hg
      · exact .value h
  · rintro ⟨b, F, c, arg, hF, hc, hget, h⟩
    refine .inr ⟨b, F, hF, m.mem_functionLog.mpr ⟨c, arg, hc, hget, ?_⟩⟩
    cases h with
    | direct h => exact .inl h
    | sameFunction h => exact .inr (.inl h)
    | value h => exact .inr (.inr (.inr h))
    | stored a p hab ha hp hg =>
      have hS := (m.mem_stores_take hF).mpr ⟨a, hab, ha⟩
      exact .inr (.inr (.inl (m.mem_storedRecords.mpr ⟨p, hS, hp, hg, rfl⟩)))

theorem matches_of_passed {p arg : Value} (h : arg = p ∨ m.node arg = .load p) :
    m.Matches p arg := by
  rcases h with rfl | h
  · exact .inl rfl
  · refine .inr ⟨p, ?_, rfl⟩
    rw [m.unwrapCasts_load h, h]

-- A store is matched with the calls of its own function and of the functions after it.
theorem isLogged_of_le {a b i : Nat} {f g : Name} {p : Value} {c : CallBase} (hab : a ≤ b)
    (hs : m.Stored a f p) (hp : m.Passed b c i p) (hg : m.callee c = some g) :
    m.IsLogged ⟨g, f, i⟩ := by
  obtain ⟨F, hF, hc, arg, hget, harg⟩ := hp
  have hname : m.calleeName c = g := by rw [calleeName, hg, Option.getD_some]
  exact ⟨b, F, c, arg, hF, hc, hget, .stored a p hab hs (m.matches_of_passed harg) hname⟩

-- Every stored function is logged for every call that is passed the place it is stored to.
def Complete : Prop :=
  ∀ a f p b c i g, m.Stored a f p → m.Passed b c i p → m.callee c = some g →
    (⟨g, f, i⟩ : Record) ∈ m.run.log

theorem run_complete_iff :
    m.Complete ↔
      ∀ a f p b c i g, m.Stored a f p → m.Passed b c i p → m.callee c = some g → b < a →
        m.IsLogged ⟨g, f, i⟩ := by
  constructor
  · intro h a f p b c i g hs hp hg _
    exact (m.mem_run_log_iff _).mp (h a f p b c i g hs hp hg)
  · intro h a f p b c i g hs hp hg
    rw [mem_run_log_iff]
    rcases Nat.lt_or_ge b a with hlt | hle
    · exact h a f p b c i g hs hp hg hlt
    · exact m.isLogged_of_le hle hs hp hg

end Module

-- The values 0 and 1 are the functions, 2 is a global and 3 is loaded from it.
def twoFunctions : Value → Node
  | 0 => .function "g".toList
  | 1 => .function "f".toList
  | 3 => .load 2
  | _ => .other

theorem twoFunctions_cast_lt (v w : Value) (h : twoFunctions v = .cast w) : w < v := by
  unfold twoFunctions at h
  split at h <;> cases h

def withFunctions (functions : List (List Instr)) : Module where
  node := twoFunctions
  size := 4
  functions := functions
  cast_lt := twoFunctions_cast_lt
  stripPointerCasts := id

def storing : List Instr := [.store 1 2]

def calling : List Instr := [.call { calledOperand := 0, args := [3] }]

example : (withFunctions [storing, calling]).run.log = [⟨"g".toList, "f".toList, 0⟩] := by
  decide

-- The function that calls comes before the function that stores.
theorem not_complete_calling_storing : ¬ (withFunctions [calling, storing]).Complete := by
  intro h
  have hs : (withFunctions [calling, storing]).Stored 1 "f".toList 2 :=
    ⟨storing, 1, rfl, List.mem_singleton.mpr rfl, rfl⟩
  have hp : (withFunctions [calling, storing]).Passed 0 { calledOperand := 0, args := [3] } 0 2 :=
    ⟨calling, rfl, List.mem_singleton.mpr rfl, 3, rfl, .inr rfl⟩
  have hlog : (withFunctions [calling, storing]).run.log = [] := by decide
  have hmem := h 1 "f".toList 2 0 _ 0 "g".toList hs hp rfl
  rw [hlog] at hmem
  cases hmem

end Platypus.Pass
