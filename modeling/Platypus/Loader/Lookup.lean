import Platypus.Text.Scan
import Platypus.Loader.Placement

namespace Platypus.Loader

abbrev Name := List Char

inductive SymType
  | STT_NOTYPE
  | STT_OBJECT
  | STT_FUNC
  | STT_COMMON
  | STT_TLS
  | STT_GNU_IFUNC
  -- sections, files and what is no definition of code or data
  | other
  deriving DecidableEq, Repr

inductive SymBind
  | STB_LOCAL
  | STB_GLOBAL
  | STB_WEAK
  | STB_GNU_UNIQUE
  deriving DecidableEq, Repr

inductive Visibility
  | STV_DEFAULT
  | STV_INTERNAL
  | STV_HIDDEN
  | STV_PROTECTED
  deriving DecidableEq, Repr

inductive SectionIndex
  | SHN_UNDEF
  | SHN_ABS
  | other
  deriving DecidableEq, Repr

-- An entry of a dynamic symbol table, with its entry of the version table.
structure Sym where
  st_name : Name
  st_type : SymType := .STT_FUNC
  st_bind : SymBind := .STB_GLOBAL
  st_visibility : Visibility := .STV_DEFAULT
  st_shndx : SectionIndex := .other
  st_value : Word
  versionIndex : Nat := 1
  versionHidden : Bool := false
  deriving DecidableEq, Repr

-- What the lookup reads of a `struct link_map`.
structure Module where
  id : Nat
  l_addr : Word := 0#64
  executable : Bool := false
  removed : Bool := false
  symtab : List Sym
  hasVersions : Bool := false
  versionNames : List Name := []
  deriving DecidableEq, Repr

structure FoundVersion where
  name : Name
  hidden : Bool
  deriving DecidableEq, Repr

-- The arguments of one lookup.
structure Query where
  undef_name : Name
  undef_map : Module
  ref : Option Sym := none
  version : Option FoundVersion := none
  classPlt : Bool := false
  classCopy : Bool := false
  returnNewest : Bool := false
  skip_map : Option Module := none
  deriving DecidableEq, Repr

structure SymVal where
  s : Sym
  m : Module
  deriving DecidableEq, Repr

-- The two arrays of `placeholder-arr.c` and their counter.
structure Placeholders where
  symbols : List Name := List.replicate 10 []
  plts : List Word := List.replicate 10 0#64
  placeholded : Nat := 0
  deriving DecidableEq, Repr

-- What a lookup reads of the process: the main program, the table of unique symbols, the options.
structure Env where
  main : Module
  unique : Name → Option SymVal := fun _ => none
  dynamicWeak : Bool := false
  debugUnused : Bool := false
  placeholders : Placeholders := {}

inductive Match
  | no
  | yes
  | fallback
  deriving DecidableEq, Repr

section Search

variable (q : Query) (m : Module)

-- `check_match`; a fallback is counted in `num_versions`.
def checkMatch (sym : Sym) : Match :=
  if (sym.st_value = 0#64 && sym.st_shndx ≠ .SHN_ABS && sym.st_type ≠ .STT_TLS) ||
      (q.classPlt && sym.st_shndx = .SHN_UNDEF) then .no
  else if sym.st_type = .other then .no
  else if sym.st_name ≠ q.undef_name then .no
  else match q.version with
    | some v =>
      if !m.hasVersions then .yes
      else if m.versionNames[sym.versionIndex]? = some v.name then .yes
      else if !v.hidden && m.versionNames[sym.versionIndex]? = some [] && !sym.versionHidden then
        .fallback
      else .no
    | none =>
      if m.hasVersions && (if q.returnNewest then 2 else 3) ≤ sym.versionIndex then
        if sym.versionHidden then .no else .fallback
      else .yes

-- The symbol that the chain of the hash table leads to.
def findSym : Option Sym :=
  match m.symtab.find? fun sym => checkMatch q m sym = .yes with
  | some sym => some sym
  | none =>
    match m.symtab.filter fun sym => checkMatch q m sym = .fallback with
    | [sym] => some sym
    | _ => none

def bindsLocal (v : Visibility) : Bool := v = .STV_HIDDEN || v = .STV_INTERNAL

-- The modules that the loop of `do_lookup_x` passes over.
def passesOver : Bool :=
  q.skip_map.any (·.id = m.id) || (q.classCopy && m.executable) ||
    (m.removed && !q.undef_map.removed)

end Search

section Lookup

variable (env : Env) (q : Query)

-- One round of `do_lookup_x`, and whether it returns.
def lookupIn (result : Option SymVal) (m : Module) : Option SymVal × Bool :=
  if passesOver q m then (result, false)
  else match findSym q m with
    | none => (result, false)
    | some sym =>
      if bindsLocal sym.st_visibility then (result, false)
      else match sym.st_bind with
        | .STB_WEAK =>
          if env.dynamicWeak then (result.or (some ⟨sym, m⟩), false)
          else (some ⟨sym, m⟩, true)
        | .STB_GLOBAL => (some ⟨sym, m⟩, true)
        | .STB_GNU_UNIQUE =>
          (some (if q.classCopy then ⟨sym, m⟩ else (env.unique q.undef_name).getD ⟨sym, m⟩), true)
        | .STB_LOCAL => (result, false)

def doLookupX : Option SymVal → List Module → Option SymVal × Bool
  | result, [] => (result, false)
  | result, m :: ms =>
    match lookupIn env q result m with
    | (result, true) => (result, true)
    | (result, false) => doLookupX result ms

-- The loop over the scopes. One name is looked up in the main program first.
def lookupScopes : Option SymVal → List (List Module) → Option SymVal
  | result, [] => result
  | result, scope :: scopes =>
    let (result, found) :=
      if q.undef_name = "callback_table".toList then doLookupX env q result [env.main]
      else (result, false)
    if found then result
    else
      let (result, found) := doLookupX env q result scope
      if found then result else lookupScopes result scopes

-- The first scope is searched from `skip_map` on.
def startAt : List (List Module) → List (List Module)
  | [] => []
  | scope :: scopes =>
    match q.skip_map with
    | some skip => scope.dropWhile (·.id ≠ skip.id) :: scopes
    | none => scope :: scopes

def isProtected : Bool := q.ref.any (·.st_visibility = .STV_PROTECTED)

end Lookup

-- The second loop over the scopes, for a protected symbol, has no name of its own.
def lookupPlain (env : Env) (q : Query) : Option SymVal → List (List Module) → Option SymVal
  | result, [] => result
  | result, scope :: scopes =>
    match doLookupX env q result scope with
    | (result, true) => result
    | (result, false) => lookupPlain env q result scopes

-- Whether a reference to a protected symbol is bound in its own module.
def bindsProtected (env : Env) (q : Query) (scopes : List (List Module)) (current : SymVal) : Bool :=
  isProtected q &&
    if q.classPlt then current.m.id ≠ q.undef_map.id
    else
      let protectedQuery := { q with
        classPlt := true, classCopy := false, undef_map := { q.undef_map with removed := false } }
      (lookupPlain env protectedQuery none (startAt q scopes)).any (·.m.id ≠ q.undef_map.id)

-- `placeholder_symbols` up to the counter, with the stubs beside them.
def Placeholders.find (p : Placeholders) (name : Name) : Option Word :=
  ((List.range p.placeholded).find? fun i => p.symbols[i]? = some name).map fun i =>
    (p.plts[i]?).getD 0#64

inductive LookupResult
  -- the map and symbol of a registered stub
  | placeholder (stub : Word)
  | found (v : SymVal)
  -- an unresolved `callback_table` is relocated in the module itself
  | self (l_addr : Word)
  | null
  | error (message : String)
  deriving DecidableEq, Repr

def lookupSymbolX (env : Env) (q : Query) (scopes : List (List Module)) : LookupResult :=
  match env.placeholders.find q.undef_name with
  | some stub => .placeholder stub
  | none =>
    match lookupScopes env q none (startAt q scopes) with
    | none =>
      if (q.ref.all (·.st_bind ≠ .STB_WEAK)) && !env.debugUnused then
        if q.undef_name = "callback_table".toList then .self q.undef_map.l_addr
        else .error ("undefined symbol: " ++ String.ofList q.undef_name ++
          (match q.version with
            | some v => ", version " ++ String.ofList v.name
            | none => ""))
      else .null
    | some current =>
      if bindsProtected env q scopes current then
        .found ⟨q.ref.getD current.s, q.undef_map⟩
      else .found current

theorem lookupSymbolX_placeholder_iff {env : Env} {q : Query} {scopes : List (List Module)}
    {stub : Word} :
    lookupSymbolX env q scopes = .placeholder stub ↔
      env.placeholders.find q.undef_name = some stub := by
  unfold lookupSymbolX
  cases hfind : env.placeholders.find q.undef_name with
  | some other => exact ⟨fun h => congrArg some (LookupResult.placeholder.inj h),
      fun h => congrArg LookupResult.placeholder (Option.some.inj h)⟩
  | none =>
    refine ⟨fun h => ?_, fun h => by cases h⟩
    dsimp only at h
    split at h
    · split_ifs at h
    · split_ifs at h

-- What the search finds: the first module with a definition that ends it.

-- The definition in a module that ends the search.
def decides (env : Env) (q : Query) (m : Module) : Option SymVal :=
  match lookupIn env q none m with
  | (result, true) => result
  | (_, false) => none

section Decides

variable {env : Env} {q : Query} {m : Module}

-- What a round can do, whatever the result so far.
inductive Round (env : Env) (q : Query) (m : Module) : Prop
  | passes (h : ∀ result, lookupIn env q result m = (result, false))
  | remembers (sym : Sym) (hsym : findSym q m = some sym)
      (h : ∀ result, lookupIn env q result m = (result.or (some ⟨sym, m⟩), false))
  | ends (sym : Sym) (v : SymVal) (hsym : findSym q m = some sym)
      (hv : v = ⟨sym, m⟩ ∨ env.unique q.undef_name = some v)
      (h : ∀ result, lookupIn env q result m = (some v, true))

theorem lookupIn_round (env : Env) (q : Query) (m : Module) : Round env q m := by
  by_cases hpass : passesOver q m = true
  · exact .passes fun result => by rw [lookupIn, if_pos hpass]
  cases hsym : findSym q m with
  | none => exact .passes fun result => by rw [lookupIn, if_neg hpass, hsym]
  | some sym =>
    by_cases hlocal : bindsLocal sym.st_visibility = true
    · refine .passes fun result => ?_
      rw [lookupIn, if_neg hpass, hsym]
      exact if_pos hlocal
    cases hbind : sym.st_bind with
    | STB_LOCAL => exact .passes fun result => by simp [lookupIn, hpass, hsym, hlocal, hbind]
    | STB_GLOBAL =>
      exact .ends sym ⟨sym, m⟩ hsym (.inl rfl) fun result => by
        simp [lookupIn, hpass, hsym, hlocal, hbind]
    | STB_WEAK =>
      by_cases hweak : env.dynamicWeak = true
      · exact .remembers sym hsym fun result => by
          simp [lookupIn, hpass, hsym, hlocal, hbind, hweak]
      · exact .ends sym ⟨sym, m⟩ hsym (.inl rfl) fun result => by
          simp [lookupIn, hpass, hsym, hlocal, hbind, hweak]
    | STB_GNU_UNIQUE =>
      refine .ends sym _ hsym ?_ fun result => by
        simp only [lookupIn, if_neg hpass, hsym, if_neg hlocal, hbind]
        rfl
      split_ifs with hcopy
      · exact .inl rfl
      · cases hunique : env.unique q.undef_name with
        | none => exact .inl rfl
        | some w => exact .inr rfl

theorem lookupIn_of_decides {v : SymVal} (h : decides env q m = some v) (result : Option SymVal) :
    lookupIn env q result m = (some v, true) := by
  unfold decides at h
  cases lookupIn_round env q m with
  | passes hround => simp [hround] at h
  | remembers sym _ hround => simp [hround] at h
  | ends sym w _ _ hround =>
    rw [hround] at h ⊢
    exact congrArg (·, true) h

theorem lookupIn_of_not_decides (h : decides env q m = none) (result : Option SymVal) :
    ∃ weak, lookupIn env q result m = (result.or weak, false) ∧ ∀ v ∈ weak, v.m = m := by
  unfold decides at h
  cases lookupIn_round env q m with
  | passes hround => exact ⟨none, by rw [hround, Option.or_none], by simp⟩
  | remembers sym _ hround => exact ⟨some ⟨sym, m⟩, hround result, by simp⟩
  | ends sym w _ _ hround => simp [hround] at h

theorem doLookupX_of_decides {v : SymVal} (ms : List Module) (h : ms.findSome? (decides env q) = some v)
    (result : Option SymVal) : doLookupX env q result ms = (some v, true) := by
  induction ms generalizing result with
  | nil => cases h
  | cons m ms ih =>
    rw [doLookupX]
    cases hm : decides env q m with
    | some w =>
      rw [List.findSome?_cons, hm] at h
      cases h
      rw [lookupIn_of_decides hm]
    | none =>
      rw [List.findSome?_cons, hm] at h
      obtain ⟨weak, hstep, -⟩ := lookupIn_of_not_decides hm result
      rw [hstep]
      exact ih h _

-- Without such a definition a weak one may be remembered.
theorem doLookupX_of_not_decides (ms : List Module) (h : ms.findSome? (decides env q) = none)
    (result : Option SymVal) :
    ∃ weak, doLookupX env q result ms = (result.or weak, false) ∧ ∀ v ∈ weak, v.m ∈ ms := by
  induction ms generalizing result with
  | nil => exact ⟨none, by rw [doLookupX, Option.or_none], by simp⟩
  | cons m ms ih =>
    rw [List.findSome?_cons] at h
    cases hm : decides env q m with
    | some w =>
      rw [hm] at h
      cases h
    | none =>
      rw [hm] at h
      obtain ⟨weak, hstep, hweak⟩ := lookupIn_of_not_decides hm result
      obtain ⟨weak', hrest, hweak'⟩ := ih h (result.or weak)
      refine ⟨weak.or weak', ?_, ?_⟩
      · rw [doLookupX, hstep]
        dsimp only
        rw [hrest, Option.or_assoc]
      · intro v hv
        cases weak with
        | none => exact List.mem_cons_of_mem _ (hweak' v hv)
        | some w =>
          cases hv
          rw [hweak _ rfl]
          exact List.mem_cons_self

theorem lookupScopes_of_decides (hname : q.undef_name ≠ "callback_table".toList) {v : SymVal}
    (scopes : List (List Module)) (h : scopes.flatten.findSome? (decides env q) = some v)
    (result : Option SymVal) : lookupScopes env q result scopes = some v := by
  induction scopes generalizing result with
  | nil => cases h
  | cons scope scopes ih =>
    rw [lookupScopes, if_neg hname]
    dsimp only
    rw [if_neg Bool.false_ne_true]
    rw [List.flatten_cons, List.findSome?_append] at h
    cases hscope : scope.findSome? (decides env q) with
    | some w =>
      rw [hscope, Option.some_or] at h
      cases h
      rw [doLookupX_of_decides scope hscope]
      rfl
    | none =>
      rw [hscope, Option.none_or] at h
      obtain ⟨weak, hstep, -⟩ := doLookupX_of_not_decides scope hscope result
      rw [hstep]
      exact ih h _

theorem lookupScopes_of_not_decides (hname : q.undef_name ≠ "callback_table".toList)
    (scopes : List (List Module)) (h : scopes.flatten.findSome? (decides env q) = none)
    (result : Option SymVal) :
    ∃ weak, lookupScopes env q result scopes = result.or weak ∧ ∀ v ∈ weak, v.m ∈ scopes.flatten := by
  induction scopes generalizing result with
  | nil => exact ⟨none, by rw [lookupScopes, Option.or_none], by simp⟩
  | cons scope scopes ih =>
    rw [List.flatten_cons, List.findSome?_append, Option.or_eq_none_iff] at h
    obtain ⟨weak, hstep, hweak⟩ := doLookupX_of_not_decides scope h.1 result
    obtain ⟨weak', hrest, hweak'⟩ := ih h.2 (result.or weak)
    refine ⟨weak.or weak', ?_, ?_⟩
    · rw [lookupScopes, if_neg hname]
      dsimp only
      rw [if_neg Bool.false_ne_true, hstep]
      dsimp only
      rw [if_neg Bool.false_ne_true, hrest, Option.or_assoc]
    · intro v hv
      rw [List.flatten_cons]
      cases weak with
      | none => exact List.mem_append_right _ (hweak' v hv)
      | some w =>
        cases hv
        exact List.mem_append_left _ (hweak _ rfl)

theorem lookupScopes_main (hname : q.undef_name = "callback_table".toList) {v : SymVal}
    (h : decides env q env.main = some v) {scopes : List (List Module)} (hscopes : scopes ≠ []) :
    lookupScopes env q none scopes = some v := by
  obtain ⟨scope, scopes, rfl⟩ := List.exists_cons_of_ne_nil hscopes
  have hmain : [env.main].findSome? (decides env q) = some v := by
    rw [List.findSome?_cons, h]
  rw [lookupScopes, if_pos hname, doLookupX_of_decides _ hmain]
  rfl

-- A definition that ends the search is one of the module, or a unique one of the same name.
theorem decides_module {v : SymVal} (h : decides env q m = some v) :
    v.m = m ∨ env.unique q.undef_name = some v := by
  have hend := lookupIn_of_decides h none
  cases lookupIn_round env q m with
  | passes hround => simp [hround] at hend
  | remembers sym _ hround => simp [hround] at hend
  | ends sym w _ hw hround =>
    obtain rfl : w = v := by simpa [hround] using hend
    exact hw.imp_left fun heq => by rw [heq]

end Decides

-- Something is found if a module of the scopes has a definition that the search accepts.

def provides (env : Env) (q : Query) (m : Module) : Bool := (lookupIn env q none m).1.isSome

section Provides

variable (env : Env) (q : Query)

theorem lookupIn_isSome (result : Option SymVal) (m : Module) :
    (lookupIn env q result m).1.isSome = (result.isSome || provides env q m) := by
  unfold provides
  cases lookupIn_round env q m with
  | passes hround => simp [hround]
  | remembers sym _ hround => simp [hround]
  | ends sym w _ _ hround => simp [hround]

theorem lookupIn_found (result : Option SymVal) (m : Module) (h : (lookupIn env q result m).2 = true) :
    provides env q m = true := by
  unfold provides
  cases lookupIn_round env q m with
  | passes hround => simp [hround] at h
  | remembers sym _ hround => simp [hround] at h
  | ends sym w _ _ hround => rw [hround]; rfl

theorem doLookupX_isSome (ms : List Module) (result : Option SymVal) :
    (doLookupX env q result ms).1.isSome = (result.isSome || ms.any (provides env q)) ∧
      ((doLookupX env q result ms).2 = true → ms.any (provides env q) = true) := by
  induction ms generalizing result with
  | nil => simp [doLookupX]
  | cons m ms ih =>
    have hin := lookupIn_isSome env q result m
    have hfound := lookupIn_found env q result m
    rw [doLookupX, List.any_cons]
    cases hstep : lookupIn env q result m with
    | mk next found =>
      rw [hstep] at hin hfound
      dsimp only at hin hfound
      cases found with
      | true => simp [hin, hfound rfl]
      | false =>
        obtain ⟨hsome, hrest⟩ := ih next
        refine ⟨?_, fun h => by rw [hrest h, Bool.or_true]⟩
        rw [hsome, hin, Bool.or_assoc]

theorem lookupScopes_isSome (hname : q.undef_name ≠ "callback_table".toList)
    (scopes : List (List Module)) (result : Option SymVal) :
    (lookupScopes env q result scopes).isSome =
      (result.isSome || scopes.flatten.any (provides env q)) := by
  induction scopes generalizing result with
  | nil => simp [lookupScopes]
  | cons scope scopes ih =>
    obtain ⟨hsome, hfound⟩ := doLookupX_isSome env q scope result
    rw [lookupScopes, if_neg hname, List.flatten_cons, List.any_append]
    dsimp only
    rw [if_neg Bool.false_ne_true]
    cases hstep : doLookupX env q result scope with
    | mk next found =>
      rw [hstep] at hsome hfound
      dsimp only at hsome hfound ⊢
      cases found with
      | true => simp [hsome, hfound rfl]
      | false =>
        rw [if_neg Bool.false_ne_true, ih next, hsome, Bool.or_assoc]

theorem lookupSymbolX_found_iff (hname : q.undef_name ≠ "callback_table".toList)
    (hfree : env.placeholders.find q.undef_name = none) (scopes : List (List Module)) :
    (∃ v, lookupSymbolX env q scopes = .found v) ↔
      ∃ m ∈ (startAt q scopes).flatten, provides env q m = true := by
  have hsome := lookupScopes_isSome env q hname (startAt q scopes) none
  rw [Option.isSome_none, Bool.false_or] at hsome
  rw [← List.any_eq_true, ← hsome]
  unfold lookupSymbolX
  rw [hfree]
  dsimp only
  cases lookupScopes env q none (startAt q scopes) with
  | none =>
    refine ⟨?_, fun h => absurd h Bool.false_ne_true⟩
    rintro ⟨v, hv⟩
    dsimp only at hv
    split_ifs at hv
  | some w =>
    refine ⟨fun _ => rfl, fun _ => ?_⟩
    dsimp only
    split_ifs
    · exact ⟨_, rfl⟩
    · exact ⟨_, rfl⟩

end Provides

-- What is found is a definition of that name in a loaded module.

def Defines (loaded : List Module) (name : Name) (v : SymVal) : Prop :=
  v.m ∈ loaded ∧ v.s ∈ v.m.symtab ∧ v.s.st_name = name

structure Env.Over (env : Env) (loaded : List Module) : Prop where
  main : env.main ∈ loaded
  unique : ∀ name v, env.unique name = some v → Defines loaded name v

theorem checkMatch_name {q : Query} {m : Module} {sym : Sym} (h : checkMatch q m sym ≠ .no) :
    sym.st_name = q.undef_name := by
  unfold checkMatch at h
  by_contra hname
  rw [if_pos hname] at h
  split_ifs at h <;> exact h rfl

theorem findSym_defines {q : Query} {m : Module} {sym : Sym} (h : findSym q m = some sym) :
    sym ∈ m.symtab ∧ sym.st_name = q.undef_name := by
  unfold findSym at h
  cases hyes : m.symtab.find? fun sym => checkMatch q m sym = .yes with
  | some s =>
    rw [hyes] at h
    cases h
    have hfound := List.find?_some hyes
    have hmatch : checkMatch q m sym = .yes := of_decide_eq_true hfound
    refine ⟨List.mem_of_find?_eq_some hyes, checkMatch_name (m := m) ?_⟩
    rw [hmatch]
    exact Match.noConfusion
  | none =>
    rw [hyes] at h
    dsimp only at h
    cases hfall : m.symtab.filter fun sym => checkMatch q m sym = .fallback with
    | nil =>
      rw [hfall] at h
      cases h
    | cons s rest =>
      rw [hfall] at h
      cases rest with
      | cons _ _ => cases h
      | nil =>
        cases h
        have hmem : sym ∈ m.symtab.filter fun sym => checkMatch q m sym = .fallback := by
          rw [hfall]
          exact List.mem_singleton_self _
        rw [List.mem_filter, decide_eq_true_eq] at hmem
        refine ⟨hmem.1, checkMatch_name (m := m) ?_⟩
        rw [hmem.2]
        exact Match.noConfusion

theorem startAt_subset (q : Query) (scopes : List (List Module)) :
    ∀ m ∈ (startAt q scopes).flatten, m ∈ scopes.flatten := by
  intro m hm
  cases scopes with
  | nil => exact hm
  | cons scope scopes =>
    unfold startAt at hm
    cases hskip : q.skip_map with
    | none =>
      rw [hskip] at hm
      exact hm
    | some skip =>
      rw [hskip, List.flatten_cons, List.mem_append] at hm
      rw [List.flatten_cons, List.mem_append]
      exact hm.imp_left ((List.dropWhile_sublist _).subset ·)

section Found

variable {env : Env} {q : Query} {loaded : List Module} (hover : env.Over loaded)

include hover

theorem lookupIn_defines {result : Option SymVal} {m : Module} (hm : m ∈ loaded)
    (h : ∀ v ∈ result, Defines loaded q.undef_name v) :
    ∀ v ∈ (lookupIn env q result m).1, Defines loaded q.undef_name v := by
  have hdef {sym : Sym} (hsym : findSym q m = some sym) : Defines loaded q.undef_name ⟨sym, m⟩ :=
    ⟨hm, findSym_defines hsym⟩
  cases lookupIn_round env q m with
  | passes hround => rwa [hround]
  | remembers sym hsym hround =>
    rw [hround]
    cases result with
    | none =>
      intro v hv
      cases hv
      exact hdef hsym
    | some w => exact h
  | ends sym w hsym hw hround =>
    rw [hround]
    intro v hv
    cases hv
    rcases hw with rfl | hunique
    · exact hdef hsym
    · exact hover.unique _ _ hunique

theorem doLookupX_defines (ms : List Module) (hms : ∀ m ∈ ms, m ∈ loaded) (result : Option SymVal)
    (h : ∀ v ∈ result, Defines loaded q.undef_name v) :
    ∀ v ∈ (doLookupX env q result ms).1, Defines loaded q.undef_name v := by
  induction ms generalizing result with
  | nil => exact h
  | cons m ms ih =>
    have hin := lookupIn_defines hover (hms m List.mem_cons_self) h
    rw [doLookupX]
    cases hstep : lookupIn env q result m with
    | mk next found =>
      rw [hstep] at hin
      cases found with
      | true => exact hin
      | false => exact ih (fun m hm => hms m (List.mem_cons_of_mem _ hm)) next hin

theorem lookupScopes_defines (scopes : List (List Module)) (hscopes : ∀ m ∈ scopes.flatten, m ∈ loaded)
    (result : Option SymVal) (h : ∀ v ∈ result, Defines loaded q.undef_name v) :
    ∀ v ∈ lookupScopes env q result scopes, Defines loaded q.undef_name v := by
  induction scopes generalizing result with
  | nil => exact h
  | cons scope scopes ih =>
    have hscope : ∀ m ∈ scope, m ∈ loaded := fun m hm => hscopes m (by simp [hm])
    have hrest : ∀ m ∈ scopes.flatten, m ∈ loaded := fun m hm =>
      hscopes m (List.flatten_cons ▸ List.mem_append_right _ hm)
    have hmain : ∀ v ∈ (if q.undef_name = "callback_table".toList then
        doLookupX env q result [env.main] else (result, false)).1, Defines loaded q.undef_name v := by
      split_ifs
      · exact doLookupX_defines hover _ (fun m hm => List.mem_singleton.mp hm ▸ hover.main) _ h
      · exact h
    rw [lookupScopes]
    cases hstep : (if q.undef_name = "callback_table".toList then
        doLookupX env q result [env.main] else (result, false)) with
    | mk next found =>
      rw [hstep] at hmain
      dsimp only at hmain ⊢
      split_ifs
      · exact hmain
      · exact doLookupX_defines hover _ hscope _ hmain
      · exact ih hrest _ (doLookupX_defines hover _ hscope _ hmain)

theorem lookupSymbolX_defines (scopes : List (List Module))
    (hscopes : ∀ m ∈ scopes.flatten, m ∈ loaded) (href : q.ref = none) {v : SymVal}
    (h : lookupSymbolX env q scopes = .found v) : Defines loaded q.undef_name v := by
  unfold lookupSymbolX at h
  cases hplace : env.placeholders.find q.undef_name with
  | some stub =>
    rw [hplace] at h
    cases h
  | none =>
    rw [hplace] at h
    dsimp only at h
    have hdef := lookupScopes_defines (q := q) hover (startAt q scopes)
      (fun m hm => hscopes m (startAt_subset q scopes m hm)) none (by simp)
    cases hlookup : lookupScopes env q none (startAt q scopes) with
    | none =>
      rw [hlookup] at h
      dsimp only at h
      split_ifs at h
    | some w =>
      have hprot : bindsProtected env q scopes w = false := by
        unfold bindsProtected isProtected
        rw [href]
        rfl
      rw [hlookup] at h
      dsimp only at h
      rw [hprot, if_neg Bool.false_ne_true] at h
      cases h
      exact hdef _ hlookup

end Found

end Platypus.Loader
