import Platypus.Pass.FindDynSym
import Platypus.Search.Visited

-- The functions that a value may be.

namespace Platypus.Pass.Module

variable (m : Module)

-- The values of a module are the numbers below its size.
def operands (v : Value) : List Value :=
  match m.node v with
  | .load ptr => [ptr]
  | .cast w => [w]
  | .phi incoming => incoming
  | .select trueValue falseValue => [trueValue, falseValue]
  | _ => []

def Closed : Prop := ∀ v < m.size, ∀ w ∈ m.operands v, w < m.size

instance : Decidable m.Closed :=
  inferInstanceAs (Decidable (∀ v < m.size, ∀ w ∈ m.operands v, w < m.size))

def IsFunction (v : Value) : Prop := ∃ name, m.node v = .function name

-- A value may be another one: the operand of a cast, an incoming value or a selected one.
inductive MayBe : Value → Value → Prop
  | cast {v w : Value} : m.node v = .cast w → MayBe v w
  | phi {v w : Value} {incoming : List Value} : m.node v = .phi incoming → w ∈ incoming → MayBe v w
  | ifTrue {v w u : Value} : m.node v = .select w u → MayBe v w
  | ifFalse {v w u : Value} : m.node v = .select u w → MayBe v w

-- A call without a set uses the one of the thread, which earlier calls have used too. It is
-- cleared before and after, but a function itself is found before that.
def findAllFunctions (fuel : Nat) (inner_seen funcs : List Value) (V : Value) :
    Option (List Value × List Value) :=
  match m.node (m.unwrapCasts V) with
  | .function _ => some (inner_seen, funcs.insert (m.unwrapCasts V))
  | _ => (m.findAllFunctionsSeen fuel ⟨[], funcs⟩ V).map fun s => ([], s.funcs)

-- The values that the recursion goes on with.
def branches (v : Value) : List Value :=
  match m.node v with
  | .phi incoming => incoming
  | .select trueValue falseValue => [trueValue, falseValue]
  | _ => []

def nextValues (v : Value) : List Value := (m.branches v).map m.unwrapCasts

variable {m}

theorem unwrapRounds_le (rounds : Nat) (v : Value) : m.unwrapRounds rounds v ≤ v := by
  induction rounds generalizing v with
  | zero => exact le_rfl
  | succ rounds ih =>
    rw [unwrapRounds]
    split
    · rename_i w hw
      exact (ih w).trans (m.cast_lt v w hw).le
    · exact le_rfl

theorem unwrapCasts_le (v : Value) : m.unwrapCasts v ≤ v := unwrapRounds_le (v + 1) v

-- More rounds than the number of the value change nothing.
theorem unwrapRounds_eq {k k' : Nat} {v : Value} (hk : v < k) (hk' : v < k') :
    m.unwrapRounds k v = m.unwrapRounds k' v := by
  induction k generalizing v k' with
  | zero => cases hk
  | succ k ih =>
    cases k' with
    | zero => cases hk'
    | succ k' =>
      rw [unwrapRounds, unwrapRounds]
      split
      · rename_i w hw
        have hwv := m.cast_lt v w hw
        exact ih (hwv.trans_le (Nat.lt_succ_iff.mp hk)) (hwv.trans_le (Nat.lt_succ_iff.mp hk'))
      · rfl

theorem unwrapCasts_cast {v w : Value} (h : m.node v = .cast w) :
    m.unwrapCasts v = m.unwrapCasts w := by
  rw [unwrapCasts, unwrapRounds, h]
  exact unwrapRounds_eq (m.cast_lt v w h) (Nat.lt_succ_self w)

theorem unwrapCasts_of_not_cast {v : Value} (h : ∀ w, m.node v ≠ .cast w) : m.unwrapCasts v = v := by
  rw [unwrapCasts, unwrapRounds]
  split
  · rename_i w hw
    exact absurd hw (h w)
  · rfl

theorem reflTransGen_unwrapRounds (rounds : Nat) (v : Value) :
    Relation.ReflTransGen m.MayBe v (m.unwrapRounds rounds v) := by
  induction rounds generalizing v with
  | zero => exact .refl
  | succ rounds ih =>
    rw [unwrapRounds]
    split
    · rename_i w hw
      exact .head (.cast hw) (ih w)
    · exact .refl

theorem mem_branches {v u : Value} : u ∈ m.branches v ↔ m.MayBe v u ∧ ∀ x, m.node v ≠ .cast x := by
  constructor
  · intro h
    unfold branches at h
    split at h
    · rename_i incoming hnode
      exact ⟨.phi hnode h, by simp [hnode]⟩
    · rename_i trueValue falseValue hnode
      refine ⟨?_, by simp [hnode]⟩
      rcases List.mem_cons.mp h with rfl | h
      · exact .ifTrue hnode
      · cases List.mem_singleton.mp h
        exact .ifFalse hnode
    · cases h
  · rintro ⟨hu, hcast⟩
    cases hu with
    | cast hnode => exact absurd hnode (hcast u)
    | phi hnode hmem => simpa [branches, hnode] using hmem
    | ifTrue hnode => simp [branches, hnode]
    | ifFalse hnode => simp [branches, hnode]

theorem mem_nextValues {v w : Value} :
    w ∈ m.nextValues v ↔ ∃ u, m.MayBe v u ∧ m.unwrapCasts u = w ∧ ∀ x, m.node v ≠ .cast x := by
  rw [nextValues, List.mem_map]
  refine exists_congr fun u => ?_
  rw [mem_branches]
  tauto

-- Going on behind the casts leads to the same functions.
theorem reach_nextValues {v f : Value} (hf : m.IsFunction f) :
    Search.Reach m.nextValues (m.unwrapCasts v) f ↔ Relation.ReflTransGen m.MayBe v f := by
  constructor
  · intro h
    clear hf
    induction h with
    | refl => exact reflTransGen_unwrapRounds (v + 1) v
    | tail _ hstep ih =>
      obtain ⟨u, hu, rfl, -⟩ := mem_nextValues.mp hstep
      exact ih.trans (.head hu (reflTransGen_unwrapRounds (u + 1) u))
  · intro h
    induction h using Relation.ReflTransGen.head_induction_on with
    | refl =>
      obtain ⟨name, hname⟩ := hf
      rw [unwrapCasts_of_not_cast (by simp [hname])]
      exact .refl
    | @head x y hxy _ ih =>
      by_cases hcast : ∀ z, m.node x ≠ .cast z
      · rw [unwrapCasts_of_not_cast hcast]
        exact .head (mem_nextValues.mpr ⟨y, hxy, rfl, hcast⟩) ih
      · rw [not_forall_not] at hcast
        obtain ⟨z, hz⟩ := hcast
        cases hxy with
        | cast hnode =>
          rw [unwrapCasts_cast hnode]
          exact ih
        | phi hnode _ => simp [hz] at hnode
        | ifTrue hnode => simp [hz] at hnode
        | ifFalse hnode => simp [hz] at hnode

-- The recursion at a function and at any other value.

theorem findAllFunctionsSeen_function {fuel : Nat} {s : Search} {v : Value}
    (h : m.IsFunction (m.unwrapCasts v)) : m.findAllFunctionsSeen (fuel + 1) s v =
      some { s with funcs := s.funcs.insert (m.unwrapCasts v) } := by
  obtain ⟨name, hname⟩ := h
  simp only [findAllFunctionsSeen, hname]

theorem findAllFunctionsSeen_of_not {fuel : Nat} {s : Search} {v : Value}
    (h : ¬ m.IsFunction (m.unwrapCasts v)) : m.findAllFunctionsSeen (fuel + 1) s v =
      if m.unwrapCasts v ∈ s.seen then some s
      else (m.branches (m.unwrapCasts v)).foldlM (m.findAllFunctionsSeen fuel)
        { s with seen := m.unwrapCasts v :: s.seen } := by
  rw [findAllFunctionsSeen, branches]
  cases hnode : m.node (m.unwrapCasts v) with
  | function name => exact absurd ⟨name, hnode⟩ h
  | _ => rfl

-- The two sets of the recursion and the one of a search that visits functions like other values.
structure SameSets (m : Module) (funcs : List Value) (s : Search) (vs : List Value) : Prop where
  seen : ∀ x, x ∈ s.seen ↔ x ∈ vs ∧ ¬ m.IsFunction x
  funcs : ∀ f, f ∈ s.funcs ↔ f ∈ funcs ∨ f ∈ vs ∧ m.IsFunction f

section Simulation

variable {funcs : List Value} {s : Search} {vs vs' : List Value}

theorem SameSets.insert (h : SameSets m funcs s vs) {v : Value} (hv : m.IsFunction v) :
    SameSets m funcs { s with funcs := s.funcs.insert v } (v :: vs) where
  seen x := by
    rw [h.seen, List.mem_cons]
    constructor
    · exact fun ⟨hx, hf⟩ => ⟨.inr hx, hf⟩
    · rintro ⟨rfl | hx, hf⟩
      · exact absurd hv hf
      · exact ⟨hx, hf⟩
  funcs f := by
    rw [List.mem_insert_iff, h.funcs, List.mem_cons]
    constructor
    · rintro (rfl | hf | ⟨hf, hfun⟩)
      · exact .inr ⟨.inl rfl, hv⟩
      · exact .inl hf
      · exact .inr ⟨.inr hf, hfun⟩
    · rintro (hf | ⟨rfl | hf, hfun⟩)
      · exact .inr (.inl hf)
      · exact .inl rfl
      · exact .inr (.inr ⟨hf, hfun⟩)

theorem SameSets.insert_seen (h : SameSets m funcs s vs) {v : Value} (hv : m.IsFunction v)
    (hmem : v ∈ vs) : SameSets m funcs { s with funcs := s.funcs.insert v } vs := by
  have hcons := h.insert hv
  refine ⟨fun x => (hcons.seen x).trans ?_, fun f => (hcons.funcs f).trans ?_⟩
  · simp only [List.mem_cons, or_iff_right_of_imp fun hx : x = v => hx ▸ hmem]
  · simp only [List.mem_cons, or_iff_right_of_imp fun hf : f = v => hf ▸ hmem]

theorem SameSets.mark (h : SameSets m funcs s vs) {v : Value} (hv : ¬ m.IsFunction v) :
    SameSets m funcs { s with seen := v :: s.seen } (v :: vs) where
  seen x := by
    rw [List.mem_cons, h.seen, List.mem_cons]
    constructor
    · rintro (rfl | ⟨hx, hf⟩)
      · exact ⟨.inl rfl, hv⟩
      · exact ⟨.inr hx, hf⟩
    · rintro ⟨rfl | hx, hf⟩
      · exact .inl rfl
      · exact .inr ⟨hx, hf⟩
  funcs f := by
    rw [h.funcs, List.mem_cons]
    refine or_congr_right ⟨fun ⟨hf, hfun⟩ => ⟨.inr hf, hfun⟩, ?_⟩
    rintro ⟨rfl | hf, hfun⟩
    · exact absurd hfun hv
    · exact ⟨hf, hfun⟩

-- There is nothing to be found, so that the search goes through everything.
def everywhere (m : Module) : Nat → List Value → Value → Option (Option Empty × List Value) :=
  Search.find m.nextValues fun _ => none

theorem foldlM_sameSets {fuel : Nat} {r : Option Empty}
    (ih : ∀ {s : Search} {vs vs' : List Value} {r : Option Empty} (v : Value),
      SameSets m funcs s vs → m.everywhere fuel vs (m.unwrapCasts v) = some (r, vs') →
        ∃ s', m.findAllFunctionsSeen fuel s v = some s' ∧ SameSets m funcs s' vs')
    (us : List Value) (h : SameSets m funcs s vs)
    (hfind : Search.findIn (m.everywhere fuel) (us.map m.unwrapCasts) vs = some (r, vs')) :
    ∃ s', us.foldlM (m.findAllFunctionsSeen fuel) s = some s' ∧ SameSets m funcs s' vs' := by
  induction us generalizing s vs with
  | nil =>
    cases hfind
    exact ⟨s, rfl, h⟩
  | cons u us ihus =>
    rw [List.map_cons, Search.findIn] at hfind
    obtain ⟨⟨r₁, vs₁⟩, hu, hrest⟩ := Option.bind_eq_some_iff.mp hfind
    obtain ⟨s₁, hs₁, hsame₁⟩ := ih u h hu
    cases r₁ with
    | some e => exact e.elim
    | none =>
      obtain ⟨s', hs', hsame'⟩ := ihus hsame₁ hrest
      exact ⟨s', by rw [List.foldlM_cons, hs₁]; exact hs', hsame'⟩

theorem findAllFunctionsSeen_sameSets {fuel : Nat} {r : Option Empty} (v : Value)
    (h : SameSets m funcs s vs) (hfind : m.everywhere fuel vs (m.unwrapCasts v) = some (r, vs')) :
    ∃ s', m.findAllFunctionsSeen fuel s v = some s' ∧ SameSets m funcs s' vs' := by
  induction fuel generalizing s vs vs' r v with
  | zero => cases hfind
  | succ fuel ih =>
    rw [everywhere, Search.find] at hfind
    change (if _ then _ else Search.findIn (m.everywhere fuel) _ _) = _ at hfind
    by_cases hfun : m.IsFunction (m.unwrapCasts v)
    · rw [findAllFunctionsSeen_function hfun]
      by_cases hmem : m.unwrapCasts v ∈ vs
      · rw [if_pos hmem] at hfind
        cases hfind
        exact ⟨_, rfl, h.insert_seen hfun hmem⟩
      · have hnext : m.nextValues (m.unwrapCasts v) = [] := by
          obtain ⟨name, hname⟩ := hfun
          simp [nextValues, branches, hname]
        rw [if_neg hmem, hnext] at hfind
        cases hfind
        exact ⟨_, rfl, h.insert hfun⟩
    · rw [findAllFunctionsSeen_of_not hfun]
      have hseen : m.unwrapCasts v ∈ s.seen ↔ m.unwrapCasts v ∈ vs := by
        rw [h.seen]
        exact and_iff_left hfun
      by_cases hmem : m.unwrapCasts v ∈ vs
      · rw [if_pos hmem] at hfind
        cases hfind
        exact ⟨s, if_pos (hseen.mpr hmem), h⟩
      · rw [if_neg hmem] at hfind
        rw [if_neg fun hs => hmem (hseen.mp hs)]
        exact foldlM_sameSets ih (m.branches _) (h.mark hfun) hfind

end Simulation

theorem nextValues_lt (hclosed : m.Closed) {v w : Value} (hv : v < m.size)
    (hw : w ∈ m.nextValues v) : w < m.size := by
  obtain ⟨u, hu, rfl, -⟩ := mem_nextValues.mp hw
  refine (unwrapCasts_le u).trans_lt (hclosed v hv u ?_)
  cases hu with
  | cast hnode => simp [operands, hnode]
  | phi hnode hmem => simpa [operands, hnode] using hmem
  | ifTrue hnode => simp [operands, hnode]
  | ifFalse hnode => simp [operands, hnode]

-- As many levels as there are values are enough.
theorem everywhere_isSome (hclosed : m.Closed) {v : Value} (hv : v < m.size) {fuel : Nat}
    (hfuel : m.size < fuel) : ∃ vs, m.everywhere fuel [] (m.unwrapCasts v) = some (none, vs) ∧
      ∀ x, x ∈ vs ↔ Search.Reach m.nextValues (m.unwrapCasts v) x := by
  have hnodes : ∀ x ∈ Finset.range m.size, ∀ w ∈ m.nextValues x, w ∈ Finset.range m.size := by
    intro x hx w hw
    exact Finset.mem_range.mpr (nextValues_lt hclosed (Finset.mem_range.mp hx) hw)
  have hcard : (Finset.range m.size \ ([] : List Value).toFinset).card < fuel := by
    simpa using hfuel
  obtain ⟨r, vs, hfind, hsearched⟩ : ∃ r vs,
      m.everywhere fuel [] (m.unwrapCasts v) = some (r, vs) ∧
        Search.Searched m.nextValues (fun _ => none) [m.unwrapCasts v] [] r vs :=
    Search.find_searched _ hnodes hcard (Finset.mem_range.mpr ((unwrapCasts_le v).trans_lt hv))
  cases r with
  | some e => exact e.elim
  | none => exact ⟨vs, hfind, hsearched.mem_iff⟩

theorem findAllFunctionsSeen_isSome (hclosed : m.Closed) {V : Value} (hV : V < m.size) {fuel : Nat}
    (hfuel : m.size < fuel) (funcs : List Value) :
    ∃ s, m.findAllFunctionsSeen fuel ⟨[], funcs⟩ V = some s ∧
      ∀ f, f ∈ s.funcs ↔ f ∈ funcs ∨ m.IsFunction f ∧ Relation.ReflTransGen m.MayBe V f := by
  obtain ⟨vs, heverywhere, hvs⟩ := everywhere_isSome hclosed hV hfuel
  have hstart : SameSets m funcs ⟨[], funcs⟩ [] := ⟨by simp, by simp⟩
  obtain ⟨s, hs, hsame⟩ := findAllFunctionsSeen_sameSets V hstart heverywhere
  refine ⟨s, hs, fun f => ?_⟩
  rw [hsame.funcs, hvs, and_comm]
  exact or_congr_right (and_congr_right reach_nextValues)

-- The functions are found, whatever earlier calls have left in the set of the thread.
theorem findAllFunctions_iff (m : Module) (hclosed : m.Closed) (inner_seen funcs : List Value)
    (V : Value) (hV : V < m.size) (fuel : Nat) (hfuel : m.size < fuel) :
    ∃ inner_seen' funcs', m.findAllFunctions fuel inner_seen funcs V = some (inner_seen', funcs') ∧
      (∀ f, f ∈ funcs' ↔ f ∈ funcs ∨ m.IsFunction f ∧ Relation.ReflTransGen m.MayBe V f) ∧
      ∀ earlier, ∃ later, m.findAllFunctions fuel earlier funcs V = some (later, funcs') := by
  obtain ⟨s, hs, hfuncs⟩ := findAllFunctionsSeen_isSome hclosed hV hfuel funcs
  have hcall (earlier : List Value) :
      ∃ later, m.findAllFunctions fuel earlier funcs V = some (later, s.funcs) := by
    unfold findAllFunctions
    split
    · rename_i name hname
      refine ⟨earlier, ?_⟩
      cases fuel with
      | zero => cases hfuel
      | succ fuel =>
        rw [findAllFunctionsSeen_function ⟨name, hname⟩] at hs
        cases hs
        rfl
    · exact ⟨[], by rw [hs]; rfl⟩
  obtain ⟨inner_seen', hcall'⟩ := hcall inner_seen
  exact ⟨inner_seen', s.funcs, hcall', hfuncs, hcall⟩

-- Two phis that are values of each other.
def phiCycle : Module where
  node v :=
    match v with
    | 0 => .function "f".toList
    | 1 => .function "g".toList
    | 2 => .phi [0, 3]
    | 3 => .phi [2, 4]
    | 4 => .cast 1
    | _ => .other
  size := 5
  functions := []
  cast_lt := by
    intro v w h
    split at h
    all_goals try cases h
    decide
  stripPointerCasts := id

theorem phiCycle_closed : phiCycle.Closed := by
  decide

theorem findAllFunctions_phiCycle :
    ∃ inner_seen' funcs', phiCycle.findAllFunctions 6 [2, 3] [] 2 = some (inner_seen', funcs') ∧
      (∀ f, f ∈ funcs' ↔ f ∈ [] ∨
        phiCycle.IsFunction f ∧ Relation.ReflTransGen phiCycle.MayBe 2 f) ∧
      ∀ earlier, ∃ later, phiCycle.findAllFunctions 6 earlier [] 2 = some (later, funcs') :=
  findAllFunctions_iff phiCycle phiCycle_closed [2, 3] [] 2 (by decide) 6 (by decide)

example : phiCycle.findAllFunctions 6 [2, 3] [] 2 = some ([], [1, 0]) := by decide

end Platypus.Pass.Module
