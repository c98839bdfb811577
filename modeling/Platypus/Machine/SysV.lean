import Mathlib

namespace Platypus.SysV

-- The class of eight bytes of a parameter.
inductive Class
  | INTEGER
  | SSE
  deriving DecidableEq, Repr

-- A parameter, as far as its passing depends on it. A by-value aggregate is passed in one or two
-- eightbytes, or in memory if it is large.
inductive Param
  | integer
  | pointer
  | int128
  | floating
  | longDouble
  | aggregate (first : Class) (second : Option Class)
  | large
  deriving DecidableEq, Repr

-- The eightbytes that are passed in registers if there are enough; `none` is memory.
def Param.eightbytes : Param → Option (List Class)
  | .integer | .pointer => some [.INTEGER]
  | .int128 => some [.INTEGER, .INTEGER]
  | .floating => some [.SSE]
  | .aggregate first second => some (first :: second.toList)
  | .longDouble | .large => none

-- The number of registers of each kind that are taken.
structure Used where
  ints : Nat
  sses : Nat
  deriving DecidableEq, Repr

inductive Loc
  | int (i : Nat)
  | sse (i : Nat)
  deriving DecidableEq, Repr

def Loc.isInt : Loc → Bool
  | .int _ => true
  | .sse _ => false

def Used.next (u : Used) : Class → Used
  | .INTEGER => { u with ints := u.ints + 1 }
  | .SSE => { u with sses := u.sses + 1 }

def Used.loc (u : Used) : Class → Loc
  | .INTEGER => .int u.ints
  | .SSE => .sse u.sses

def Used.locs : Used → List Class → List Loc
  | _, [] => []
  | u, c :: cs => u.loc c :: (u.next c).locs cs

def Used.after (u : Used) (cs : List Class) : Used := cs.foldl Used.next u

-- All eightbytes of a parameter are in registers, or none.
def Used.enough (u : Used) (cs : List Class) : Bool :=
  (u.after cs).ints ≤ 6 && (u.after cs).sses ≤ 8

-- An argument of the lowered call; `place` is `none` on the stack.
structure Arg where
  isPointer : Bool
  place : Option (List Loc)
  deriving DecidableEq, Repr

def Arg.ints (a : Arg) : Nat := (a.place.getD []).countP Loc.isInt

-- A parameter becomes one argument, but an aggregate in registers one for each eightbyte.
def Used.lower (u : Used) (p : Param) : List Arg × Used :=
  match p.eightbytes with
  | none => ([⟨false, none⟩], u)
  | some cs =>
    if u.enough cs then
      match p with
      | .aggregate _ _ => ((u.locs cs).map fun l => ⟨false, some [l]⟩, u.after cs)
      | _ => ([⟨p = .pointer, some (u.locs cs)⟩], u.after cs)
    else ([⟨p = .pointer, none⟩], u)

def Used.arguments : Used → List Param → List Arg
  | _, [] => []
  | u, p :: ps => (u.lower p).1 ++ (u.lower p).2.arguments ps

def arguments (ps : List Param) : List Arg := Used.arguments ⟨0, 0⟩ ps

-- The integer registers that a list of arguments takes.
def intRegs (args : List Arg) : Nat := (args.map Arg.ints).sum

theorem countP_locs (u : Used) (cs : List Class) :
    u.ints + (u.locs cs).countP Loc.isInt = (u.after cs).ints := by
  induction cs generalizing u with
  | nil => rfl
  | cons c cs ih =>
    have hnext := ih (u.next c)
    simp only [Used.locs, List.countP_cons, Used.after, List.foldl_cons] at hnext ⊢
    rw [← hnext]
    cases c
    · simp [Used.loc, Used.next, Loc.isInt]
      omega
    · simp [Used.loc, Used.next, Loc.isInt]

theorem intRegs_singletons (ls : List Loc) :
    intRegs (ls.map fun l => ⟨false, some [l]⟩) = ls.countP Loc.isInt := by
  induction ls with
  | nil => rfl
  | cons l ls ih =>
    have hcons : intRegs ((l :: ls).map fun l => ⟨false, some [l]⟩) =
        [l].countP Loc.isInt + intRegs (ls.map fun l => ⟨false, some [l]⟩) := rfl
    rw [hcons, ih, ← List.countP_append]
    rfl

-- The arguments of a parameter take the integer registers that it uses.
theorem intRegs_lower (u : Used) (p : Param) :
    u.ints + intRegs (u.lower p).1 = (u.lower p).2.ints := by
  have hone : ∀ b place, intRegs [⟨b, place⟩] = (place.getD []).countP Loc.isInt := by
    intro b place
    simp [intRegs, Arg.ints]
  unfold Used.lower
  cases hcs : p.eightbytes with
  | none => rfl
  | some cs =>
    dsimp only
    split_ifs
    · split
      · rw [intRegs_singletons]
        exact countP_locs u cs
      · rw [hone]
        exact countP_locs u cs
    · rw [hone]
      rfl

theorem sses_lower {u : Used} (h : u.sses ≤ 8) (p : Param) : (u.lower p).2.sses ≤ 8 := by
  unfold Used.lower
  cases p.eightbytes with
  | none => exact h
  | some cs =>
    dsimp only
    split_ifs with henough
    · have hsses : (u.after cs).sses ≤ 8 := by simp_all [Used.enough]
      split <;> exact hsses
    · exact h

-- The place of a pointer: the next integer register, or the stack if all six are taken.
def Used.pointerPlace (u : Used) : Option (List Loc) :=
  if u.ints < 6 then some [.int u.ints] else none

theorem lower_pointer {u : Used} {p : Param} {k : Nat} {place : Option (List Loc)}
    (hsses : u.sses ≤ 8) (h : (u.lower p).1[k]? = some ⟨true, place⟩) :
    k = 0 ∧ place = u.pointerPlace := by
  have hfalse : ∀ ls : List Loc,
      (ls.map fun l => (⟨false, some [l]⟩ : Arg))[k]? ≠ some ⟨true, place⟩ := by
    intro ls hk
    obtain ⟨l, -, hl⟩ := List.mem_map.mp (List.mem_of_getElem? hk)
    cases hl
  have hone : ∀ a : Arg, [a][k]? = some ⟨true, place⟩ → k = 0 ∧ a = ⟨true, place⟩ := by
    intro a hk
    cases k with
    | zero => exact ⟨rfl, Option.some_inj.mp hk⟩
    | succ k => cases hk
  cases p with
  | pointer =>
    have henough : u.enough [.INTEGER] = decide (u.ints < 6) := by
      have hafter : u.after [.INTEGER] = { u with ints := u.ints + 1 } := rfl
      rw [Used.enough, hafter, decide_eq_true hsses, Bool.and_true]
      rfl
    simp only [Used.lower, Param.eightbytes, henough, decide_eq_true_eq] at h
    unfold Used.pointerPlace
    split_ifs at h ⊢ with hints
    · obtain ⟨rfl, ha⟩ := hone _ h
      cases ha
      exact ⟨rfl, rfl⟩
    · obtain ⟨rfl, ha⟩ := hone _ h
      cases ha
      exact ⟨rfl, rfl⟩
  | aggregate first second =>
    simp only [Used.lower, Param.eightbytes] at h
    split_ifs at h
    · exact absurd h (hfalse _)
    · cases (hone _ h).2
  | longDouble => cases (hone _ h).2
  | large => cases (hone _ h).2
  | _ =>
    simp only [Used.lower, Param.eightbytes] at h
    split_ifs at h <;> cases (hone _ h).2

-- A pointer is in the integer register that the arguments before it leave free.
theorem arguments_pointer (u : Used) (ps : List Param) (k : Nat) (place : Option (List Loc))
    (hsses : u.sses ≤ 8) (h : (u.arguments ps)[k]? = some ⟨true, place⟩) :
    place = Used.pointerPlace ⟨u.ints + intRegs ((u.arguments ps).take k), u.sses⟩ := by
  induction ps generalizing u k with
  | nil => cases h
  | cons p ps ih =>
    rw [Used.arguments] at h ⊢
    by_cases hk : k < (u.lower p).1.length
    · rw [List.getElem?_append_left hk] at h
      obtain ⟨rfl, hplace⟩ := lower_pointer hsses h
      exact hplace
    · obtain ⟨j, rfl⟩ := Nat.exists_eq_add_of_le (Nat.le_of_not_lt hk)
      rw [List.getElem?_append_right (Nat.le_add_right _ _), Nat.add_sub_cancel_left] at h
      rw [List.take_append, List.take_of_length_le (Nat.le_add_right _ _), Nat.add_sub_cancel_left]
      have hsplit : intRegs ((u.lower p).1 ++ ((u.lower p).2.arguments ps).take j) =
          intRegs (u.lower p).1 + intRegs (((u.lower p).2.arguments ps).take j) := by
        simp [intRegs]
      rw [hsplit, ← Nat.add_assoc, intRegs_lower]
      exact ih _ j (sses_lower hsses p) h

end Platypus.SysV
