import Mathlib

namespace Platypus.Asm

abbrev Word := BitVec 64

inductive Reg
  | rax
  | rdi
  | rsi
  | rdx
  | rcx
  | r8
  | r9
  | r11
  | rsp
  | xmm15
  deriving DecidableEq, Repr

-- Instructions of a translation unit; `N` are the names of its labels and symbols.
inductive Insn (N : Type)
  | leaq (sym : N)
  | cmpqMem
  | cmpqZero
  | addq (imm : Word)
  | movq (src dst : Reg)
  | pushq (reg : Reg)
  | popq (reg : Reg)
  | testEax
  | call (sym : N)
  | je (label : N)
  | jne (label : N)
  | jmp (label : N)
  | jmpR11
  | hlt
  deriving DecidableEq, Repr

inductive Line (N : Type)
  | label (name : N)
  | insn (i : Insn N)
  deriving DecidableEq, Repr

-- Memory is read and written in words, named by their addresses; `reads` collects the
-- addresses that comparisons have read.
structure State where
  regs : Reg → Word
  zf : Bool
  mem : Word → Word
  reads : List Word

-- Where the symbols are, and what the external functions do to the state.
structure Env (N : Type) where
  symbols : N → Word
  external : N → State → State

namespace State

def set (s : State) (r : Reg) (w : Word) : State :=
  { s with regs := fun r' => if r' = r then w else s.regs r' }

-- Compare the word at the address in rax.
def compare (s : State) (w : Word) : State :=
  { s with zf := s.mem (s.regs .rax) = w, reads := s.regs .rax :: s.reads }

variable (s : State)

@[simp] theorem regs_set_self (r : Reg) (w : Word) : (s.set r w).regs r = w := if_pos rfl

theorem regs_set_of_ne (r r' : Reg) (w : Word) (h : r' ≠ r) : (s.set r w).regs r' = s.regs r' :=
  if_neg h

@[simp] theorem mem_set (r : Reg) (w : Word) : (s.set r w).mem = s.mem := rfl

@[simp] theorem reads_set (r : Reg) (w : Word) : (s.set r w).reads = s.reads := rfl

@[simp] theorem zf_set (r : Reg) (w : Word) : (s.set r w).zf = s.zf := rfl

@[simp] theorem regs_compare (w : Word) : (s.compare w).regs = s.regs := rfl

@[simp] theorem mem_compare (w : Word) : (s.compare w).mem = s.mem := rfl

@[simp] theorem reads_compare (w : Word) : (s.compare w).reads = s.regs .rax :: s.reads := rfl

theorem zf_compare (w : Word) : (s.compare w).zf = true ↔ s.mem (s.regs .rax) = w :=
  decide_eq_true_iff

end State

inductive Outcome (N : Type)
  | running (code : List (Line N)) (s : State)
  | jumped (target : Word) (s : State)
  | halted (s : State)
  | stuck

variable {N : Type} [DecidableEq N]

-- The code after a label.
def seek (l : N) : List (Line N) → Option (List (Line N))
  | [] => none
  | line :: code => if line = .label l then some code else seek l code

@[simp] theorem seek_insn (l : N) (i : Insn N) (code : List (Line N)) :
    seek l (.insn i :: code) = seek l code := if_neg nofun

@[simp] theorem seek_label_self (l : N) (code : List (Line N)) :
    seek l (.label l :: code) = some code := if_pos rfl

theorem seek_label_of_ne {l l' : N} (h : l' ≠ l) (code : List (Line N)) :
    seek l (.label l' :: code) = seek l code := if_neg fun heq => h (Line.label.inj heq)

theorem seek_append_of_not_mem (l : N) (code code' : List (Line N)) (h : .label l ∉ code) :
    seek l (code ++ code') = seek l code' := by
  induction code with
  | nil => rfl
  | cons line code ih =>
    rw [List.mem_cons, not_or] at h
    rw [List.cons_append, seek, if_neg (Ne.symm h.1), ih h.2]

section Run

variable (env : Env N) (prog : List (Line N))

def goto (l : N) (s : State) : Outcome N :=
  match seek l prog with
  | some code => .running code s
  | none => .stuck

def exec (i : Insn N) (code : List (Line N)) (s : State) : Outcome N :=
  match i with
  | .leaq sym => .running code (s.set .rax (env.symbols sym))
  | .cmpqMem => .running code (s.compare (s.regs .r11))
  | .cmpqZero => .running code (s.compare 0#64)
  | .addq imm => .running code (s.set .rax (s.regs .rax + imm))
  | .movq src dst => .running code (s.set dst (s.regs src))
  | .pushq r =>
    let sp := s.regs .rsp - 8#64
    .running code
      { s.set .rsp sp with mem := fun a => if a = sp then s.regs r else s.mem a }
  | .popq r =>
    let sp := s.regs .rsp
    .running code ((s.set r (s.mem sp)).set .rsp (sp + 8#64))
  | .testEax => .running code { s with zf := (s.regs .rax).setWidth 32 = 0#32 }
  | .call sym => .running code (env.external sym s)
  | .je l => if s.zf then goto prog l s else .running code s
  | .jne l => if s.zf then .running code s else goto prog l s
  | .jmp l => goto prog l s
  | .jmpR11 => .jumped (s.regs .r11) s
  | .hlt => .halted s

def step (code : List (Line N)) (s : State) : Outcome N :=
  match code with
  | [] => .stuck
  | .label _ :: code => .running code s
  | .insn i :: code => exec env prog i code s

def run : Nat → List (Line N) → State → Outcome N
  | 0, code, s => .running code s
  | fuel + 1, code, s =>
    match step env prog code s with
    | .running code s => run fuel code s
    | out => out

-- The run from here ends, and it ends so.
def Ends (code : List (Line N)) (s : State) (out : Outcome N) : Prop :=
  (∀ code s, out ≠ .running code s) ∧ ∃ fuel, run env prog fuel code s = out

variable {env prog} {code code' : List (Line N)} {s s' : State} {out out' : Outcome N}

theorem step_jmp {l : N} (hl : seek l prog = some code') :
    step env prog (.insn (.jmp l) :: code) s = .running code' s := by
  simp only [step, exec, goto, hl]

theorem step_jmp_stuck {l : N} (hl : seek l prog = none) :
    step env prog (.insn (.jmp l) :: code) s = .stuck := by
  simp only [step, exec, goto, hl]

theorem step_je {l : N} (hl : seek l prog = some code') :
    step env prog (.insn (.je l) :: code) s = .running (if s.zf then code' else code) s := by
  simp only [step, exec, goto, hl]
  split <;> rfl

theorem step_jne {l : N} (hl : seek l prog = some code') :
    step env prog (.insn (.jne l) :: code) s = .running (if s.zf then code else code') s := by
  simp only [step, exec, goto, hl]
  split <;> rfl

theorem Ends.of_step (h : step env prog code s = .running code' s')
    (hends : Ends env prog code' s' out) : Ends env prog code s out := by
  obtain ⟨hout, fuel, hrun⟩ := hends
  refine ⟨hout, fuel + 1, ?_⟩
  rw [run, h]
  exact hrun

theorem Ends.of_last (hout : ∀ code s, out ≠ .running code s)
    (h : step env prog code s = out) : Ends env prog code s out := by
  refine ⟨hout, 1, ?_⟩
  rw [run, h]
  cases out with
  | running code s => exact absurd rfl (hout code s)
  | _ => rfl

theorem Ends.of_jumped {target : Word} (h : step env prog code s = .jumped target s') :
    Ends env prog code s (.jumped target s') := by
  refine .of_last ?_ h
  intro code s hout
  cases hout

theorem Ends.of_halted (h : step env prog code s = .halted s') :
    Ends env prog code s (.halted s') := by
  refine .of_last ?_ h
  intro code s hout
  cases hout

-- A run has one end.
theorem Ends.unique (h : Ends env prog code s out) (h' : Ends env prog code s out') :
    out = out' := by
  obtain ⟨hout, fuel, hrun⟩ := h
  obtain ⟨hout', fuel', hrun'⟩ := h'
  induction fuel generalizing fuel' code s with
  | zero => exact absurd hrun.symm (hout code s)
  | succ fuel ih =>
    cases fuel' with
    | zero => exact absurd hrun'.symm (hout' code s)
    | succ fuel' =>
      rw [run] at hrun hrun'
      cases hstep : step env prog code s with
      | running code₁ s₁ =>
        rw [hstep] at hrun hrun'
        exact ih hrun fuel' hrun'
      | _ =>
        rw [hstep] at hrun hrun'
        exact hrun.symm.trans hrun'

variable (env prog) in
def Jumps (code : List (Line N)) (s : State) (target : Word) : Prop :=
  ∃ s', Ends env prog code s (.jumped target s')

theorem Jumps.of_step {target : Word} (h : step env prog code s = .running code' s')
    (hjumps : Jumps env prog code' s' target) : Jumps env prog code s target := by
  obtain ⟨s'', hends⟩ := hjumps
  exact ⟨s'', hends.of_step h⟩

theorem jumps_jmpR11 (code : List (Line N)) (s : State) :
    Jumps env prog (.insn .jmpR11 :: code) s (s.regs .r11) := ⟨s, .of_jumped rfl⟩

-- The next step is a call.
def isCall : List (Line N) → Bool
  | .insn (.call _) :: _ => true
  | _ => false

variable (env prog) in
-- Steps that call nothing.
inductive Silent : List (Line N) → State → List (Line N) → State → Prop
  | refl (code : List (Line N)) (s : State) : Silent code s code s
  | step {code code₁ code' : List (Line N)} {s s₁ s' : State} (hcall : isCall code = false)
      (h : step env prog code s = .running code₁ s₁) (hrest : Silent code₁ s₁ code' s') :
      Silent code s code' s'

theorem Silent.trans {code'' : List (Line N)} {s'' : State} (h : Silent env prog code s code' s')
    (h' : Silent env prog code' s' code'' s'') : Silent env prog code s code'' s'' := by
  induction h with
  | refl => exact h'
  | step hcall hstep _ ih => exact .step hcall hstep (ih h')

theorem Ends.of_silent (h : Silent env prog code s code' s') (hends : Ends env prog code' s' out) :
    Ends env prog code s out := by
  induction h with
  | refl => exact hends
  | step _ hstep _ ih => exact .of_step hstep (ih hends)

variable (env prog) in
-- The run from here comes to a call of `sym` in the state `s'`.
def Calls (code : List (Line N)) (s : State) (sym : N) (s' : State) : Prop :=
  ∃ fuel code', run env prog fuel code s = .running (.insn (.call sym) :: code') s'

variable {sym sym' : N} {t : State}

theorem calls_step (hcall : isCall code = false) (h : step env prog code s = .running code' s') :
    Calls env prog code s sym t ↔ Calls env prog code' s' sym t := by
  constructor
  · rintro ⟨fuel, rest, hrun⟩
    cases fuel with
    | zero =>
      cases hrun
      cases hcall
    | succ fuel =>
      rw [run, h] at hrun
      exact ⟨fuel, rest, hrun⟩
  · rintro ⟨fuel, rest, hrun⟩
    refine ⟨fuel + 1, rest, ?_⟩
    rw [run, h]
    exact hrun

theorem calls_silent (h : Silent env prog code s code' s') :
    Calls env prog code s sym t ↔ Calls env prog code' s' sym t := by
  induction h with
  | refl => rfl
  | step hcall hstep _ ih => exact (calls_step hcall hstep).trans ih

theorem calls_call :
    Calls env prog (.insn (.call sym) :: code) s sym' t ↔
      sym' = sym ∧ t = s ∨ Calls env prog code (env.external sym s) sym' t := by
  constructor
  · rintro ⟨fuel, rest, hrun⟩
    cases fuel with
    | zero =>
      cases hrun
      exact .inl ⟨rfl, rfl⟩
    | succ fuel => exact .inr ⟨fuel, rest, hrun⟩
  · rintro (⟨rfl, rfl⟩ | ⟨fuel, rest, hrun⟩)
    · exact ⟨0, code, rfl⟩
    · exact ⟨fuel + 1, rest, hrun⟩

theorem not_calls_of_last (hcall : isCall code = false)
    (h : ∀ code' s', step env prog code s ≠ .running code' s') : ¬Calls env prog code s sym t := by
  rintro ⟨fuel, rest, hrun⟩
  cases fuel with
  | zero =>
    cases hrun
    cases hcall
  | succ fuel =>
    rw [run] at hrun
    split at hrun
    · rename_i hstep
      exact h _ _ hstep
    · exact h _ _ hrun

end Run

-- `ws` lies in memory from `a` on.
def Holds (mem : Word → Word) (a : Word) (ws : List Word) : Prop :=
  ∀ i w, ws[i]? = some w → mem (a + BitVec.ofNat 64 (8 * i)) = w

theorem Holds.nil (mem : Word → Word) (a : Word) : Holds mem a [] := nofun

theorem Holds.cons {mem : Word → Word} {a w : Word} {ws : List Word} (h : mem a = w)
    (hws : Holds mem (a + 8#64) ws) : Holds mem a (w :: ws) := by
  intro i w' hw'
  cases i with
  | zero =>
    obtain rfl : w = w' := by simpa using hw'
    rwa [Nat.mul_zero, BitVec.add_zero]
  | succ i =>
    rw [Nat.mul_succ, Nat.add_comm, BitVec.ofNat_add, ← BitVec.add_assoc]
    exact hws i w' (by simpa using hw')

theorem Holds.head {mem : Word → Word} {a w : Word} {ws : List Word} (h : Holds mem a (w :: ws)) :
    mem a = w := by
  have h₀ := h 0 w rfl
  rwa [Nat.mul_zero, BitVec.add_zero] at h₀

theorem Holds.tail {mem : Word → Word} {a w : Word} {ws : List Word} (h : Holds mem a (w :: ws)) :
    Holds mem (a + 8#64) ws := by
  intro i w' hw'
  have hi := h (i + 1) w' (by simpa using hw')
  rwa [Nat.mul_succ, Nat.add_comm, BitVec.ofNat_add, ← BitVec.add_assoc] at hi

end Platypus.Asm
