import Platypus.Linker.GetterStub
import Platypus.Machine.SysV

namespace Platypus.Linker

open Bytes Machine SysV

-- An operand of a call in the compiler's representation.
inductive Operand
  | function (name : Name)
  | other
  deriving DecidableEq, Repr

structure Call where
  calledOperand : Operand
  args : List Operand

-- A line of the log: the callee, the function passed to it and the index of the argument.
structure ArgRecord where
  callee : Name
  function : Name
  arg_pos : Nat
  deriving DecidableEq, Repr

def Call.calleeName (call : Call) : Name :=
  match call.calledOperand with
  | .function name => name
  | .other => "<unknown>".toList

-- What the pass logs for one argument: nothing for the callee itself.
def Call.argRecord (call : Call) (arg_pos : Nat) (arg : Operand) : Option ArgRecord :=
  match arg with
  | .function name =>
    if call.calledOperand = arg then none else some ⟨call.calleeName, name, arg_pos⟩
  | .other => none

def Call.argRecords (call : Call) : List ArgRecord :=
  call.args.zipIdx.filterMap fun x => call.argRecord x.2 x.1

-- The arguments of the call are those of the parameters, and functions are passed as pointers.
def Call.PassedAs (call : Call) (params : List Param) : Prop :=
  ∀ (k : Nat) (name : Name), call.args[k]? = some (.function name) →
    ∃ place, (arguments params)[k]? = some ⟨true, place⟩

theorem Call.args_of_mem {call : Call} {r : ArgRecord} (h : r ∈ call.argRecords) :
    call.args[r.arg_pos]? = some (.function r.function) := by
  obtain ⟨⟨arg, k⟩, hmem, hrecord⟩ := List.mem_filterMap.mp h
  have harg := List.mem_zipIdx_iff_getElem?.mp hmem
  dsimp only at hrecord harg
  unfold Call.argRecord at hrecord
  split at hrecord
  · split at hrecord
    · cases hrecord
    · obtain rfl := Option.some_inj.mp hrecord
      exact harg
  · cases hrecord

-- The general register that carries an argument; `none` if it is elsewhere.
def carrier (params : List Param) (k : Nat) : Option Reg :=
  match (arguments params)[k]? with
  | some ⟨_, some [.int i]⟩ => if h : i < 6 then some (argReg ⟨i, h⟩) else none
  | _ => none

-- The registers that straight-line code masks.
def masked (code : List Op) : List Reg :=
  code.filterMap fun op =>
    match op with
    | .or reg _ => some reg
    | .and reg _ => some reg
    | _ => none

theorem carrier_pointer {params : List Param} {k : Nat} {place : Option (List Loc)}
    (h : (arguments params)[k]? = some ⟨true, place⟩) :
    carrier params k =
      if hregs : intRegs ((arguments params).take k) < 6 then some (argReg ⟨_, hregs⟩) else none := by
  have hplace := arguments_pointer ⟨0, 0⟩ params k place (Nat.zero_le 8) h
  rw [Nat.zero_add] at hplace
  unfold carrier
  rw [h, hplace]
  unfold Used.pointerPlace
  by_cases hregs : intRegs ((arguments params).take k) < 6
  · have hregs' : intRegs ((Used.arguments ⟨0, 0⟩ params).take k) < 6 := hregs
    rw [if_pos hregs']
    rfl
  · have hregs' : ¬intRegs ((Used.arguments ⟨0, 0⟩ params).take k) < 6 := hregs
    rw [if_neg hregs', dif_neg hregs]

theorem carrier_eq_iff {params : List Param} {place : Option (List Loc)} (pos : Fin 6)
    (h : (arguments params)[(pos : Nat)]? = some ⟨true, place⟩) :
    carrier params pos = some (argReg pos) ↔ intRegs ((arguments params).take pos) = pos := by
  rw [carrier_pointer h]
  constructor
  · intro hcarrier
    split at hcarrier
    · have hpos := argReg_injective (Option.some_inj.mp hcarrier)
      exact congrArg Fin.val hpos
    · cases hcarrier
  · intro hregs
    have hlt : intRegs ((arguments params).take pos) < 6 := by
      rw [hregs]
      exact pos.isLt
    rw [dif_pos hlt]
    exact congrArg (fun i => some (argReg i)) (Fin.ext hregs)

theorem masked_maskingOps (cfg : Config) (c : Ctx) (reg : Reg) (s : SymId) :
    masked (maskingOps cfg c reg s) = [reg, reg] := rfl

-- The stub for a logged index masks the register of the argument exactly if the index is below 6
-- and the arguments before it take as many integer registers.
theorem maskedArgument_iff (params : List Param) (call : Call) (hcall : call.PassedAs params)
    (r : ArgRecord) (hr : r ∈ call.argRecords) (cfg : Config) (c : Ctx)
    (write : SymId → Word → Option (List Byte))
    (hwrite : write = IntelIBT.writePlt cfg c ∨ write = X86_64.writeFakePlt cfg c) (s : SymId)
    (va : Word) (hget : cfg.callb_get.lookup (c.syms s).name = some [(r.arg_pos : Int)])
    (hfits : StubFits cfg c s va) :
    (∃ bs, write s va = some bs ∧ ∀ reg ∈ masked (ops bs va), carrier params r.arg_pos = some reg) ↔
      r.arg_pos < 6 ∧ intRegs ((arguments params).take r.arg_pos) = r.arg_pos := by
  obtain ⟨place, hplace⟩ := hcall _ _ (Call.args_of_mem hr)
  by_cases hpos : r.arg_pos < 6
  · have hcarrier := carrier_eq_iff ⟨r.arg_pos, hpos⟩ hplace
    obtain ⟨bs, hbs, -, hops⟩ := getter_ops hwrite ⟨r.arg_pos, hpos⟩ hget hfits
    constructor
    · rintro ⟨bs', hbs', hregs⟩
      rw [hbs, Option.some_inj] at hbs'
      rw [← hbs', hops, masked_maskingOps] at hregs
      exact ⟨hpos, hcarrier.mp (hregs _ List.mem_cons_self)⟩
    · rintro ⟨-, hregs⟩
      refine ⟨bs, hbs, fun reg hreg => ?_⟩
      rw [hops, masked_maskingOps] at hreg
      simp only [List.mem_cons, List.not_mem_nil, or_false, or_self] at hreg
      rw [hreg]
      exact hcarrier.mpr hregs
  · refine iff_of_false ?_ fun h => hpos h.1
    rintro ⟨bs, hbs, -⟩
    have hnone : maskedReg [(r.arg_pos : Int)] = none := by
      dsimp only [maskedReg]
      split_ifs <;> first | rfl | omega
    rcases hwrite with rfl | rfl
    · simp [IntelIBT.writePlt, hget, hnone] at hbs
    · simp [X86_64.writeFakePlt, hget, hnone] at hbs

-- A getter whose callback is its argument 1.
def argConfig : Config :=
  { demoConfig .IntelIBT with callb_get := [("integrate".toList, [1])] }

def argLink : Ctx where
  syms _ := { name := "integrate".toList, iscustomreloc := 1#32 }
  ormask_offset := 0x8#64
  andmask_offset := 0x10#64

theorem argLink_fits : StubFits argConfig argLink (.sym 0) 0x2000#64 :=
  ⟨by decide, by decide, by decide⟩

def integrateCall (args : List Operand) : Call := ⟨.function "integrate".toList, args⟩

def integrand : Operand := .function "f".toList

theorem integrateCall_passedAs (params : List Param)
    (h : ∃ place, (arguments params)[1]? = some ⟨true, place⟩) :
    (integrateCall [.other, integrand]).PassedAs params := by
  intro k name hname
  rcases k with _ | _ | k
  · cases hname
  · exact h
  · cases hname

-- `integrate (int n, double (*f)(double))`
theorem maskedArgument_integer :
    ∃ bs, X86_64.writeFakePlt argConfig argLink (.sym 0) 0x2000#64 = some bs ∧
      ∀ reg ∈ masked (ops bs 0x2000#64), carrier [.integer, .pointer] 1 = some reg :=
  (maskedArgument_iff [.integer, .pointer] (integrateCall [.other, integrand])
    (integrateCall_passedAs _ ⟨_, rfl⟩) ⟨"integrate".toList, "f".toList, 1⟩ (by decide)
    argConfig argLink _ (.inr rfl) (.sym 0) 0x2000#64 rfl argLink_fits).mpr (by decide)

-- `integrate (double x, double (*f)(double))`: the callback is in rdi, the stub masks rsi.
theorem maskedArgument_floating :
    (integrateCall [.other, integrand]).PassedAs [.floating, .pointer] ∧
    ⟨"integrate".toList, "f".toList, 1⟩ ∈ (integrateCall [.other, integrand]).argRecords ∧
    carrier [.floating, .pointer] 1 = some .rdi ∧
    ∃ bs, X86_64.writeFakePlt argConfig argLink (.sym 0) 0x2000#64 = some bs ∧
      masked (ops bs 0x2000#64) = [.rsi, .rsi] := by
  obtain ⟨bs, hbs, -, hops⟩ := getter_ops (.inr rfl) 1 (show argConfig.callb_get.lookup
    (argLink.syms (.sym 0)).name = some [(1 : Int)] from rfl) argLink_fits
  exact ⟨integrateCall_passedAs _ ⟨_, rfl⟩, by decide, rfl, bs, hbs, congrArg masked hops⟩

end Platypus.Linker
