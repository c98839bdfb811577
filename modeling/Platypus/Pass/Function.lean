import Mathlib

-- The functions that the passes work on.

namespace Platypus.Pass.BitMasks

abbrev Name := List Char

abbrev Label := Nat

inductive Value
  -- the result of an instruction
  | reg (id : Nat)
  | argument (argNo : Nat)
  | globalVariable (name : Name)
  | function (name : Name)
  -- a constant `getelementptr`
  | gepExpr (base : Value)
  | inlineAsm
  | constant (c : BitVec 64)
  deriving DecidableEq, Repr

inductive Ty
  -- literal and unnamed structs have no name
  | struct (name : Option Name)
  | i8
  | other
  deriving DecidableEq, Repr

-- The types of return values and arguments, by number; 0 is `void`.
abbrev TypeId := Nat

structure FunctionType where
  result : TypeId
  params : List TypeId
  isVarArg : Bool
  deriving DecidableEq, Repr

-- What decides how a call passes its arguments: 0 is the C calling convention, and an attribute
-- such as `byval` or `sret` comes with the number of its parameter.
structure Abi where
  functionType : FunctionType
  callingConv : Nat := 0
  attributes : List (Nat × Name) := []
  deriving DecidableEq, Repr

structure CallBase where
  callee : Value
  args : List Value
  argTypes : List TypeId
  -- whether `getCalledFunction` gives the callee when that is a function
  typeMatches : Bool := true
  abi : Abi
  deriving DecidableEq, Repr

namespace CallBase

def isVoid (c : CallBase) : Bool := c.abi.functionType.result = 0

-- A call that the builder makes is a C call without attributes.
def withType (c : CallBase) (ty : FunctionType) : CallBase := { c with abi := ⟨ty, 0, []⟩ }

-- The function type of the arguments that are there.
def argsType (c : CallBase) : FunctionType := ⟨c.abi.functionType.result, c.argTypes, false⟩

-- A call that the builder could have made from its arguments.
def IsPlain (c : CallBase) : Prop := c.abi = ⟨c.argsType, 0, []⟩

end CallBase

-- The two pieces of inline assembly that the pass inserts have operations of their own.
inductive Op
  | call (c : CallBase)
  | invoke (c : CallBase) (normal unwind : Label)
  | callbr (c : CallBase) (dests : List Label)
  | load (ptr : Value)
  | store (value ptr : Value)
  | gep (sourceElementType : Ty) (base : Value)
  | bitCast (v : Value)
  | alloca (allocated : Ty)
  | phi (incoming : List (Value × Label))
  | select (cond ifTrue ifFalse : Value)
  | movR11 (v : Value)
  | orAnd (v : Value)
  | icmpEq (a b : Value)
  | ptrToInt (v : Value)
  | or (a b : Value)
  | and (a b : Value)
  | intToPtr (v : Value)
  | br (dest : Label)
  | condBr (cond : Value) (ifTrue ifFalse : Label)
  | other (kind : Nat) (operands : List Value) (dests : List Label)
  deriving DecidableEq, Repr

def CallBase.map (f : Value → Value) (c : CallBase) : CallBase :=
  { c with callee := f c.callee, args := c.args.map f }

-- The operands and the blocks that phis name; targets of branches stay.
def Op.map (f : Value → Value) (g : Label → Label) : Op → Op
  | .call c => .call (c.map f)
  | .invoke c normal unwind => .invoke (c.map f) normal unwind
  | .callbr c dests => .callbr (c.map f) dests
  | .load ptr => .load (f ptr)
  | .store value ptr => .store (f value) (f ptr)
  | .gep ty base => .gep ty (f base)
  | .bitCast v => .bitCast (f v)
  | .alloca ty => .alloca ty
  | .phi incoming => .phi (incoming.map fun e => (f e.1, g e.2))
  | .select cond ifTrue ifFalse => .select (f cond) (f ifTrue) (f ifFalse)
  | .movR11 v => .movR11 (f v)
  | .orAnd v => .orAnd (f v)
  | .icmpEq a b => .icmpEq (f a) (f b)
  | .ptrToInt v => .ptrToInt (f v)
  | .or a b => .or (f a) (f b)
  | .and a b => .and (f a) (f b)
  | .intToPtr v => .intToPtr (f v)
  | .br dest => .br dest
  | .condBr cond ifTrue ifFalse => .condBr (f cond) ifTrue ifFalse
  | .other kind operands dests => .other kind (operands.map f) dests

def Op.targets : Op → List Label
  | .invoke _ normal unwind => [normal, unwind]
  | .callbr _ dests => dests
  | .br dest => [dest]
  | .condBr _ ifTrue ifFalse => [ifTrue, ifFalse]
  | .other _ _ dests => dests
  | _ => []

structure Instr where
  id : Nat
  op : Op
  deriving DecidableEq, Repr

def Instr.map (f : Value → Value) (g : Label → Label) (I : Instr) : Instr :=
  ⟨I.id, I.op.map f g⟩

structure Block where
  label : Label
  body : List Instr
  deriving DecidableEq, Repr

def Block.map (f : Value → Value) (g : Label → Label) (B : Block) : Block :=
  ⟨B.label, B.body.map (Instr.map f g)⟩

-- No instruction and no block of a function has a number from `next` on.
structure Func where
  name : Name
  blocks : List Block
  next : Nat
  deriving DecidableEq, Repr

structure Module where
  identifier : Name
  sourceFileName : Name
  functions : List Func

-- Replacing all uses of an instruction.
def Value.replace (id : Nat) (v : Value) : Value → Value
  | .reg k => if k = id then v else .reg k
  | w => w

namespace Func

def ops (F : Func) : List Instr := F.blocks.flatMap Block.body

def defOf (F : Func) : Value → Option Op
  | .reg id => (F.ops.find? fun I => I.id = id).map Instr.op
  | _ => none

end Func

end Platypus.Pass.BitMasks
