import Platypus.Pass.OriginArgument
import Platypus.Search.Bounded
import Platypus.Text.Fields

-- The pass `BitMasks`, which instruments the indirect calls of a module.

namespace Platypus.Pass.BitMasks

-- A struct in debug information: the names of the types of its members; `none` for other elements.
structure StructDI where
  name : Name
  elements : List (Option Name)

-- What the pass reads of its environment, of the generated header and of debug information.
structure Analysis where
  struct_names : List Name
  global_names : List Name
  -- whether `LOADER` is set
  loader : Bool
  collectCallbackMaybeFunctions : List Name
  valueType : Name → Ty
  stripPointerCasts : Func → Value → Value
  printStructArgTypes : Func → List (Nat × Name)
  useLists : (F : Func) → UseLists F
  -- whether the argument's debug type has a field of an allowed struct with a function pointer
  nestedMatch : Func → Nat → Bool
  -- whether it is itself an allowed struct with a field for a function pointer
  fieldMatch : Func → Nat → Bool
  isValuePointerToAllowedStruct_ViaDbgRecord : Func → Value → Bool
  resolveStructDIType : Func → Value → Option StructDI
  -- the second index of a `getelementptr` if it is a constant, otherwise 0
  fieldIdx : Func → Value → Nat
  -- the names of the composite types under those of the debug variables
  debugVariableTypes : Func → List Name

namespace Func

def unwrapRounds (F : Func) : Nat → Value → Value
  | 0, v => v
  | rounds + 1, v =>
    match F.defOf v with
    | some (.bitCast w) => F.unwrapRounds rounds w
    | _ => v

-- A chain of casts is no longer than the function.
def unwrapCasts (F : Func) (v : Value) : Value := F.unwrapRounds F.ops.length v

-- The values that a chain goes on with.
def chainOperands (F : Func) (v : Value) : List Value :=
  match F.defOf v with
  | some (.load ptr) => [ptr]
  | some (.phi incoming) => incoming.map Prod.fst
  | some (.select _ ifTrue ifFalse) => [ifTrue, ifFalse]
  | some (.gep _ base) => [base]
  | some (.bitCast w) => [w]
  | _ => []

end Func

def stripStructPrefix (name : Name) : Name :=
  if "struct.".toList <+: name then name.drop 7
  else if "union.".toList <+: name then name.drop 6
  else if "class.".toList <+: name then name.drop 6
  else name

-- The results 0, 1 and 2.
inductive Origin
  | unknown
  | struct
  | readOnly
  deriving DecidableEq, Repr

def readOnlyStruct : Name := "rtld_global_ro".toList

namespace Analysis

variable (A : Analysis)

def structOrigin (name : Name) : Origin :=
  if stripStructPrefix name = readOnlyStruct then .readOnly else .struct

def allowed (ty : Ty) : Option Name :=
  match ty with
  | .struct (some name) => if stripStructPrefix name ∈ A.struct_names then some name else none
  | _ => none

def structMatch (F : Func) (v : Value) : Bool :=
  (A.resolveStructDIType F (F.unwrapCasts v)).any fun ct => decide (ct.name ∈ A.struct_names)

-- A member whose type has an allowed name.
def memberMatch (F : Func) (v : Value) (idx : Nat) : Bool :=
  (A.resolveStructDIType F (F.unwrapCasts v)).any fun ct =>
    (ct.elements[idx]?.join).any fun name => decide (name ∈ A.struct_names)

def loadMatch (F : Func) (ptr : Value) : Bool :=
  (match F.defOf ptr with
    | some (.gep _ base) => A.memberMatch F base (A.fieldIdx F ptr)
    | _ => false) ||
  A.memberMatch F ptr 0 || A.isValuePointerToAllowedStruct_ViaDbgRecord F ptr

-- The tests at a value of a chain.
def chainMatch (F : Func) (v : Value) : Bool :=
  A.isValuePointerToAllowedStruct_ViaDbgRecord F v || A.structMatch F v ||
  match F.defOf v with
  | some (.load ptr) => A.loadMatch F ptr
  | some (.phi _) => (A.debugVariableTypes F).any fun name => decide (name ∈ A.struct_names)
  | _ => false

def chainSteps (F : Func) (v : Value) : List (Option Value) :=
  if A.chainMatch F v then [none] else (F.chainOperands v).map some

-- The depths 0 to 8.
def resolveChainForAllowedStruct (F : Func) (v : Value) : Bool :=
  (Search.search (A.chainSteps F) 9 [] v).1

def chainOrigin (F : Func) (called : Value) : Origin :=
  if A.resolveChainForAllowedStruct F called then .struct else .unknown

-- A field at a byte offset of `base`.
def byteFieldOrigin (F : Func) (called base : Value) : Origin :=
  match F.unwrapCasts base with
  | .globalVariable name =>
    if name = readOnlyStruct then .readOnly
    else if (A.allowed (A.valueType name)).isSome then .struct
    else A.chainOrigin F called
  | v =>
    match F.defOf v with
    | some (.alloca ty) =>
      match A.allowed ty with
      | some name => structOrigin name
      | none => A.chainOrigin F called
    | _ => A.chainOrigin F called

def getOriginArgument (F : Func) (V : Value) : Option Nat :=
  (F.getOriginArgument (A.useLists F) V).join

def fieldOrigin (F : Func) (called : Value) (ty : Ty) (base : Value) : Origin :=
  let realArg := A.getOriginArgument F (A.stripPointerCasts F base)
  match (A.printStructArgTypes F).find? fun info => realArg = some info.1 with
  | some info => structOrigin info.2
  | none =>
    match ty with
    | .struct _ =>
      match A.allowed ty with
      | some name => structOrigin name
      | none => A.chainOrigin F called
    | .i8 => A.byteFieldOrigin F called base
    | .other => A.chainOrigin F called

def argumentOf (F : Func) (v : Value) : Option Nat :=
  match F.unwrapCasts v with
  | .argument argNo => some argNo
  | _ => none

-- The two comparisons with the debug type of an argument.
def debugMatch (F : Func) (ptr1 : Value) : Bool :=
  (match F.defOf ptr1 with
    | some (.load ptr2) => ((argumentOf F ptr2).map (A.nestedMatch F)).getD false
    | _ => false) ||
  ((argumentOf F ptr1).map (A.fieldMatch F)).getD false

-- Without a global under a constant `getelementptr` a null pointer is dereferenced.
def reportStructOriginOfIndirCalls (F : Func) (callee : Value) : Option Origin :=
  let called := A.stripPointerCasts F callee
  match called with
  | .function _ => some .unknown
  | _ =>
    match F.defOf called with
    | some (.load ptr1) =>
      if A.debugMatch F ptr1 then some .struct
      else
        match F.defOf ptr1 with
        | some (.gep ty base) => some (A.fieldOrigin F called ty base)
        | _ =>
          match ptr1 with
          | .gepExpr base =>
            match A.stripPointerCasts F base with
            | .globalVariable name =>
              if name = "_rtld_global_ro".toList then some .readOnly
              else some (A.chainOrigin F called)
            | _ => none
          | _ => some (A.chainOrigin F called)
    | _ => some (A.chainOrigin F called)

end Analysis

-- Where a call stands in a function.
structure Cut where
  before : List Block
  label : Label
  pre : List Instr
  call : CallBase
  post : List Instr
  after : List Block
  deriving DecidableEq, Repr

def cutBody (id : Nat) : List Instr → Option (List Instr × CallBase × List Instr)
  | [] => none
  | I :: rest =>
    let later := (cutBody id rest).map fun cut => (I :: cut.1, cut.2)
    match I.op with
    | .call c => if I.id = id then some ([], c, rest) else later
    | _ => later

def cutBlocks (id : Nat) : List Block → Option Cut
  | [] => none
  | B :: rest =>
    match cutBody id B.body with
    | some (pre, c, post) => some ⟨[], B.label, pre, c, post, rest⟩
    | none => (cutBlocks id rest).map fun cut => { cut with before := B :: cut.before }

def orMask : Value := .globalVariable "or_mask".toList

def andMask : Value := .globalVariable "and_mask".toList

-- Addresses of globals are constants, so that only these operations become instructions.
def masking (n : Nat) (target : Value) : List Instr :=
  [⟨n, .ptrToInt target⟩, ⟨n + 1, .or (.reg n) orMask⟩, ⟨n + 2, .and (.reg (n + 1)) andMask⟩,
    ⟨n + 3, .intToPtr (.reg (n + 2))⟩]

-- The target in r11, and its comparison with what the masks make of it.
def checking (n : Nat) (target : Value) (callBlock skipBlock : Label) : List Instr :=
  [⟨n, .movR11 target⟩, ⟨n + 1, .orAnd target⟩, ⟨n + 2, .icmpEq target (.reg (n + 1))⟩,
    ⟨n + 3, .condBr (.reg (n + 2)) callBlock skipBlock⟩]

inductive Table
  | callback
  | fini
  | threadkey
  deriving DecidableEq, Repr

def Table.name : Table → Name
  | .callback => "callback_table".toList
  | .fini => "fini_callback_table".toList
  | .threadkey => "threadkey_callback_table".toList

def tableCall (c : CallBase) (table : Table) : Op :=
  .call { c.withType c.abi.functionType with callee := .function table.name, typeMatches := true }

-- The cut with all uses of the call replaced by `v`, unless it has none.
def Cut.replaceAllUsesWith (cut : Cut) (id : Nat) (v : Value) (g : Label → Label) : Cut :=
  let f : Value → Value := if cut.call.isVoid then fun w => w else Value.replace id v
  { before := cut.before.map (Block.map f g)
    label := cut.label
    pre := cut.pre.map (Instr.map f g)
    call := cut.call.map f
    post := cut.post.map (Instr.map f g)
    after := cut.after.map (Block.map f g) }

-- The numbers of the blocks and of the instructions that a split makes.
structure Fresh where
  callBlock : Label
  skipBlock : Label
  afterCall : Label
  callInCallBlock : Nat
  callInSkipBlock : Nat
  phi : Nat
  brCall : Nat
  brSkip : Nat

def fresh (n : Nat) : Fresh :=
  ⟨n + 4, n + 5, n + 6, n + 7, n + 8, n + 9, n + 10, n + 11⟩

def mergedCall (c : CallBase) (N : Fresh) : List Instr :=
  if c.isVoid then []
  else [⟨N.phi, .phi [(.reg N.callInCallBlock, N.callBlock), (.reg N.callInSkipBlock, N.skipBlock)]⟩]

-- The phis that name the block get the block that has its branches now.
def Cut.relabel (cut : Cut) (N : Fresh) (l : Label) : Label :=
  if l = cut.label then N.afterCall else l

namespace Func

-- The function with other blocks and `count` more numbers in use.
def withBlocks (F : Func) (count : Nat) (blocks : List Block) : Func :=
  { F with blocks := blocks, next := F.next + count }

def instrumentNormalCase (F : Func) (id : Nat) (cut : Cut) : Func :=
  F.withBlocks 4 (cut.before ++
    ⟨cut.label, cut.pre ++ masking F.next cut.call.callee ++
      ⟨id, .call { cut.call with callee := .reg (F.next + 3) }⟩ :: cut.post⟩ :: cut.after)

def alwaysCallbackTable (F : Func) (id : Nat) (cut : Cut) (table : Table) : Func :=
  let cut := cut.replaceAllUsesWith id (.reg (F.next + 1)) fun l => l
  F.withBlocks 2 (cut.before ++
    ⟨cut.label, cut.pre ++ ⟨F.next, .movR11 cut.call.callee⟩ ::
      ⟨F.next + 1, tableCall cut.call table⟩ :: cut.post⟩ :: cut.after)

-- The new blocks for the two calls stand at the end of the function.
def splitCall (F : Func) (id : Nat) (cut : Cut) : Func :=
  let N := fresh F.next
  let cut := cut.replaceAllUsesWith id (.reg N.phi) (cut.relabel N)
  F.withBlocks 12 (cut.before ++
    ⟨cut.label, cut.pre ++ checking F.next cut.call.callee N.callBlock N.skipBlock⟩ ::
    ⟨N.afterCall, mergedCall cut.call N ++ cut.post⟩ :: cut.after ++
    [⟨N.callBlock, [⟨N.callInCallBlock, .call (cut.call.withType cut.call.abi.functionType)⟩,
        ⟨N.brCall, .br N.afterCall⟩]⟩,
      ⟨N.skipBlock, [⟨N.callInSkipBlock, tableCall (cut.call.withType cut.call.argsType) .callback⟩,
        ⟨N.brSkip, .br N.afterCall⟩]⟩])

end Func

-- A call whose target is known only when it runs.
def CallBase.isIndirect (c : CallBase) : Bool :=
  match c.callee with
  | .function _ => false
  | .inlineAsm => false
  | _ => true

-- The calls that the first loop collects: a function of another type is a candidate, too.
def CallBase.isCandidate (c : CallBase) : Bool :=
  match c.callee with
  | .function _ => !c.typeMatches
  | .inlineAsm => false
  | _ => true

def Func.candidates (F : Func) : List Nat :=
  F.ops.filterMap fun I =>
    match I.op with
    | .call c => if c.isCandidate then some I.id else none
    | _ => none

def tableFunctions : List Name :=
  ["__run_exit_handlers".toList, "__libc_start_main_impl".toList, "__libc_start_call_main".toList,
    "__GI___backtrace".toList, "backtrace_helper".toList, "start_thread".toList,
    "__cxa_finalize".toList]

def exempt : List Name := ["__getrandom_early_init".toList, "main_init_once".toList]

-- `skipped` are the calls that were left as they were.
structure RunState where
  func : Func
  skipped : List Nat := []
  deriving DecidableEq, Repr

namespace Analysis

variable (A : Analysis)

-- The dispatcher that every call of a special function of glibc goes to.
def tableOf (F : Func) : Option Table :=
  if "__nptl_deallocate_tsd".toList <:+ F.name then some .threadkey
  else if F.name = "_dl_call_fini".toList ∧ A.loader then some .fini
  else if F.name ∈ tableFunctions then some .callback
  else none

-- The global that the target is, or is loaded from.
def targetGlobal (F : Func) (target : Value) : Option Name :=
  let v := match F.defOf target with
    | some (.load ptr) => A.stripPointerCasts F ptr
    | _ => A.stripPointerCasts F target
  match v with
  | .globalVariable name => some name
  | _ => none

def needsSplit (F : Func) (target : Value) (rtld_glob : Origin) : Bool :=
  F.name ∈ A.collectCallbackMaybeFunctions || rtld_glob = .struct ||
    (rtld_glob = .unknown && (A.targetGlobal F target).any fun name => decide (name ∈ A.global_names))

def rewriteCall (st : RunState) (id : Nat) (cut : Cut) : Option RunState :=
  let F := st.func
  match A.tableOf F with
  | some table => some { st with func := F.alwaysCallbackTable id cut table }
  | none =>
    match A.reportStructOriginOfIndirCalls F cut.call.callee with
    | none => none
    | some .readOnly => some { st with skipped := id :: st.skipped }
    | some rtld_glob =>
      if A.needsSplit F cut.call.callee rtld_glob then
        some { st with func := F.splitCall id cut }
      else some { st with func := F.instrumentNormalCase id cut }

def rewriteCandidate (st : RunState) (id : Nat) : Option RunState :=
  match cutBlocks id st.func.blocks with
  | none => some st
  | some cut => A.rewriteCall st id cut

def runFunction (F : Func) : Option RunState :=
  if F.name ∈ exempt then some ⟨F, []⟩
  else F.candidates.foldlM A.rewriteCandidate ⟨F, []⟩

def skips (m : Module) : Bool :=
  Text.contains m.identifier "speedtest".toList ||
    (A.loader && !Text.contains m.sourceFileName "dl-call_fini".toList)

def run (m : Module) : Option (List RunState) :=
  if A.skips m then some (m.functions.map fun F => ⟨F, []⟩)
  else m.functions.mapM A.runFunction

end Analysis

end Platypus.Pass.BitMasks
