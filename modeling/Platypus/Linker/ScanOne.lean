import Platypus.Bytes.Buffer
import Platypus.Linker.PostScan
import Platypus.Text.Scan

namespace Platypus.Linker

open Bytes

inductive UnresolvedPolicy
  | ReportError
  | Warn
  | Ignore
  deriving DecidableEq, Repr

-- The options of the link that the scan of relocations reads, and what it asks of symbols that
-- no step changes.
structure ScanConfig extends Config where
  relax : Bool
  zText : Bool
  zCopyreloc : Bool
  ignoreFunctionAddressEquality : Bool
  ignoreDataAddressEquality : Bool
  unresolvedSymbols : UnresolvedPolicy
  noinhibitExec : Bool
  dsoProtected : SymId → Bool
  scriptDefined : SymId → Bool
  hasVersionSuffix : SymId → Bool
  canBeExternal : SymId → Bool

-- An input section and a relocation of it.
structure InputSec where
  id : Section
  isWrite : Bool
  isEh : Bool
  addralign : Nat
  content : Buffer

structure Rel where
  sym : SymId
  symIndex : Nat
  type : RelType
  offset : Word
  addend : Int
  deriving DecidableEq, Repr

-- A relocation that is left to be applied when the output is written.
structure Relocation where
  sec : Section
  expr : RelExpr
  type : RelType
  offset : Word
  addend : Int
  sym : SymId
  deriving DecidableEq, Repr

structure ScanState where
  ctx : Ctx
  relocs : List Relocation := []
  hasGotPltOffRel : Bool := false
  hasGotOffRel : Bool := false
  needsTlsLd : Bool := false
  hasTlsIe : Bool := false

namespace ScanState

def sym (st : ScanState) (s : SymId) : Symbol := st.ctx.syms s

def setSym (st : ScanState) (s : SymId) (sym : Symbol) : ScanState :=
  { st with ctx := st.ctx.update s fun _ => sym }

def setFlags (st : ScanState) (s : SymId) (f : Flags → Flags) : ScanState :=
  { st with ctx := st.ctx.update s fun sym => { sym with flags := f sym.flags } }

def addReloc (st : ScanState) (r : Relocation) : ScanState := { st with relocs := st.relocs ++ [r] }

def addRelaDyn (st : ScanState) (r : DynamicReloc) : ScanState :=
  { st with ctx := st.ctx.addRelaDyn r }

def error (st : ScanState) (e : LinkError) : ScanState :=
  { st with ctx := { st.ctx with errors := st.ctx.errors ++ [e] } }

end ScanState

def Symbol.isAbsoluteValue (s : Symbol) : Bool := s.isAbsolute || s.isTls

-- What the name of a symbol makes of it and of the type of a relocation against it.

def maskType (sym : Symbol) (type : RelType) : Symbol × RelType :=
  if sym.startsWith "or_mask" then ({ sym with iscustomreloc := 0x2#32 }, .R_X86_64_ORMASK)
  else if sym.startsWith "and_mask" then ({ sym with iscustomreloc := 0xa#32 }, .R_X86_64_ANDMASK)
  else if sym.startsWith "__libc_start_main" then ({ sym with iscustomreloc := 0x1#32 }, type)
  else (sym, type)

def isCallbackName (name : Name) : Bool := "1337".toList.isSuffixOf name && '_' ∈ name

-- The offset stands between the first two underscores; the name is cut at the first one.
def decodeCallback (sym : Symbol) : Symbol :=
  let tag := sym.name.takeWhile (· ≠ '_')
  let text := (sym.name.drop (tag.length + 1)).takeWhile (· ≠ '_')
  let dso_offset := BitVec.ofInt 64 (Text.strtol text)
  { sym with name := tag, iscustomreloc := (dso_offset * 256#64 + 0x4#64).setWidth 32 }

def customType (sym : Symbol) (type : RelType) : Symbol × RelType :=
  if sym.startsWith "cccallback_table" then
    ({ sym with iscustomreloc := 0x3#32 }, .R_X86_64_CALLBACK_TABLE)
  else if sym.isPreemptible && sym.isFunc then
    if type ∈ [.R_X86_64_64, .R_X86_64_GOTPCRELX, .R_X86_64_REX_GOTPCRELX, .R_X86_64_PC32] then
      ({ sym with iscustomreloc := 0x1#32 }, type)
    else (sym, type)
  else if isCallbackName sym.name then
    (if sym.iscustomreloc < 0x100#32 then decodeCallback sym else sym, .R_X86_64_CALLBACK_MAYBE)
  else if sym.startsWith "placeholder" && !sym.startsWith "placeholder_" then
    ({ sym with iscustomreloc := 0x1#32 }, type)
  else (sym, type)

def classify (sym : Symbol) (type : RelType) : Symbol × RelType :=
  let (sym, type) := maskType sym type
  customType sym type

-- `none` for an unknown relocation
def getRelExpr : RelType → Option RelExpr
  | .R_X86_64_8 | .R_X86_64_16 | .R_X86_64_32 | .R_X86_64_32S | .R_X86_64_64
  | .R_X86_64_ORMASK | .R_X86_64_ANDMASK | .R_X86_64_CALLBACK_TABLE | .R_X86_64_CALLBACK_MAYBE
  | .R_X86_64_DSO_BASE => some .R_ABS
  | .R_X86_64_DTPOFF32 | .R_X86_64_DTPOFF64 => some .R_DTPREL
  | .R_X86_64_TPOFF32 | .R_X86_64_TPOFF64 => some .R_TPREL
  | .R_X86_64_TLSDESC_CALL => some .R_TLSDESC_CALL
  | .R_X86_64_TLSLD => some .R_TLSLD_PC
  | .R_X86_64_TLSGD => some .R_TLSGD_PC
  | .R_X86_64_SIZE32 | .R_X86_64_SIZE64 => some .R_SIZE
  | .R_X86_64_PLT32 => some .R_PLT_PC
  | .R_X86_64_PC8 | .R_X86_64_PC16 | .R_X86_64_PC32 | .R_X86_64_PC64 => some .R_PC
  | .R_X86_64_GOT32 | .R_X86_64_GOT64 => some .R_GOTPLT
  | .R_X86_64_GOTPC32_TLSDESC | .R_X86_64_CODE_4_GOTPC32_TLSDESC => some .R_TLSDESC_PC
  | .R_X86_64_GOTPCREL | .R_X86_64_GOTPCRELX | .R_X86_64_REX_GOTPCRELX
  | .R_X86_64_CODE_4_GOTPCRELX | .R_X86_64_GOTTPOFF | .R_X86_64_CODE_4_GOTTPOFF
  | .R_X86_64_CODE_6_GOTTPOFF => some .R_GOT_PC
  | .R_X86_64_GOTOFF64 => some .R_GOTPLTREL
  | .R_X86_64_PLTOFF64 => some .R_PLT_GOTPLT
  | .R_X86_64_GOTPC32 | .R_X86_64_GOTPC64 => some .R_GOTPLTONLY_PC
  | .R_X86_64_NONE => some .R_NONE
  | .R_X86_64_COPY | .R_X86_64_GLOB_DAT | .R_X86_64_JUMP_SLOT | .R_X86_64_RELATIVE
  | .R_X86_64_IRELATIVE | .R_X86_64_TLSDESC | .R_X86_64_DTPMOD64 => none

def getDynRel (type : RelType) : RelType :=
  if type ∈ [.R_X86_64_64, .R_X86_64_PC64, .R_X86_64_SIZE32, .R_X86_64_SIZE64,
      .R_X86_64_CALLBACK_MAYBE] then type
  else .R_X86_64_NONE

def fromPlt : RelExpr → RelExpr
  | .R_PLT_PC => .R_PC
  | .R_PLT => .R_ABS
  | .R_PLT_GOTPLT => .R_GOTPLTREL
  | expr => expr

def needsPlt (expr : RelExpr) : Bool := expr ∈ [.R_PLT, .R_PLT_PC, .R_PLT_GOTPLT]

def needsGot (expr : RelExpr) : Bool := expr ∈ [.R_GOT_PC, .R_GOTPLT]

def isRelExpr (expr : RelExpr) : Bool := expr ∈ [.R_PC, .R_GOTPLTREL, .R_RELAX_GOT_PC]

section Scan

variable (cfg : ScanConfig) (sec : InputSec)

def adjustGotPcExpr (rel : Rel) (type : RelType) : RelExpr :=
  let op := sec.content (rel.offset.toNat - 2)
  let modRm := sec.content (rel.offset.toNat - 1)
  if !cfg.relax || rel.addend ≠ -4 ||
      type ∉ [.R_X86_64_GOTPCRELX, .R_X86_64_REX_GOTPCRELX, .R_X86_64_CODE_4_GOTPCRELX] then
    .R_GOT_PC
  else if op = 0x8b#8 then .R_RELAX_GOT_PC
  else if op = 0xff#8 && (modRm = 0x15#8 || modRm = 0x25#8) then .R_RELAX_GOT_PC
  else if type = .R_X86_64_GOTPCRELX then .R_GOT_PC
  else if cfg.isPic then .R_GOT_PC
  else .R_RELAX_GOT_PC_NOPIC

-- A symbol that cannot be preempted needs no PLT, and maybe no GOT.
def adjustExpr (sym : Symbol) (rel : Rel) (expr : RelExpr) (type : RelType) : RelExpr :=
  if !sym.isPreemptible && (!sym.isGnuIFunc || cfg.zIfuncNoplt) then
    if expr ≠ .R_GOT_PC then fromPlt expr
    else if !sym.isAbsoluteValue then adjustGotPcExpr cfg sec rel type
    else expr
  else expr

def isStaticLinkTimeConstant (sym : Symbol) (expr : RelExpr) : Bool :=
  if expr ∈ [.R_GOTPLT, .R_GOT_PC, .R_GOTPLTONLY_PC, .R_PLT_PC, .R_PLT_GOTPLT] then true
  else if expr = .R_PLT then !cfg.isPic
  else if sym.isPreemptible then false
  else if !cfg.isPic then true
  else if expr = .R_SIZE then true
  else if sym.isAbsoluteValue then true
  else isRelExpr expr

-- The case of `isStaticLinkTimeConstant` that answers yes with an error.
def refersToAbsolute (s : SymId) (sym : Symbol) (expr : RelExpr) : Bool :=
  expr ∉ [.R_GOTPLT, .R_GOT_PC, .R_GOTPLTONLY_PC, .R_PLT_PC, .R_PLT_GOTPLT, .R_PLT, .R_SIZE] &&
    !sym.isPreemptible && cfg.isPic && sym.isAbsoluteValue && isRelExpr expr &&
    !sym.isUndefWeak && !cfg.scriptDefined s

def noteFlags (st : ScanState) (s : SymId) (expr : RelExpr) : ScanState :=
  if needsGot expr then st.setFlags s fun f => { f with NEEDS_GOT := true }
  else if needsPlt expr then st.setFlags s fun f => { f with NEEDS_PLT := true }
  else if (st.sym s).isGnuIFunc then st.setFlags s fun f => { f with HAS_DIRECT_RELOC := true }
  else st

def toRelocation (rel : Rel) (expr : RelExpr) (type : RelType) : Relocation :=
  ⟨sec.id, expr, type, rel.offset, rel.addend, rel.sym⟩

def addSymbolReloc (st : ScanState) (rel : Rel) (dynType : RelType) : ScanState :=
  st.addRelaDyn
    ⟨dynType, sec.id, rel.offset, .AgainstSymbol, some rel.sym, rel.addend, .R_ADDEND⟩

def addRelativeSecReloc (st : ScanState) (rel : Rel) (expr : RelExpr) (type : RelType) :
    ScanState :=
  if cfg.relrDyn && 2 ≤ sec.addralign && rel.offset.toNat % 2 = 0 then
    let st := st.addReloc (toRelocation sec rel expr type)
    { st with ctx := { st.ctx with relrDyn := st.ctx.relrDyn ++ [(sec.id, rel.offset)] } }
  else
    st.addRelaDyn ⟨.R_X86_64_RELATIVE, sec.id, rel.offset, .AddendOnlyWithTargetVA, some rel.sym,
      rel.addend, expr⟩

def canDefineSymbolInExecutable (s : SymId) (sym : Symbol) : Bool :=
  !cfg.dsoProtected s || (sym.isFunc && cfg.ignoreFunctionAddressEquality) ||
    (sym.isObject && cfg.ignoreDataAddressEquality)

-- A copy relocation or a canonical PLT entry, where a dynamic relocation is not possible.
def copyOrCanonicalPlt (st : ScanState) (rel : Rel) (expr : RelExpr) (type : RelType) : ScanState :=
  let sym := st.sym rel.sym
  if !cfg.shared && sym.kind = .Shared && !canDefineSymbolInExecutable cfg rel.sym sym then
    st.error (.cannotPreempt rel.sym)
  else if !cfg.shared && sym.kind = .Shared && sym.isObject then
    let st := if cfg.zCopyreloc then st else st.error (.noCopyreloc type rel.sym)
    let st := st.setFlags rel.sym fun f => { f with NEEDS_COPY := true }
    st.addReloc (toRelocation sec rel expr type)
  else if !cfg.shared && sym.kind = .Shared && sym.isFunc then
    let st := st.setFlags rel.sym fun f => { f with NEEDS_COPY := true, NEEDS_PLT := true }
    st.addReloc (toRelocation sec rel expr type)
  else st.error (.recompileWithFPIC type rel.sym)

-- The relocation has to be applied when the program is loaded.
def processDynamic (st : ScanState) (rel : Rel) (expr : RelExpr) (type : RelType) : ScanState :=
  let dynRel := getDynRel type
  if (sec.isWrite || !(cfg.zText || sec.isEh)) && dynRel = .R_X86_64_64 &&
      !(st.sym rel.sym).isPreemptible then
    addRelativeSecReloc cfg sec st rel expr type
  else if (sec.isWrite || !(cfg.zText || sec.isEh)) && dynRel ≠ .R_X86_64_NONE then
    addSymbolReloc sec st rel dynRel
  else copyOrCanonicalPlt cfg sec st rel expr type

def processAux (st : ScanState) (rel : Rel) (expr : RelExpr) (type : RelType) : ScanState :=
  let sym := st.sym rel.sym
  let expr := adjustExpr cfg sec sym rel expr type
  let st := if expr = .R_RELAX_GOT_PC then { st with hasGotOffRel := true } else st
  if sym.isGnuIFunc && cfg.zIfuncNoplt then addSymbolReloc sec st rel type
  else
    let st := noteFlags st rel.sym expr
    let st :=
      if refersToAbsolute cfg rel.sym sym expr then
        st.error (.cannotReferToAbsolute type rel.sym)
      else st
    if isStaticLinkTimeConstant cfg sym expr || (!cfg.isPic && sym.isUndefWeak) then
      st.addReloc (toRelocation sec rel expr type)
    else processDynamic cfg sec st rel expr type

def getTlsGdRelaxSkip (type : RelType) : Nat :=
  if type ∈ [.R_X86_64_GOTPC32_TLSDESC, .R_X86_64_CODE_4_GOTPC32_TLSDESC,
      .R_X86_64_TLSDESC_CALL] then 1
  else 2

-- The number of relocations handled; zero if the relocation is to be handled like any other.
def handleTlsRelocation (st : ScanState) (rel : Rel) (expr : RelExpr) (type : RelType) :
    ScanState × Nat :=
  let keep (st : ScanState) (expr : RelExpr) := st.addReloc (toRelocation sec rel expr type)
  let isPreemptible := (st.sym rel.sym).isPreemptible
  if expr = .R_TPREL then
    if cfg.shared then (st.error (.cannotBeUsedWithShared type rel.sym), 1) else (st, 0)
  else if expr ∈ [.R_TLSDESC_CALL, .R_TLSDESC_PC] && cfg.shared then
    if expr ≠ .R_TLSDESC_CALL then
      (keep (st.setFlags rel.sym fun f => { f with NEEDS_TLSDESC := true }) expr, 1)
    else (st, 1)
  else if expr = .R_TLSLD_PC then
    if !cfg.shared then (keep st .R_RELAX_TLS_LD_TO_LE, getTlsGdRelaxSkip type)
    else (keep { st with needsTlsLd := true } expr, 1)
  else if expr = .R_DTPREL then
    (keep st (if !cfg.shared then .R_RELAX_TLS_LD_TO_LE else expr), 1)
  else if expr ∈ [.R_TLSDESC_CALL, .R_TLSDESC_PC, .R_TLSGD_PC] then
    if cfg.shared then (keep (st.setFlags rel.sym fun f => { f with NEEDS_TLSGD := true }) expr, 1)
    else if isPreemptible then
      (keep (st.setFlags rel.sym fun f => { f with NEEDS_TLSGD_TO_IE := true })
        .R_RELAX_TLS_GD_TO_IE, getTlsGdRelaxSkip type)
    else (keep st .R_RELAX_TLS_GD_TO_LE, getTlsGdRelaxSkip type)
  else if expr ∈ [.R_GOTPLT, .R_GOT_PC] then
    let st := { st with hasTlsIe := true }
    if !cfg.shared && !isPreemptible then (keep st .R_RELAX_TLS_IE_TO_LE, 1)
    else (keep (st.setFlags rel.sym fun f => { f with NEEDS_TLSIE := true }) expr, 1)
  else (st, 0)

-- Returns whether the undefined symbol makes the link fail.
def maybeReportUndefined (st : ScanState) (s : SymId) : ScanState × Bool :=
  if cfg.hasVersionSuffix s then (st.error (.undefined s false), true)
  else if (st.sym s).isWeak then (st, false)
  else if cfg.unresolvedSymbols = .Ignore && cfg.canBeExternal s then (st, false)
  else
    let isWarning := (cfg.unresolvedSymbols = .Warn && cfg.canBeExternal s) || cfg.noinhibitExec
    (st.error (.undefined s isWarning), !isWarning)

def reportUndefined (st : ScanState) (rel : Rel) : ScanState × Bool :=
  let sym := st.sym rel.sym
  if sym.kind = .Undefined && rel.symIndex ≠ 0 && sym.customrelocType < 2#32 &&
      !"callback_table".toList.isSuffixOf sym.name && !sym.startsWith "placeholder" &&
      !sym.startsWith "dsym_" then
    maybeReportUndefined cfg st rel.sym
  else (st, false)

def noteGotPlt (st : ScanState) (expr : RelExpr) : ScanState :=
  if expr ∈ [.R_GOTPLTONLY_PC, .R_GOTPLTREL, .R_GOTPLT, .R_PLT_GOTPLT] then
    { st with hasGotPltOffRel := true }
  else st

-- After the type and the expression of the relocation are known.
def scanExpr (st : ScanState) (rel : Rel) (expr : RelExpr) (type : RelType) : ScanState × Nat :=
  let (st, failed) := reportUndefined cfg st rel
  if failed then (st, 1)
  else
    let st := noteGotPlt st expr
    let (st, processed) :=
      if (st.sym rel.sym).isTls || expr ∈ [.R_TLSDESC_PC, .R_TLSDESC_CALL] then
        handleTlsRelocation cfg sec st rel expr type
      else (st, 0)
    if processed ≠ 0 then (st, processed) else (processAux cfg sec st rel expr type, 1)

-- Returns how many relocations were handled.
def scanOne (st : ScanState) (rel : Rel) : ScanState × Nat :=
  let (sym, type) := classify (st.sym rel.sym) rel.type
  let st := st.setSym rel.sym sym
  if rel.offset = -1#64 then (st, 1)
  else
    match getRelExpr type with
    | none => (st.error (.unknownRelocation type rel.sym), 1)
    | some .R_NONE => (st, 1)
    | some expr =>
      let custom := sym.customrelocType
      scanExpr cfg sec st rel (if 1#32 < custom && custom ≠ 4#32 then .R_GOT_PC else expr) type

def scan : Nat → ScanState → List Rel → ScanState
  | _, st, [] => st
  | skip + 1, st, _ :: rels => scan skip st rels
  | 0, st, rel :: rels =>
    let (st, processed) := scanOne cfg sec st rel
    scan (processed - 1) st rels

end Scan

-- The sections of the link, each with its relocations, in the order in which they are scanned.
def scanRelocations (cfg : ScanConfig) (st : ScanState) (secs : List (InputSec × List Rel)) :
    ScanState :=
  secs.foldl (fun st p => scan cfg p.1 0 st p.2) st

end Platypus.Linker
