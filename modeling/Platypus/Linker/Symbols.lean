import Mathlib

namespace Platypus.Linker

abbrev Word := BitVec 64
abbrev Name := List Char

-- A symbol of the symbol table or of an object file, or the copy of a non-preemptible ifunc
-- that `handleNonPreemptibleIfunc` makes.
inductive SymId
  | sym (n : Nat)
  | direct (n : Nat)
  deriving DecidableEq, Repr

inductive SymType
  | STT_NOTYPE
  | STT_OBJECT
  | STT_FUNC
  | STT_SECTION
  | STT_FILE
  | STT_TLS
  | STT_GNU_IFUNC
  deriving DecidableEq, Repr

inductive Kind
  | Defined
  | Common
  | Shared
  | Undefined
  | Lazy
  deriving DecidableEq, Repr

-- The sections that relocations and symbols point into.
inductive Section
  | got
  | gotPlt
  | igotPlt
  | plt
  | fakeplt
  | iplt
  | ibtPlt
  | bss (copy : Nat)
  | input (n : Nat)
  deriving DecidableEq, Repr

-- The bits of `Symbol::flags`. The AUTH bits belong to AArch64 relocations.
structure Flags where
  NEEDS_GOT : Bool := false
  NEEDS_PLT : Bool := false
  HAS_DIRECT_RELOC : Bool := false
  NEEDS_COPY : Bool := false
  NEEDS_TLSDESC : Bool := false
  NEEDS_TLSGD : Bool := false
  NEEDS_TLSGD_TO_IE : Bool := false
  NEEDS_GOT_DTPREL : Bool := false
  NEEDS_TLSIE : Bool := false
  deriving DecidableEq, Repr

structure Symbol where
  name : Name
  type : SymType := .STT_FUNC
  iscustomreloc : BitVec 32 := 0#32
  kind : Kind := .Shared
  isWeak : Bool := false
  isPreemptible : Bool := true
  flags : Flags := {}
  isInIplt : Bool := false
  gotInIgot : Bool := false
  auxIdx : Nat := 0
  value : Word := 0#64
  size : Word := 0#64
  alignment : Nat := 1
  section_ : Option Section := none
  deriving DecidableEq, Repr

namespace Symbol

def customrelocType (s : Symbol) : BitVec 32 := s.iscustomreloc &&& 0xff#32

-- `customreloc_type() & 0x1`
def isFake (s : Symbol) : Bool := s.customrelocType &&& 1#32 ≠ 0#32

def isGnuIFunc (s : Symbol) : Bool := s.type = .STT_GNU_IFUNC
def isObject (s : Symbol) : Bool := s.type = .STT_OBJECT
def isFunc (s : Symbol) : Bool := s.type = .STT_FUNC
def isTls (s : Symbol) : Bool := s.type = .STT_TLS
def isDefined (s : Symbol) : Bool := s.kind = .Defined
def isUndefWeak (s : Symbol) : Bool := s.isWeak && s.kind = .Undefined

def isAbsolute (s : Symbol) : Bool := s.isUndefWeak || (s.isDefined && s.section_ = none)

def needsDynReloc (s : Symbol) : Bool :=
  s.flags.NEEDS_COPY || s.flags.NEEDS_GOT || s.flags.NEEDS_PLT || s.flags.NEEDS_TLSDESC ||
    s.flags.NEEDS_TLSGD || s.flags.NEEDS_TLSGD_TO_IE || s.flags.NEEDS_GOT_DTPREL ||
    s.flags.NEEDS_TLSIE

def startsWith (s : Symbol) (text : String) : Bool := text.toList.isPrefixOf s.name

end Symbol

structure SymbolAux where
  gotIdx : BitVec 32 := -1#32
  pltIdx : BitVec 32 := -1#32
  fakepltIdx : BitVec 32 := -1#32
  tlsDescIdx : BitVec 32 := -1#32
  tlsGdIdx : BitVec 32 := -1#32
  non_fake_plt : BitVec 32 := 0#32
  both_plts : BitVec 32 := 0#32
  deriving DecidableEq, Repr

inductive RelType
  | R_X86_64_NONE
  | R_X86_64_64
  | R_X86_64_PC32
  | R_X86_64_GOT32
  | R_X86_64_PLT32
  | R_X86_64_GOTPCREL
  | R_X86_64_32
  | R_X86_64_32S
  | R_X86_64_16
  | R_X86_64_PC16
  | R_X86_64_8
  | R_X86_64_PC8
  | R_X86_64_TLSGD
  | R_X86_64_TLSLD
  | R_X86_64_DTPOFF32
  | R_X86_64_GOTTPOFF
  | R_X86_64_TPOFF32
  | R_X86_64_PC64
  | R_X86_64_GOTOFF64
  | R_X86_64_GOTPC32
  | R_X86_64_GOT64
  | R_X86_64_GOTPC64
  | R_X86_64_PLTOFF64
  | R_X86_64_SIZE32
  | R_X86_64_SIZE64
  | R_X86_64_GOTPC32_TLSDESC
  | R_X86_64_TLSDESC_CALL
  | R_X86_64_GOTPCRELX
  | R_X86_64_REX_GOTPCRELX
  | R_X86_64_CODE_4_GOTPCRELX
  | R_X86_64_CODE_4_GOTTPOFF
  | R_X86_64_CODE_4_GOTPC32_TLSDESC
  | R_X86_64_CODE_6_GOTTPOFF
  | R_X86_64_COPY
  | R_X86_64_GLOB_DAT
  | R_X86_64_JUMP_SLOT
  | R_X86_64_RELATIVE
  | R_X86_64_IRELATIVE
  | R_X86_64_TLSDESC
  | R_X86_64_DTPMOD64
  | R_X86_64_DTPOFF64
  | R_X86_64_TPOFF64
  | R_X86_64_ORMASK
  | R_X86_64_ANDMASK
  | R_X86_64_CALLBACK_TABLE
  | R_X86_64_CALLBACK_MAYBE
  | R_X86_64_DSO_BASE
  deriving DecidableEq, Repr

-- The expressions that x86-64 relocations have.
inductive RelExpr
  | R_NONE
  | R_ABS
  | R_ADDEND
  | R_DTPREL
  | R_GOTPLT
  | R_GOTPLTONLY_PC
  | R_GOTPLTREL
  | R_GOT_PC
  | R_PC
  | R_PLT
  | R_PLT_PC
  | R_PLT_GOTPLT
  | R_RELAX_GOT_PC
  | R_RELAX_GOT_PC_NOPIC
  | R_RELAX_TLS_GD_TO_IE
  | R_RELAX_TLS_GD_TO_LE
  | R_RELAX_TLS_IE_TO_LE
  | R_RELAX_TLS_LD_TO_LE
  | R_SIZE
  | R_TPREL
  | R_TLSDESC_CALL
  | R_TLSDESC_PC
  | R_TLSGD_PC
  | R_TLSLD_PC
  deriving DecidableEq, Repr

inductive RelocKind
  | AddendOnly
  | AddendOnlyWithTargetVA
  | AgainstSymbol
  deriving DecidableEq, Repr

structure DynamicReloc where
  type : RelType
  inputSec : Section
  offsetInSec : Word
  kind : RelocKind
  sym : Option SymId
  addend : Int := 0
  expr : RelExpr := .R_ABS
  deriving DecidableEq, Repr

-- A link-time constant of the GOT (`GotSection::addConstant`).
structure GotConstant where
  expr : RelExpr
  type : RelType
  offset : Word
  addend : Int
  sym : Option SymId
  deriving DecidableEq, Repr

inductive Target
  | X86_64
  | IntelIBT
  deriving DecidableEq, Repr

inductive LinkError
  | cannotCopy (sym : SymId)
  | undefined (sym : SymId) (isWarning : Bool)
  | unknownRelocation (type : RelType) (sym : SymId)
  | cannotReferToAbsolute (type : RelType) (sym : SymId)
  | cannotPreempt (sym : SymId)
  | noCopyreloc (type : RelType) (sym : SymId)
  | recompileWithFPIC (type : RelType) (sym : SymId)
  | cannotBeUsedWithShared (type : RelType) (sym : SymId)
  deriving DecidableEq, Repr

structure Config where
  target : Target
  shared : Bool
  isPic : Bool
  zIfuncNoplt : Bool
  androidPackDynRelocs : Bool
  relrDyn : Bool
  needsTlsLd : Bool
  -- The other symbols of the DSO at the address of a symbol (`getSymbolsAt`).
  aliases : SymId → List SymId
  callb_get : List (Name × List Int)
  va : Section → Word

structure Ctx where
  syms : SymId → Symbol
  symAux : List SymbolAux := [{}]
  plt : List SymId := []
  fakeplt : List SymId := []
  gotPlt : List SymId := []
  iplt : List SymId := []
  igotPlt : List SymId := []
  bothplts : BitVec 32 := 0#32
  relaPlt : List DynamicReloc := []
  relaDyn : List DynamicReloc := []
  relrDyn : List (Section × Word) := []
  gotEntries : Nat := 0
  gotConstants : List GotConstant := []
  tlsIndexOff : Option Word := none
  copies : List SymId := []
  ormask_offset : Word := 0#64
  andmask_offset : Word := 0#64
  errors : List LinkError := []

def gotEntrySize : BitVec 32 := 8#32
def gotPltHeaderEntriesNum : BitVec 32 := 3#32
def pltEntrySize : BitVec 32 := 32#32
def ipltEntrySize : BitVec 32 := 32#32

def Target.pltHeaderSize : Target → Nat
  | .X86_64 => 16
  | .IntelIBT => 0

namespace Ctx

def aux (c : Ctx) (s : SymId) : SymbolAux := c.symAux.getD (c.syms s).auxIdx {}

def getGotIdx (c : Ctx) (s : SymId) : BitVec 32 := (c.aux s).gotIdx
def getPltIdx (c : Ctx) (s : SymId) : BitVec 32 := (c.aux s).pltIdx
def getFakePltIdx (c : Ctx) (s : SymId) : BitVec 32 := (c.aux s).fakepltIdx
def getCorrectedPltIdx (c : Ctx) (s : SymId) : BitVec 32 := (c.aux s).non_fake_plt
def removeDuplicatePlts (c : Ctx) (s : SymId) : BitVec 32 := (c.aux s).both_plts

def getGotOffset (c : Ctx) (s : SymId) : Word := (c.getGotIdx s * gotEntrySize).setWidth 64

-- The products and sums are of 32-bit operands and are widened last.
def getGotPltOffset (c : Ctx) (s : SymId) : Word :=
  if (c.syms s).isInIplt then (c.getPltIdx s * gotEntrySize).setWidth 64
  else if (c.syms s).customrelocType = 1#32 then
    ((c.getFakePltIdx s - c.removeDuplicatePlts s + gotPltHeaderEntriesNum) *
      gotEntrySize).setWidth 64
  else
    ((c.getPltIdx s - c.removeDuplicatePlts s + gotPltHeaderEntriesNum) *
      gotEntrySize).setWidth 64

def getGotPltVA (cfg : Config) (c : Ctx) (s : SymId) : Word :=
  if (c.syms s).isInIplt then cfg.va .igotPlt + c.getGotPltOffset s
  else cfg.va .gotPlt + c.getGotPltOffset s

def getPltVA (cfg : Config) (c : Ctx) (s : SymId) : Word :=
  if (c.syms s).isInIplt then cfg.va .iplt + (c.getPltIdx s * ipltEntrySize).setWidth 64
  else
    cfg.va .plt + BitVec.ofNat 64 cfg.target.pltHeaderSize +
      (c.getCorrectedPltIdx s * pltEntrySize).setWidth 64

-- The header of `.fakeplt` is empty on every target.
def getFakePltVA (cfg : Config) (c : Ctx) (s : SymId) : Word :=
  if (c.syms s).isInIplt then cfg.va .iplt + (c.getFakePltIdx s * ipltEntrySize).setWidth 64
  else cfg.va .fakeplt + 0#64 + (c.getCorrectedPltIdx s * pltEntrySize).setWidth 64

-- The cases of `getRelocTargetVA` for calls through a PLT; `a` is the addend and `p` the
-- address of the relocated field.
def getRelocTargetVA (cfg : Config) (c : Ctx) (expr : RelExpr) (s : SymId) (a p : Word) :
    Option Word :=
  match expr with
  | .R_PLT =>
    some (if (c.syms s).isFake then c.getFakePltVA cfg s + a else c.getPltVA cfg s + a)
  | .R_PLT_PC =>
    some (if (c.syms s).isFake then c.getFakePltVA cfg s + a - p else c.getPltVA cfg s + a - p)
  | _ => none

end Ctx

end Platypus.Linker
