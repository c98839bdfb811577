import Platypus.Linker.Symbols

namespace Platypus.Linker

namespace Ctx

def update (c : Ctx) (s : SymId) (f : Symbol → Symbol) : Ctx :=
  { c with syms := fun t => if t = s then f (c.syms t) else c.syms t }

-- `ctx.symAux.back()`
def updateAux (c : Ctx) (f : SymbolAux → SymbolAux) : Ctx :=
  { c with symAux := c.symAux.modify (c.symAux.length - 1) f }

def allocateAux (c : Ctx) (s : SymId) : Ctx :=
  { c.update s fun sym => { sym with auxIdx := c.symAux.length } with
    symAux := c.symAux ++ [{}] }

def addRelaDyn (c : Ctx) (r : DynamicReloc) : Ctx := { c with relaDyn := c.relaDyn ++ [r] }

def addConstant (c : Ctx) (k : GotConstant) : Ctx :=
  { c with gotConstants := c.gotConstants ++ [k] }

end Ctx

-- `GotSection`

def GotSection.addEntry (c : Ctx) : Ctx :=
  { c.updateAux fun a => { a with gotIdx := BitVec.ofNat 32 c.gotEntries } with
    gotEntries := c.gotEntries + 1 }

def GotSection.addTlsDescEntry (c : Ctx) : Ctx :=
  { c.updateAux fun a => { a with tlsDescIdx := BitVec.ofNat 32 c.gotEntries } with
    gotEntries := c.gotEntries + 2 }

def GotSection.addDynTlsEntry (c : Ctx) : Ctx :=
  { c.updateAux fun a => { a with tlsGdIdx := BitVec.ofNat 32 c.gotEntries } with
    gotEntries := c.gotEntries + 2 }

-- `.plt`, `.fakeplt`, `.got.plt` and their counterparts for ifuncs

def SymbolAux.setPltIdx (idx : Nat) (a : SymbolAux) : SymbolAux :=
  { a with pltIdx := BitVec.ofNat 32 idx }

def SymbolAux.setFakePltIdx (idx : Nat) (a : SymbolAux) : SymbolAux :=
  { a with fakepltIdx := BitVec.ofNat 32 idx }

def SymbolAux.setCorrected (entries : Nat) (both : BitVec 32) (a : SymbolAux) : SymbolAux :=
  { a with non_fake_plt := BitVec.ofNat 32 entries, both_plts := both }

-- A symbol with a fake entry has its slot already: it only counts as a duplicate.
def PltSection.noteDuplicate (c : Ctx) (s : SymId) : Ctx :=
  if (c.syms s).isFake then { c with bothplts := c.bothplts + 1#32 }
  else c.updateAux (.setCorrected c.plt.length c.bothplts)

def PltSection.addEntry (c : Ctx) (s : SymId) : Ctx :=
  let c₁ := PltSection.noteDuplicate c s
  { c₁.updateAux (.setPltIdx (c.plt.length + c.fakeplt.length)) with plt := c.plt ++ [s] }

def FakePltSection.addEntry (c : Ctx) (s : SymId) : Ctx :=
  let c₁ := c.updateAux (.setCorrected c.fakeplt.length c.bothplts)
  { c₁.updateAux (.setFakePltIdx (c.fakeplt.length + c.plt.length)) with
    fakeplt := c.fakeplt ++ [s] }

def GotPltSection.addEntry (c : Ctx) (s : SymId) : Ctx := { c with gotPlt := c.gotPlt ++ [s] }

def IpltSection.addEntry (c : Ctx) (s : SymId) : Ctx :=
  { c.updateAux (.setPltIdx c.iplt.length) with iplt := c.iplt ++ [s] }

def IgotPltSection.addEntry (c : Ctx) (s : SymId) : Ctx := { c with igotPlt := c.igotPlt ++ [s] }

-- The relocation of a `.got.plt` or `.igot.plt` slot.
def slotReloc (c : Ctx) (type : RelType) (sec : Section) (s : SymId) : DynamicReloc where
  type := type
  inputSec := sec
  offsetInSec := c.getGotPltOffset s
  kind := if (c.syms s).isPreemptible then .AgainstSymbol else .AddendOnlyWithTargetVA
  sym := some s

def addRelaPlt (c : Ctx) (r : DynamicReloc) : Ctx := { c with relaPlt := c.relaPlt ++ [r] }

def addPltEntry (c : Ctx) (s : SymId) : Ctx :=
  let c := PltSection.addEntry c s
  if (c.syms s).isFake then c
  else
    let c := GotPltSection.addEntry c s
    addRelaPlt c (slotReloc c .R_X86_64_JUMP_SLOT .gotPlt s)

def addFakePltEntry (c : Ctx) (s : SymId) : Ctx :=
  let c := FakePltSection.addEntry c s
  let c := GotPltSection.addEntry c s
  addRelaPlt c (slotReloc c .R_X86_64_JUMP_SLOT .gotPlt s)

-- `addPltEntry` at `.iplt`, with `getIRelativeSection` for the relocation.
def addIpltEntry (cfg : Config) (c : Ctx) (s : SymId) : Ctx :=
  let c := IpltSection.addEntry c s
  if (c.syms s).isFake then c
  else
    let c := IgotPltSection.addEntry c s
    let r := slotReloc c .R_X86_64_IRELATIVE .igotPlt s
    if cfg.androidPackDynRelocs then addRelaPlt c r else c.addRelaDyn r

-- A GOT word that holds a link-time address: relative to the load address unless it is fixed.
def addRelativeReloc (cfg : Config) (c : Ctx) (off : Word) (s : SymId) : Ctx :=
  if cfg.relrDyn then
    let c := c.addConstant ⟨.R_ABS, .R_X86_64_64, off, 0, some s⟩
    { c with relrDyn := c.relrDyn ++ [(.got, off)] }
  else c.addRelaDyn ⟨.R_X86_64_RELATIVE, .got, off, .AddendOnlyWithTargetVA, some s, 0, .R_ABS⟩

def gotReloc (type : RelType) (off : Word) (s : SymId) : DynamicReloc :=
  ⟨type, .got, off, .AgainstSymbol, some s, 0, .R_ABS⟩

-- The first mask word of each kind is the one that the masking stubs read.
def noteOrMask (c : Ctx) (off : Word) : Ctx :=
  if c.ormask_offset = 0#64 then { c with ormask_offset := off } else c

def noteAndMask (c : Ctx) (off : Word) : Ctx :=
  if c.andmask_offset = 0#64 then { c with andmask_offset := off } else c

-- The relocations that `addGotEntry` adds for custom types above 1.
def customGotReloc (c : Ctx) (s : SymId) (off : Word) : Option Ctx :=
  let sym := c.syms s
  if sym.startsWith "or_mask" then
    some ((noteOrMask c off).addRelaDyn (gotReloc .R_X86_64_ORMASK off s))
  else if sym.startsWith "and_mask" then
    some ((noteAndMask c off).addRelaDyn (gotReloc .R_X86_64_ANDMASK off s))
  else if sym.startsWith "callback_table" || sym.startsWith "placeholder" ||
      sym.startsWith "dsym_" then
    some (c.addRelaDyn (gotReloc .R_X86_64_RELATIVE off s))
  else if sym.customrelocType = 4#32 then
    some (c.addRelaDyn (gotReloc .R_X86_64_CALLBACK_MAYBE off s))
  else if sym.customrelocType = 6#32 then
    some (c.addRelaDyn (gotReloc .R_X86_64_DSO_BASE off s))
  else none

def plainGotReloc (cfg : Config) (c : Ctx) (s : SymId) (off : Word) : Ctx :=
  let sym := c.syms s
  if sym.isPreemptible then
    if sym.isFake then c.addRelaDyn (gotReloc .R_X86_64_RELATIVE off s)
    else c.addRelaDyn (gotReloc .R_X86_64_GLOB_DAT off s)
  else if !cfg.isPic || sym.isAbsolute then
    c.addConstant ⟨.R_ABS, .R_X86_64_64, off, 0, some s⟩
  else if sym.startsWith "or_mask" then c.addRelaDyn (gotReloc .R_X86_64_ORMASK off s)
  else if sym.startsWith "and_mask" then c.addRelaDyn (gotReloc .R_X86_64_ANDMASK off s)
  else addRelativeReloc cfg c off s

def addGotEntry (cfg : Config) (c : Ctx) (s : SymId) : Ctx :=
  let c := GotSection.addEntry c
  let off := c.getGotOffset s
  if 1#32 < (c.syms s).customrelocType then
    match customGotReloc c s off with
    | some c => c
    | none => plainGotReloc cfg c s off
  else plainGotReloc cfg c s off

def SymId.copy : SymId → SymId
  | .sym n => .direct n
  | .direct n => .direct n

theorem SymId.copy_ne (n : Nat) : (SymId.sym n).copy ≠ .sym n := by
  intro h
  cases h

-- All references to an ifunc with a direct relocation go to its `.iplt` entry.
def redirectToIplt (c : Ctx) (s : SymId) : Ctx :=
  c.update s fun sym => {
    sym with
    kind := .Defined
    section_ := some .iplt
    value := (c.getPltIdx s * ipltEntrySize).setWidth 64
    size := 0#64
    type := .STT_FUNC }

def addIfuncGot (cfg : Config) (flags : Flags) (c : Ctx) (s : SymId) : Ctx :=
  if flags.HAS_DIRECT_RELOC then
    let c := redirectToIplt c s
    if flags.NEEDS_GOT then addGotEntry cfg c s else c
  else if flags.NEEDS_GOT then c.update s fun sym => { sym with gotInIgot := true }
  else c

def addIfunc (cfg : Config) (c : Ctx) (s : SymId) : Ctx :=
  let flags := (c.syms s).flags
  let c := c.update s fun sym => { sym with isInIplt := true }
  let directSym := s.copy
  let c := c.update directSym fun _ => c.syms s
  let c := addIpltEntry cfg (c.allocateAux directSym) directSym
  let pltIdx := c.getPltIdx directSym
  let c := (c.allocateAux s).updateAux fun a => { a with pltIdx := pltIdx }
  addIfuncGot cfg flags c s

-- `none` when the symbol is to be handled like any other.
def handleNonPreemptibleIfunc (cfg : Config) (c : Ctx) (s : SymId) : Option Ctx :=
  let sym := c.syms s
  if !sym.isGnuIFunc || sym.isPreemptible || cfg.zIfuncNoplt then none
  else if !(sym.flags.NEEDS_GOT || sym.flags.NEEDS_PLT || sym.flags.HAS_DIRECT_RELOC) then some c
  else some (addIfunc cfg c s)

def replaceWithDefined (c : Ctx) (s : SymId) (sec : Section) (value size : Word) : Ctx :=
  c.update s fun sym => {
    sym with
    kind := .Defined
    section_ := some sec
    value := value
    size := size
    flags := { NEEDS_GOT := sym.flags.NEEDS_GOT } }

-- Every alias of the copied symbol moves to the copy with it.
def replaceAliases (n : Nat) (c : Ctx) (ss : List SymId) : Ctx :=
  ss.foldl (fun c t => replaceWithDefined c t (.bss n) 0#64 (c.syms t).size) c

def checkCopySize (c : Ctx) (s : SymId) : Ctx :=
  if (c.syms s).size = 0#64 ∨ (c.syms s).alignment = 0 then
    { c with errors := c.errors ++ [.cannotCopy s] }
  else c

def addCopyRelSymbol (cfg : Config) (c : Ctx) (s : SymId) : Ctx :=
  let c := checkCopySize c s
  let n := c.copies.length
  let c := replaceAliases n c ((cfg.aliases s).filter (fun t => (c.syms t).kind = .Shared) ++ [s])
  let c := { c with copies := c.copies ++ [s] }
  c.addRelaDyn ⟨.R_X86_64_COPY, .bss n, 0#64, .AgainstSymbol, some s, 0, .R_ADDEND⟩

-- A copy relocation for data; for a function the PLT entry becomes its address.
def addCopy (cfg : Config) (c : Ctx) (s : SymId) : Ctx :=
  let sym := c.syms s
  if sym.isObject then addCopyRelSymbol cfg c s
  else if sym.isDefined then c
  else
    let value := BitVec.ofNat 32 cfg.target.pltHeaderSize + pltEntrySize * c.getPltIdx s
    let c := replaceWithDefined c s .plt (value.setWidth 64) 0#64
    c.update s fun sym => { sym with flags := { sym.flags with NEEDS_COPY := true } }

def tlsReloc (type : RelType) (off : Word) (s : SymId) : DynamicReloc :=
  ⟨type, .got, off, .AgainstSymbol, some s, 0, .R_ADDEND⟩

-- `addAddendOnlyRelocIfNonPreemptible`
def addTlsReloc (c : Ctx) (type : RelType) (off : Word) (s : SymId) : Ctx :=
  if (c.syms s).isPreemptible then c.addRelaDyn (gotReloc type off s)
  else c.addRelaDyn ⟨type, .got, off, .AddendOnlyWithTargetVA, some s, 0, .R_ABS⟩

def addTlsDesc (c : Ctx) (s : SymId) : Ctx :=
  let c := GotSection.addTlsDescEntry c
  addTlsReloc c .R_X86_64_TLSDESC (((c.aux s).tlsDescIdx * gotEntrySize).setWidth 64) s

def addTlsGdModule (cfg : Config) (c : Ctx) (off : Word) (s : SymId) : Ctx :=
  if !(c.syms s).isPreemptible && !cfg.shared then
    c.addConstant ⟨.R_ADDEND, .R_X86_64_64, off, 1, some s⟩
  else c.addRelaDyn (tlsReloc .R_X86_64_DTPMOD64 off s)

def addTlsGdOffset (c : Ctx) (offsetOff : Word) (s : SymId) : Ctx :=
  if (c.syms s).isPreemptible then c.addRelaDyn (tlsReloc .R_X86_64_DTPOFF64 offsetOff s)
  else c.addConstant ⟨.R_ABS, .R_X86_64_DTPOFF64, offsetOff, 0, some s⟩

def addTlsGd (cfg : Config) (c : Ctx) (s : SymId) : Ctx :=
  let c := GotSection.addDynTlsEntry c
  let off := ((c.aux s).tlsGdIdx * gotEntrySize).setWidth 64
  addTlsGdOffset (addTlsGdModule cfg c off s) (off + 8#64) s

def addTlsGdToIe (c : Ctx) (s : SymId) : Ctx :=
  let c := GotSection.addEntry c
  c.addRelaDyn (tlsReloc .R_X86_64_TPOFF64 (c.getGotOffset s) s)

def addGotDtprel (c : Ctx) (s : SymId) : Ctx :=
  let c := GotSection.addEntry c
  c.addConstant ⟨.R_ABS, .R_X86_64_DTPOFF64, c.getGotOffset s, 0, some s⟩

def addTpOffsetGotEntry (cfg : Config) (c : Ctx) (s : SymId) : Ctx :=
  let c := GotSection.addEntry c
  let off := c.getGotOffset s
  if !(c.syms s).isPreemptible && !cfg.shared then
    c.addConstant ⟨.R_TPREL, .R_X86_64_64, off, 0, some s⟩
  else addTlsReloc c .R_X86_64_TPOFF64 off s

def addTls (cfg : Config) (flags : Flags) (c : Ctx) (s : SymId) : Ctx :=
  let c := if flags.NEEDS_TLSDESC then addTlsDesc c s else c
  let c := if flags.NEEDS_TLSGD then addTlsGd cfg c s else c
  let c := if flags.NEEDS_TLSGD_TO_IE then addTlsGdToIe c s else c
  let c := if flags.NEEDS_GOT_DTPREL then addGotDtprel c s else c
  if flags.NEEDS_TLSIE && !flags.NEEDS_TLSGD_TO_IE then addTpOffsetGotEntry cfg c s else c

-- A symbol of custom type 1 that nobody calls: it gets a fake PLT entry only (`tmp`).
def isFakeOnly (sym : Symbol) : Bool := sym.customrelocType = 1#32 && !sym.flags.NEEDS_PLT

def setNeedsPlt (c : Ctx) (s : SymId) : Ctx :=
  if isFakeOnly (c.syms s) then
    c.update s fun sym => { sym with flags := { sym.flags with NEEDS_PLT := true } }
  else c

-- The entries in `.fakeplt` and `.plt`.
def addPltEntries (tmp : Bool) (flags : Flags) (c : Ctx) (s : SymId) : Ctx :=
  let c := if (c.syms s).isFake then addFakePltEntry c s else c
  if flags.NEEDS_PLT && !tmp && !(c.syms s).startsWith "placeholder" then addPltEntry c s else c

def addEntries (cfg : Config) (tmp : Bool) (flags : Flags) (c : Ctx) (s : SymId) : Ctx :=
  let c := c.allocateAux s
  let c := if flags.NEEDS_GOT then addGotEntry cfg c s else c
  let c := addPltEntries tmp flags c s
  let c := if flags.NEEDS_COPY then addCopy cfg c s else c
  if (c.syms s).isTls then addTls cfg flags c s else c

-- The body of the loop of `postScanRelocations`.
def postScanSymbol (cfg : Config) (c : Ctx) (s : SymId) : Ctx :=
  match handleNonPreemptibleIfunc cfg c s with
  | some c => c
  | none =>
    let tmp := isFakeOnly (c.syms s)
    let c := setNeedsPlt c s
    let sym := c.syms s
    if !sym.needsDynReloc && sym.customrelocType < 2#32 then c
    else addEntries cfg tmp sym.flags c s

def addTlsLd (cfg : Config) (c : Ctx) : Ctx :=
  if cfg.needsTlsLd && c.tlsIndexOff = none then
    let off := BitVec.ofNat 64 (c.gotEntries * 8)
    let c := { c with tlsIndexOff := some off, gotEntries := c.gotEntries + 2 }
    if cfg.shared then
      c.addRelaDyn ⟨.R_X86_64_DTPMOD64, .got, off, .AddendOnly, none, 0, .R_ADDEND⟩
    else c.addConstant ⟨.R_ADDEND, .R_X86_64_64, off, 1, none⟩
  else c

-- The symbols of the symbol table and then the local symbols of every file, in order.
def postScanRelocations (cfg : Config) (c : Ctx) (syms : List Nat) : Ctx :=
  (syms.map .sym).foldl (postScanSymbol cfg) (addTlsLd cfg c)

-- `computeRels` for `.rela.plt`, which is not sorted: the IRELATIVE relocations go last.
def computeRels (relocs : List DynamicReloc) : List DynamicReloc :=
  relocs.filter (fun r => r.type ≠ .R_X86_64_IRELATIVE) ++
    relocs.filter (fun r => r.type = .R_X86_64_IRELATIVE)

end Platypus.Linker
