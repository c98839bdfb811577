import Platypus.Linker.PostScan

namespace Platypus.Linker

-- A relocation as it is written to the file; `none` is symbol index 0.
structure RawReloc where
  r_offset : Word
  type : RelType
  r_sym : Option SymId
  addend : Int
  deriving DecidableEq, Repr

def Ctx.getVA (cfg : Config) (c : Ctx) (s : SymId) (addend : Int) : Word :=
  let sym := c.syms s
  match sym.kind, sym.section_ with
  | .Defined, some sec => cfg.va sec + sym.value + BitVec.ofInt 64 addend
  | .Defined, none => sym.value + BitVec.ofInt 64 addend
  | _, _ => BitVec.ofInt 64 addend

def computeAddend (cfg : Config) (c : Ctx) (r : DynamicReloc) : Int :=
  match r.kind, r.sym with
  | .AddendOnlyWithTargetVA, some s => (c.getVA cfg s r.addend).toInt
  | _, _ => r.addend

def getSymIndex (c : Ctx) (r : DynamicReloc) : Option SymId :=
  match r.kind, r.sym with
  | .AgainstSymbol, some s =>
    if (c.syms s).startsWith "or_mask" || (c.syms s).startsWith "and_mask" then none else some s
  | _, _ => none

-- The entry of `.fakeplt` is found by its name.
def findFakePlt (c : Ctx) (name : Name) : Option Nat :=
  c.fakeplt.findIdx? fun s => (c.syms s).name = name

-- `computeRaw` for the relocations of `.rela.dyn`; `none` when the linker exits.
def computeRaw (cfg : Config) (c : Ctx) (r : DynamicReloc) : Option RawReloc :=
  let raw (r_sym : Option SymId) (addend : Int) : RawReloc :=
    ⟨cfg.va r.inputSec + r.offsetInSec, r.type, r_sym, addend⟩
  match r.sym with
  | none => some (raw (getSymIndex c r) (computeAddend cfg c r))
  | some s =>
    let sym := c.syms s
    if sym.isFake then
      (findFakePlt c sym.name).map fun i =>
        raw none (cfg.va .fakeplt + BitVec.ofNat 64 (i * 32)).toInt
    else if sym.customrelocType = 2#32 then some (raw (getSymIndex c r) 0)
    else if sym.customrelocType = 4#32 then
      some (raw (getSymIndex c r) ((sym.iscustomreloc &&& 0xffffff00#32) >>> 8).toNat)
    else if sym.customrelocType = 6#32 then some (raw none 0)
    else if sym.startsWith "_DYNAMIC" then some (raw (getSymIndex c r) 0)
    else if sym.customrelocType = 10#32 then some (raw (getSymIndex c r) 0)
    else some (raw (getSymIndex c r) (computeAddend cfg c r))

-- The word that `scanOne` packs: a type byte below an offset of 24 bits.

theorem and_0xff_packed (n : Nat) : BitVec.ofNat 32 (n * 256 + 4) &&& 0xff#32 = 4#32 := by
  apply BitVec.eq_of_toNat_eq
  rw [BitVec.toNat_and, BitVec.toNat_ofNat, show (0xff#32).toNat = 2 ^ 8 - 1 from rfl,
    Nat.and_two_pow_sub_one_eq_mod]
  change _ = 4
  omega

theorem offset_packed (n : Nat) :
    ((BitVec.ofNat 32 (n * 256 + 4) &&& 0xffffff00#32) >>> 8).toNat = n % 2 ^ 24 := by
  rw [BitVec.ushiftRight_and_distrib, BitVec.toNat_and, BitVec.toNat_ushiftRight,
    BitVec.toNat_ofNat, Nat.shiftRight_eq_div_pow,
    show (0xffffff00#32 >>> 8).toNat = 2 ^ 24 - 1 from rfl, Nat.and_two_pow_sub_one_eq_mod]
  omega

end Platypus.Linker
