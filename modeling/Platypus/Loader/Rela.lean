import Platypus.Linker.Symbols
import Platypus.Loader.MapSegments

namespace Platypus.Loader

open Linker (RelType)

-- A relocation of an object; `sym` is the name of its symbol, if it has one.
structure Rela where
  r_offset : Word
  r_type : RelType
  sym : Option (List Char)
  r_addend : Word

-- What the lookup of a symbol finds: the module that defines it and its address.
structure Found where
  sym_map : LinkMap
  value : Word
  isIfunc : Bool

-- The words of memory, and the slots for placeholders.
structure RelaState where
  mem : Word → Word
  placeholder_plts : List (Option Word)

-- Places of words that do not overlap.
def WordsApart (places : List Word) : Prop :=
  places.Pairwise fun a b => 8 ≤ (a - b).toNat ∧ 8 ≤ (b - a).toNat

instance (places : List Word) : Decidable (WordsApart places) :=
  inferInstanceAs (Decidable (places.Pairwise _))

theorem WordsApart.nodup {places : List Word} (h : WordsApart places) : places.Nodup := by
  refine h.imp ?_
  rintro a _ ⟨hle, -⟩ rfl
  simp at hle

def RelaState.write (st : RelaState) (a w : Word) : RelaState :=
  { st with mem := fun b => if b = a then w else st.mem b }

@[simp] theorem RelaState.mem_write_self (st : RelaState) (a w : Word) :
    (st.write a w).mem a = w := if_pos rfl

theorem RelaState.mem_write_of_ne (st : RelaState) {a b : Word} (w : Word) (h : b ≠ a) :
    (st.write a w).mem b = st.mem b := if_neg h

-- The first free slot takes the value.
def fillPlaceholder (w : Word) : List (Option Word) → List (Option Word)
  | [] => []
  | none :: ps => some w :: ps
  | some p :: ps => some p :: fillPlaceholder w ps

def isPlaceholder (r : Rela) : Bool :=
  match r.sym with
  | some name => "placeholder".toList.isPrefixOf name
  | none => false

-- What a program may let the loader call: the resolvers of ifuncs.
abbrev Resolver := Word → Word

def Found.address (call : Resolver) (skip_ifunc : Bool) (f : Found) : Word :=
  if f.isIfunc && !skip_ifunc then call f.value else f.value

-- `elf_machine_rela` for the types that relocate whole words: `none` for the others, and where
-- the loader would follow a null pointer.
def elfMachineRela (to_mitigate : Bool) (call : Resolver) (skip_ifunc : Bool) (map : LinkMap)
    (found : Option Found) (r : Rela) (st : RelaState) : Option RelaState :=
  let reloc_addr := map.l_addr + r.r_offset
  let value := (found.map (Found.address call skip_ifunc)).getD 0#64
  match r.r_type with
  | .R_X86_64_RELATIVE => some (st.write reloc_addr (map.l_addr + r.r_addend))
  | .R_X86_64_NONE => some st
  | .R_X86_64_JUMP_SLOT | .R_X86_64_GLOB_DAT =>
    let st :=
      if isPlaceholder r then
        { st with
          placeholder_plts :=
            fillPlaceholder (map.l_addr + st.mem reloc_addr) st.placeholder_plts }
      else st
    some (st.write reloc_addr value)
  | .R_X86_64_CALLBACK_TABLE | .R_X86_64_CALLBACK_MAYBE =>
    found.map fun f => st.write reloc_addr (r.r_addend + f.sym_map.l_addr)
  | .R_X86_64_ORMASK =>
    some (st.write reloc_addr (if to_mitigate then map.l_exec_start else 0#64))
  | .R_X86_64_ANDMASK =>
    some (st.write reloc_addr (if to_mitigate then map.l_exec_end else BitVec.allOnes 64))
  | .R_X86_64_64 | .R_X86_64_DSO_BASE => some (st.write reloc_addr (value + r.r_addend))
  | .R_X86_64_IRELATIVE =>
    let value := map.l_addr + r.r_addend
    some (st.write reloc_addr (if skip_ifunc then value else call value))
  | _ => none

end Platypus.Loader
