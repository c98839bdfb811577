import Platypus.Loader.ExecWindow

namespace Platypus.Loader

-- `GLRO(dl_pagesize)` on x86-64.
def dlPagesize : Word := 0x1000#64

def MAP_FAILED : Word := BitVec.allOnes 64

def PROT_NONE : Nat := 0
def PROT_WRITE : Nat := 2

def alignDown (base size : Word) : Word := base &&& -size

def alignUp (base size : Word) : Word := alignDown (base + size - 1#64) size

-- The requests the mapping code makes. `fixed` and `anonymous` are the two flags that
-- differ between its `mmap` calls; `MAP_COPY` is set in all of them.
inductive Call
  | mmap (addr len : Word) (prot : Nat) (fixed anonymous : Bool) (fd : Int) (off : Word)
  | munmap (addr len : Word)
  | mprotect (addr len : Word) (prot : Nat)
  deriving DecidableEq, Repr

abbrev Trace := List (Call × Word)

-- The kernel may answer a request in any way, also depending on what came before.
abbrev Kernel := Trace → Call → Word

-- The two static variables of the mapping code and the requests made so far.
structure Process where
  addr : Word
  to_load : Int
  trace : Trace
  deriving DecidableEq, Repr

inductive MapError
  | mapSegment
  | mprotect
  | mapZeroFill
  | notPageAligned
  deriving DecidableEq, Repr

-- A failed step keeps the static variables and the requests made up to then.
abbrev Sys := EStateM MapError Process

def request (os : Kernel) (call : Call) : Sys Word := fun p =>
  .ok (os p.trace call) { p with trace := p.trace ++ [(call, os p.trace call)] }

def outcome {α : Type} (x : Sys α) (p : Process) : Option (α × Process) :=
  match x p with
  | .ok a p' => some (a, p')
  | .error _ _ => none

theorem ok_of_outcome {α : Type} (x : Sys α) (p : Process) (h : (outcome x p).isSome) :
    x p = .ok ((outcome x p).get h).1 ((outcome x p).get h).2 := by
  cases hx : x p with
  | ok a p' => simp [outcome, hx]
  | error e p' => simp [outcome, hx] at h

structure LoadCmd where
  mapstart : Word
  mapend : Word
  dataend : Word
  allocend : Word
  mapalign : Word
  mapoff : Word
  prot : Nat
  deriving DecidableEq, Repr

-- The fields of `ElfW(Ehdr)` that the mapping code reads.
structure Ehdr where
  e_phoff : Word
  e_phnum : Word
  deriving DecidableEq, Repr

inductive ElfType
  | ET_EXEC
  | ET_DYN
  deriving DecidableEq, Repr

-- The fields of `struct link_map` that the mapping code fills in. A new object has zeros.
structure LinkMap where
  l_addr : Word := 0#64
  l_map_start : Word := 0#64
  l_map_end : Word := 0#64
  l_exec_start : Word := 0#64
  l_exec_end : Word := 0#64
  l_phdr : Word := 0#64
  l_contiguous : Bool := false
  deriving DecidableEq, Repr

-- The object handed to `_dl_map_segments`: `loadcmds[0]` is `c`, the others are `cs`.
structure Object where
  fd : Int
  header : Ehdr
  type : ElfType
  c : LoadCmd
  cs : List LoadCmd
  maplength : Word
  has_holes : Bool
  deriving DecidableEq, Repr

def Object.loadcmds (o : Object) : List LoadCmd := o.c :: o.cs

structure MitigStruct where
  size : BitVec 32
  mapstart : Word
  deriving DecidableEq, Repr

def findExecSize : List LoadCmd → MitigStruct
  | [] => ⟨0#32, 0#64⟩
  | c :: cs =>
    if 3 < c.prot then ⟨(c.mapend - c.mapstart).setWidth 32, c.mapstart⟩
    else findExecSize cs

def unmapRest (os : Kernel) (start delta : Word) : Sys Unit :=
  if delta ≠ 0#64 then do
    let _ ← request os (.munmap start delta)
    pure ()
  else pure ()

def dlMapSegment (os : Kernel) (c : LoadCmd) (mappref maplength : Word) (fd : Int) :
    Sys Word := do
  if c.mapalign ≤ dlPagesize then
    request os (.mmap mappref maplength c.prot false false fd c.mapoff)
  else
    let maplen := if c.mapalign ≤ maplength then maplength + c.mapalign else 2#64 * c.mapalign
    let map_start ← request os (.mmap mappref maplen PROT_NONE false true (-1) 0#64)
    if map_start = MAP_FAILED then
      pure map_start
    else
      let map_start_aligned ← request os
        (.mmap (alignUp map_start c.mapalign) maplength c.prot true false fd c.mapoff)
      if map_start_aligned = MAP_FAILED then
        let _ ← request os (.munmap map_start maplen)
        pure map_start_aligned
      else
        -- unmap the unused regions on both sides
        unmapRest os map_start (map_start_aligned - map_start)
        let map_end := alignUp (map_start_aligned + maplength) dlPagesize
        unmapRest os map_end (map_start + maplen - map_end)
        pure map_start_aligned

-- Both placement branches of `_dl_map_segments` do this. They differ in `base`: the first
-- object is placed below the address the kernel proposed, later ones below the cursor.
def placeBelow (os : Kernel) (o : Object) (l : LinkMap) (st : MitigStruct) (base : Word) :
    Sys LinkMap := do
  let hmm := findAddr (base - 0x10000000#64) (st.size.setWidth 64)
  let l_exec_end := st.size.setWidth 64 + hmm - 1#64
  let l_exec_start := commonPrefixLen hmm l_exec_end
  let addr := hmm - st.mapstart
  modify fun p => { p with addr := addr }
  let l_map_start ← dlMapSegment os o.c addr o.maplength o.fd
  if l_map_start ≠ addr then
    throw .mapSegment
  else
    modify fun p => { p with to_load := p.to_load + 1 }
    pure { l with
      l_exec_end := l_exec_end, l_exec_start := l_exec_start, l_map_start := l_map_start }

-- `ELF_PREFERRED_ADDRESS (loader, maplength, c->mapstart)` is `c->mapstart` on x86-64.
-- Without an executable segment neither branch assigns `l_map_start`.
def place (os : Kernel) (o : Object) (l : LinkMap) : Sys LinkMap := do
  let st := findExecSize o.loadcmds
  let p ← get
  if 1 < p.to_load then
    if 0#32 < st.size then placeBelow os o l st p.addr else pure l
  else
    let tmp ← dlMapSegment os o.c o.c.mapstart o.maplength o.fd
    if 0#32 < st.size then placeBelow os o l st tmp else pure l

def dlPostprocessLoadcmd (header : Ehdr) (c : LoadCmd) (l : LinkMap) : LinkMap :=
  if l.l_phdr = 0#64 ∧ c.mapoff ≤ header.e_phoff ∧
      header.e_phoff + header.e_phnum * 56#64 ≤ c.mapend - c.mapstart + c.mapoff then
    { l with l_phdr := c.mapstart + header.e_phoff - c.mapoff }
  else l

-- Make the last page of the file data writable, clear its end and close it again.
-- The result of the second `mprotect` is not looked at.
def clearPageEnd (os : Kernel) (c : LoadCmd) (zero zeropage : Word) : Sys Unit :=
  let page := zero &&& ~~~(dlPagesize - 1#64)
  if zero < zeropage ∧ c.prot &&& PROT_WRITE = 0 then do
    let ret ← request os (.mprotect page dlPagesize (c.prot ||| PROT_WRITE))
    if ret.toInt < 0 then
      throw .mprotect
    else
      let _ ← request os (.mprotect page dlPagesize c.prot)
      pure ()
  else pure ()

def mapZeroPages (os : Kernel) (c : LoadCmd) (zeropage zeroend : Word) : Sys Unit :=
  if zeropage < zeroend then do
    let mapat ← request os (.mmap zeropage (zeroend - zeropage) c.prot true true (-1) 0#64)
    if mapat = MAP_FAILED then throw .mapZeroFill else pure ()
  else pure ()

-- The zero pages past the file data of one segment.
def zeroFill (os : Kernel) (l_addr : Word) (c : LoadCmd) : Sys Unit :=
  if c.dataend < c.allocend then do
    let zero := l_addr + c.dataend
    let zeroend := l_addr + c.allocend
    let page_end := (zero + dlPagesize - 1#64) &&& ~~~(dlPagesize - 1#64)
    let zeropage := if zeroend < page_end then zeroend else page_end
    clearPageEnd os c zero zeropage
    mapZeroPages os c zeropage zeroend
  else pure ()

-- The first segment of an `ET_DYN` object is mapped already and the source jumps to
-- `postmap` for it: `mapped` says so.
def mapFixed (os : Kernel) (fd : Int) (l_addr : Word) (mapped : Bool) (c : LoadCmd) : Sys Unit :=
  if ¬ mapped ∧ c.mapstart < c.mapend then do
    let ret ← request os
      (.mmap (l_addr + c.mapstart) (c.mapend - c.mapstart) c.prot true false fd c.mapoff)
    if ret = MAP_FAILED then throw .mapSegment else pure ()
  else pure ()

def mapLoop (os : Kernel) (fd : Int) (header : Ehdr) :
    Bool → List LoadCmd → LinkMap → Sys LinkMap
  | _, [], l => pure l
  | mapped, c :: cs, l => do
    mapFixed os fd l.l_addr mapped c
    zeroFill os l.l_addr c
    mapLoop os fd header false cs (dlPostprocessLoadcmd header c l)

-- Take the access rights of the gaps away before the later segments are mapped over them.
def closeHoles (os : Kernel) (o : Object) (l : LinkMap) : Sys Unit := do
  if o.has_holes then
    let last := o.loadcmds.getLast (List.cons_ne_nil _ _)
    if last.mapstart < o.c.mapend then
      throw .notPageAligned
    else
      let ret ← request os
        (.mprotect (l.l_addr + o.c.mapend) (last.mapstart - o.c.mapend) PROT_NONE)
      if ret.toInt < 0 then throw .mprotect else pure ()
  else pure ()

def dlMapSegments (os : Kernel) (o : Object) (l : LinkMap) : Sys LinkMap :=
  match o.type with
  | .ET_DYN => do
    let l ← place os o l
    if l.l_map_start = MAP_FAILED then
      throw .mapSegment
    else
      let l := { l with
        l_map_end := l.l_map_start + o.maplength
        l_addr := l.l_map_start - o.c.mapstart }
      closeHoles os o l
      mapLoop os o.fd o.header true o.loadcmds { l with l_contiguous := true }
  | .ET_EXEC =>
    mapLoop os o.fd o.header false o.loadcmds { l with
      l_map_start := o.c.mapstart + l.l_addr
      l_map_end := o.c.mapstart + l.l_addr + o.maplength
      l_contiguous := !o.has_holes }

end Platypus.Loader
