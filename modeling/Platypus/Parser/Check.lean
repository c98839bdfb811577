import Platypus.Parser.Exported
import Platypus.State.Trace

namespace Platypus.Parser

instance optionNameLawfulBEq : LawfulBEq (Option Name) := inferInstance

abbrev Path := Name
abbrev Tag := Name

-- An entry of a table: an owner and an address, joined by an underscore.
structure Entry where
  text : Name
  marked : '_' ∈ text
  deriving DecidableEq, Repr

def entry (owner : Name) (a : Address) : Entry := ⟨owner ++ '_' :: a.text, by simp⟩

-- `for_header_file`
abbrev Tables := Dict Tag (List Entry)

structure CallInfo where
  callees : List Name
  indices : List Name

-- What `check` reads: the results of the log parsers, and the name of the analysed module.
structure Inputs where
  name : Name
  lib_json : Dict Path Tag
  lib_dict : Dict Path (Dict Name Address)
  call_dict : Dict Name CallInfo
  bin : Binary
  plt_addrs : Dict Name Address
  CPTR_REDIRECTION_TO_EXTERNAL : List (Name × Path)
  -- Function names, then the mark 1 (`none`) and a library.
  STRUCTS_USED_BY_CBGs : Dict Name (List (Option Name))
  struct_callbacks : Dict Tag (List Name)
  global_syms : Dict Tag (List Name)
  struct_metadata : Dict Name (List Name)
  locals_from_structs : Dict Name (List (Name × List Name))

-- The statements of the loops that touch the tables.
inductive Event
  | callee (library : Path) (callee : Name)
  | redirect (lib : Option Path) (func : Name)
  | structCallback (dso : Tag) (function : Name)
  | globalTable (dso : Tag)
  | globalSym (dso : Tag) (function : Name)
  | mayStruct (lib : Path) (function : Name)
  deriving DecidableEq, Repr

namespace Tables

def append (t : Tables) (tag : Tag) (e : Entry) : Option Tables :=
  (t.get? tag).map fun es => t.set tag (es ++ [e])

def appendNew (t : Tables) (tag : Tag) (e : Entry) : Option Tables :=
  (t.get? tag).map fun es => if e ∈ es then t else t.set tag (es ++ [e])

def addOrCreate (t : Tables) (tag : Tag) (e : Entry) : Tables :=
  match t.get? tag with
  | none => t.set tag [e]
  | some es => if e ∈ es then t else t.set tag (es ++ [e])

-- The guard looks for a text that is not an entry.
def addUnlessText (t : Tables) (tag : Tag) (guard : Name) (e : Entry) : Tables :=
  match t.get? tag with
  | none => t.set tag [e]
  | some es => if guard ∈ es.map Entry.text then t else t.set tag (es ++ [e])

end Tables

namespace Inputs

variable (inp : Inputs)

-- The first library that exports a symbol.
def firstLib (sym : Name) : Option (Path × Dict Name Address) :=
  inp.lib_dict.entries.find? fun e => sym ∈ e.2.keys

def tag (lib : Path) : Option Tag := inp.lib_json.get? lib

-- The callee is exported by `lib`. If the table of `library` is missing, the new one is stored
-- under the tag of `lib`.
def addExported (t : Tables) (library lib : Path) (callee : Name) : Option Tables := do
  let a ← inp.plt_addrs.get? callee
  let tagLibrary ← inp.tag library
  if tagLibrary ∈ t.keys then t.appendNew tagLibrary (entry inp.name a)
  else
    let tagLib ← inp.tag lib
    return t.set tagLib [entry inp.name a]

def addDuplicates (t : Tables) (tag : Tag) (callee : Name) : Option Tables :=
  State.trace (fun t a => t.append tag (entry inp.name a)) t
    ((inp.bin.duplicate_locals.get? callee).getD [])

-- The symbols that LTO makes of a duplicate one: `callee.` and a number.
def suffixed (callee : Name) : List (Name × Address) :=
  inp.bin.symbols.entries.filter fun e => (callee ++ ['.']).isPrefixOf e.1

def addSuffixed (t : Tables) (tag : Tag) (callee : Name) : Option Tables :=
  State.trace (fun t e => t.appendNew tag (entry inp.name e.2)) t (inp.suffixed callee)

def addLocal (t : Tables) (library : Path) (callee : Name) (a : Address) : Option Tables := do
  let tag ← inp.tag library
  let t := t.addUnlessText tag a.text (entry inp.name a)
  let t ← inp.addDuplicates t tag callee
  inp.addSuffixed t tag callee

def addCallee (t : Tables) (library : Path) (callee : Name) : Option Tables :=
  match inp.firstLib callee with
  | some (lib, _) => inp.addExported t library lib callee
  | none =>
    match inp.bin.symbols.get? callee with
    | some a => inp.addLocal t library callee a
    | none => some t

def addRedirected (t : Tables) (lib : Option Path) (func : Name) : Option Tables :=
  match inp.bin.symbols.get? func with
  | none => some t
  | some a => do
    let tag ← inp.tag (← lib)
    return t.addOrCreate tag (entry inp.name a)

def bothPlts (function : Name) : List Entry :=
  match inp.plt_addrs.get? ("BothPLTs_".toList ++ function) with
  | some a => [entry inp.name a]
  | none => []

def addPltCallback (t : Tables) (dso : Tag) (function : Name) (a : Address) : Tables :=
  let e := entry inp.name a
  match t.get? dso with
  | some es => if e ∈ es then t else t.set dso (es ++ e :: inp.bothPlts function)
  | none => t.set dso (e :: inp.bothPlts function)

def addLibCallback (t : Tables) (dso : Tag) (function : Name) : Tables :=
  match inp.firstLib function with
  | some (_, symbols) =>
    match symbols.get? function with
    | some a => t.addOrCreate dso (entry dso a)
    | none => t
  | none => t

def addBinCallback (t : Tables) (dso : Tag) (function : Name) : Tables :=
  match inp.bin.symbols.get? function with
  | some a => t.addUnlessText dso (inp.name ++ a.text) (entry inp.name a)
  | none => t

def addStructCallback (t : Tables) (dso : Tag) (function : Name) : Tables :=
  match inp.plt_addrs.get? function with
  | some a => inp.addPltCallback t dso function a
  | none => inp.addBinCallback (inp.addLibCallback t dso function) dso function

def addGlobalTable (t : Tables) (dso : Tag) : Tables :=
  if dso ∈ t.keys then t else t.set dso []

def addGlobalSym (t : Tables) (dso : Tag) (function : Name) : Option Tables :=
  match inp.plt_addrs.get? function with
  | none => some t
  | some a => t.appendNew dso (entry inp.name a)

-- `none` also when the parser gives up ("THIS IS NOT YET SUPPORTED").
def addMayStruct (t : Tables) (lib : Path) (function : Name) : Option Tables :=
  let unsupported : Option Tables := if function ∈ inp.call_dict.keys then none else some t
  match inp.bin.symbols.get? function with
  | none => unsupported
  | some a => do
    let tag ← inp.tag lib
    let es ← t.get? tag
    if entry inp.name a ∈ es then unsupported else t.append tag (entry inp.name a)

-- `none` is a `KeyError` or an exit.
def step (t : Tables) : Event → Option Tables
  | .callee library callee => inp.addCallee t library callee
  | .redirect lib func => inp.addRedirected t lib func
  | .structCallback dso function => some (inp.addStructCallback t dso function)
  | .globalTable dso => some (addGlobalTable t dso)
  | .globalSym dso function => inp.addGlobalSym t dso function
  | .mayStruct lib function => inp.addMayStruct t lib function

def calleeEvents (item : Name) (info : CallInfo) : List Event :=
  match inp.firstLib item with
  | some (library, _) => info.callees.map (.callee library)
  | none => []

def redirectEvents (item : Name) (info : CallInfo) : List Event :=
  match inp.CPTR_REDIRECTION_TO_EXTERNAL.find? fun tup => item = tup.1 ∨ item = tup.2 with
  | some tup => info.callees.map (.redirect (some tup.2))
  | none => []

def structEvents (item : Name) (info : CallInfo) : List Event :=
  match inp.STRUCTS_USED_BY_CBGs.entries.find? fun e => some item ∈ e.2 with
  | some (_, func_list) => info.callees.map (.redirect func_list.getLast?.join)
  | none => []

def itemEvents (item : Name) (info : CallInfo) : List Event :=
  inp.calleeEvents item info ++ inp.redirectEvents item info ++ inp.structEvents item info

def structCallbackEvents : List Event :=
  inp.struct_callbacks.entries.flatMap fun (dso, functions) =>
    functions.map (.structCallback dso)

def globalEvents : List Event :=
  inp.global_syms.entries.flatMap fun (dso, functions) =>
    .globalTable dso :: functions.map (.globalSym dso)

def mayStructEventsOf (fn_name : Name) (indices functions : List Name) : List Event :=
  match inp.call_dict.get? fn_name with
  | none => []
  | some info =>
    if ∃ i ∈ indices, i ∈ info.indices then
      (inp.lib_dict.entries.filter fun e => fn_name ∈ e.2.keys).flatMap fun e =>
        functions.map (.mayStruct e.1)
    else []

def mayStructEvents : List Event :=
  inp.struct_metadata.entries.flatMap fun (struct_name, functions) =>
    match inp.locals_from_structs.get? struct_name with
    | none => []
    | some tuples => tuples.flatMap fun (fn_name, indices) =>
      inp.mayStructEventsOf fn_name indices functions

def events : List Event :=
  (inp.call_dict.entries.flatMap fun (item, info) => inp.itemEvents item info) ++
    inp.structCallbackEvents ++ inp.globalEvents ++ inp.mayStructEvents

def check : Option Tables := State.trace inp.step .empty inp.events

end Inputs

end Platypus.Parser
