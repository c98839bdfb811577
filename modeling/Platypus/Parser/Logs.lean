import Platypus.Parser.Check
import Platypus.Text.Fields

namespace Platypus.Parser

open Text

-- A list of `STRUCTS_USED_BY_CBGs`: function names, then the mark 1 (`none`) and a library for
-- each call that takes the struct there.
abbrev Uses := List (Option Name)

structure SymLog where
  CPTR_REDIRECTION_TO_EXTERNAL : List (Name × Path)
  STRUCTS_USED_BY_CBGs : Dict Name Uses

def addUse (d : Dict Name Uses) (struct function : Name) : Dict Name Uses :=
  match d.get? struct with
  | none => d.set struct [some function]
  | some uses => if some function ∈ uses then d else d.set struct (uses ++ [some function])

-- A function never is one of the pairs, so that the second test of the source never fails.
def parseSymLine (lib_dict : Dict Path (Dict Name Address)) (x : SymLog) (line : Name) : SymLog :=
  if "Function".toList.isPrefixOf line then
    let parts := fields ':' (strip line)
    if 3 ≤ parts.length then
      let func_name := parts.getD 1 []
      let last_token := parts.getLastD []
      { x with
        CPTR_REDIRECTION_TO_EXTERNAL := x.CPTR_REDIRECTION_TO_EXTERNAL ++
          (lib_dict.entries.filter fun e => last_token ∈ e.2.keys).map fun e => (func_name, e.1) }
    else x
  else if ':' ∈ line then
    let parts := (strip line).splitOn ':'
    { x with
      STRUCTS_USED_BY_CBGs := addUse x.STRUCTS_USED_BY_CBGs
        (removePrefix " struct.".toList (parts.getLastD [])) (parts.headD []) }
  else x

def parseSym (lib_dict : Dict Path (Dict Name Address)) (lines : List Name) : SymLog :=
  lines.foldl (parseSymLine lib_dict) ⟨[], .empty⟩

def addLibrary (d : Dict Name Uses) (struct : Name) (lib : Path) : Dict Name Uses :=
  match d.get? struct with
  | none => d
  | some uses => d.set struct (uses ++ [none, some lib])

-- `parts[-2]`
def nextToLast (parts : List Name) : Option Name := parts.reverse[1]?

-- The first pass of `parse_dynsym`. `none` is an `IndexError`.
def argumentLine (lib_dict : Dict Path (Dict Name Address)) (d : Dict Name Uses) (line : Name) :
    Option (Dict Name Uses) :=
  let line := strip line
  if contains line "Argument ".toList then
    let parts := fields ':' line
    if lib_dict.entries = [] then some d
    else do
      let callee ← nextToLast parts
      match lib_dict.entries.find? fun e => callee ∈ e.2.keys with
      | none => some d
      | some (lib, _) => some (addLibrary d (parts.getLastD []) lib)
  else some d

def argumentLines (lib_dict : Dict Path (Dict Name Address)) (d : Dict Name Uses)
    (lines : List Name) : Option (Dict Name Uses) :=
  (State.trace (argumentLine lib_dict) d lines).map (Dict.filter fun e => none ∈ e.2)

-- What the second pass of `parse_dynsym` collects. Python keeps the callees and the indices of
-- a caller in sets; here they are in the order of the log.
structure DynLog where
  struct_callbacks : Dict Tag (List Name)
  global_syms : Dict Tag (List Name)
  struct_metadata : Dict Name (List Name)
  locals_from_structs : Dict Name (List (Name × List Name))
  caller_to_info : Dict Name CallInfo

-- A dictionary of lists without repetitions.
def addOnce (d : Dict Name (List Name)) (key x : Name) : Dict Name (List Name) :=
  match d.get? key with
  | none => d.set key [x]
  | some xs => if x ∈ xs then d else d.set key (xs ++ [x])

-- A line that names the libraries' own symbols. `none` is a `KeyError`.
def globalLine (lib_json : Dict Path Tag) (lib_dict : Dict Path (Dict Name Address)) (x : DynLog)
    (parts : List Name) : Option DynLog := do
  let symbol ← nextToLast parts
  match lib_dict.entries.find? fun e => symbol ∈ e.2.keys with
  | none => some x
  | some (lib, _) =>
    let tag ← lib_json.get? lib
    return { x with global_syms := addOnce x.global_syms tag symbol }

def structLine (reachable_structs : Dict Tag (List Name)) (x : DynLog) (parts : List Name) :
    DynLog :=
  let function := parts.getD 1 []
  let struct := removePrefix "struct.".toList ((nextToLast parts).getD [])
  let dsos := (reachable_structs.entries.filter fun e => struct ∈ e.2).map Prod.fst
  { x with
    struct_callbacks := dsos.foldl (fun d dso => addOnce d dso function) x.struct_callbacks
    struct_metadata :=
      if parts.length = 4 then addOnce x.struct_metadata struct function else x.struct_metadata }

-- The test looks for the index in the whole array, the function's name included.
def addIndex (fn index : Name) : List (Name × List Name) → List (Name × List Name)
  | [] => [(fn, [index])]
  | array :: arrays =>
    if array.1 = fn then
      if index ∈ array.1 :: array.2 then array :: arrays
      else (array.1, array.2 ++ [index]) :: arrays
    else array :: addIndex fn index arrays

def mayComeLine (x : DynLog) (parts : List Name) : Option DynLog := do
  let index ← (words (parts.getD 1 [])).getLast?
  let struct := removePrefix "struct.".toList (parts.getLastD [])
  let arrays := (x.locals_from_structs.get? struct).getD []
  return { x with
    locals_from_structs :=
      x.locals_from_structs.set struct (addIndex (parts.headD []) index arrays) }

def addMember (xs : List Name) (x : Name) : List Name := if x ∈ xs then xs else xs ++ [x]

-- `none` is an `IndexError` or a failed assertion.
def callLine (x : DynLog) (line : Name) : Option DynLog := do
  let (caller, callee) := splitFirst ':' line
  let tokens := words (strip callee)
  let index ← tokens.getLast?
  let callee ← tokens.head?
  if index = callee then none
  else
    let caller := if strip caller = "atexit".toList then "__cxa_atexit".toList else strip caller
    let info := (x.caller_to_info.get? caller).getD ⟨[], []⟩
    return { x with
      caller_to_info := x.caller_to_info.set caller
        ⟨addMember info.callees callee, addMember info.indices index⟩ }

def dynLine (lib_json : Dict Path Tag) (lib_dict : Dict Path (Dict Name Address))
    (reachable_structs : Dict Tag (List Name)) (x : DynLog) (line : Name) : Option DynLog :=
  let line := strip line
  if ':' ∉ line ∨ contains line "phi incoming".toList then some x
  else do
    let parts := fields ':' line
    let x ← if "Possible Struct Callback global:".toList.isPrefixOf line then
      globalLine lib_json lib_dict x parts else some x
    if contains line "Possible Struct Callback".toList then
      return structLine reachable_structs x parts
    else if contains line "may come from struct".toList then mayComeLine x parts
    else callLine x line

def structMapLine (reachable_structs : Dict Tag (List Name)) (line : Name) : Dict Tag (List Name) :=
  let line := strip line
  if ':' ∉ line then reachable_structs
  else
    let (lib, structs) := splitFirst ':' line
    reachable_structs.set (strip lib) ((fields ',' structs).filter (· ≠ []))

def parseStructMap (lines : List Name) : Dict Tag (List Name) := lines.foldl structMapLine .empty

-- What the script is given: the map of the libraries, the listings of `nm`, the addresses of the
-- PLT stubs, and the lines of the three logs.
structure Logs where
  name : Name
  lib_json : Dict Path Tag
  exported : Path → List NmLine
  defined : List NmLine
  plt_addrs : Dict Name Address
  structMap : List Name
  dynsym : List Name
  sym : List Name

namespace Logs

variable (l : Logs)

def lib_dict : Dict Path (Dict Name Address) where
  entries := l.lib_json.entries.map fun e =>
    (e.1, (getExportedSymbols (l.exported e.1) false).symbols)
  nodup := by
    rw [List.map_map]
    exact l.lib_json.nodup

def symLog : SymLog := parseSym l.lib_dict l.sym

def dynLog : Option DynLog :=
  State.trace (dynLine l.lib_json l.lib_dict (parseStructMap l.structMap))
    ⟨.empty, .empty, .empty, .empty, .empty⟩ l.dynsym

-- What `check` is called with.
def inputs : Option Inputs := do
  let structs ← argumentLines l.lib_dict l.symLog.STRUCTS_USED_BY_CBGs l.dynsym
  let x ← l.dynLog
  return {
    name := l.name
    lib_json := l.lib_json
    lib_dict := l.lib_dict
    call_dict := x.caller_to_info
    bin := binParse l.defined
    plt_addrs := l.plt_addrs
    CPTR_REDIRECTION_TO_EXTERNAL := l.symLog.CPTR_REDIRECTION_TO_EXTERNAL
    STRUCTS_USED_BY_CBGs := structs
    struct_callbacks := x.struct_callbacks
    global_syms := x.global_syms
    struct_metadata := x.struct_metadata
    locals_from_structs := x.locals_from_structs }

end Logs

end Platypus.Parser
