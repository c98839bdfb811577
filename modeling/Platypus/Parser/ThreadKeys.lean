import Platypus.Parser.CreateTables
import Platypus.Parser.Logs

-- The main program of `callback_parser.py`, and the flag that `parse_dynsym` sets for it.

namespace Platypus.Parser

open Text

-- The names that `parse_dynsym` assigns to.
inductive Variable
  | struct_callbacks
  | global_syms
  | locals_from_structs
  | PTHREAD_KEYS
  deriving DecidableEq, Repr

-- The `global` statements of `parse_dynsym`.
def declaredGlobal : List Variable := [.struct_callbacks, .global_syms, .locals_from_structs]

-- The flag of the module and the variable of the same name of a call, which is unbound at first.
structure Flag where
  module : Bool
  local_ : Option Bool
  deriving DecidableEq, Repr

-- `PTHREAD_KEYS=b` in the body of a function: a name that is not declared global is a local one.
def Flag.assign (declared : List Variable) (flag : Flag) (b : Bool) : Flag :=
  if .PTHREAD_KEYS ∈ declared then { flag with module := b } else { flag with local_ := some b }

def keyPhrase : Name := "pthread_key_create".toList

def phiPhrase : Name := "phi incoming".toList

-- The lines that the second pass of `parse_dynsym` does not skip.
def processed (line : Name) : Prop := ':' ∈ strip line ∧ contains (strip line) phiPhrase = false

instance (line : Name) : Decidable (processed line) := inferInstanceAs (Decidable (_ ∧ _))

def flagLine (flag : Flag) (line : Name) : Flag :=
  if processed line ∧ contains (strip line) keyPhrase then flag.assign declaredGlobal true
  else flag

-- What the script prints at its end.
structure Output where
  for_header_file : Tables
  warned : Bool

def threadKey : Tag := "THREADKEY".toList

def fini : Tag := "FINI".toList

def libc : Tag := "LIBC".toList

-- The constructors of a program are called by the C library.
def addInit (is_bin : Bool) (t : Tables) (init : List Entry) : Tables :=
  if is_bin then t.set libc ((t.get? libc).getD [] ++ init) else t

namespace Logs

variable (l : Logs)

-- The second pass with the flag beside what it collects.
def scanLine (st : Flag × DynLog) (line : Name) : Option (Flag × DynLog) :=
  (dynLine l.lib_json l.lib_dict (parseStructMap l.structMap) st.2 line).map fun x =>
    (flagLine st.1 line, x)

def scan (flag : Flag) : Option (Flag × DynLog) :=
  State.trace l.scanLine (flag, ⟨.empty, .empty, .empty, .empty, .empty⟩) l.dynsym

-- `none` where the script ends early.
def main (rd : CreateTables.Readelf) (elf : CreateTables.Elf) (is_bin : Bool) : Option Output := do
  let inp ← l.inputs
  let (flag, _) ← l.scan ⟨false, none⟩
  let t ← inp.check
  let (init, fini_) ← CreateTables.main rd elf l.name
  let t := (addInit is_bin t init).set fini fini_
  if flag.module then return ⟨t, true⟩
  else return ⟨t.set threadKey [], false⟩

-- Some processed line of the log mentions the function.
def MentionsKey : Prop := ∃ line ∈ l.dynsym, processed line ∧ contains (strip line) keyPhrase = true

-- What the flag is for.
def ReportsKey (out : Output) : Prop :=
  (out.for_header_file.get? threadKey = some [] → ¬ l.MentionsKey) ∧
    (l.MentionsKey → out.warned = true ∧ out.for_header_file.get? threadKey ≠ some [])

variable {l}

theorem flagLine_module (flag : Flag) (line : Name) : (flagLine flag line).module = flag.module := by
  unfold flagLine
  split
  · rfl
  · rfl

-- The flag of the module is the one from before the call.
theorem scan_module {flag flag' : Flag} {x : DynLog} (h : l.scan flag = some (flag', x)) :
    flag'.module = flag.module := by
  have hlines (lines : List Name) (st st' : Flag × DynLog)
      (htrace : State.trace l.scanLine st lines = some st') : st'.1.module = st.1.module := by
    induction lines generalizing st with
    | nil =>
      cases htrace
      rfl
    | cons line lines ih =>
      obtain ⟨st₁, hline, hrest⟩ := Option.bind_eq_some_iff.mp htrace
      obtain ⟨x₁, -, rfl⟩ := Option.map_eq_some_iff.mp hline
      rw [ih _ hrest, flagLine_module]
  exact hlines _ _ _ h

theorem main_output {rd : CreateTables.Readelf} {elf : CreateTables.Elf} {is_bin : Bool}
    {out : Output} (h : l.main rd elf is_bin = some out) :
    out.for_header_file.get? threadKey = some [] ∧ out.warned = false := by
  simp only [main, Option.bind_eq_bind, Option.bind_eq_some_iff] at h
  obtain ⟨inp, -, ⟨flag, x⟩, hscan, t, -, ⟨init, fini_⟩, -, hout⟩ := h
  have hflag : flag.module = false := scan_module hscan
  rw [hflag] at hout
  cases hout
  exact ⟨Dict.get?_set_self _ _ _, rfl⟩

theorem reportsKey_iff (l : Logs) (rd : CreateTables.Readelf) (elf : CreateTables.Elf)
    (is_bin : Bool) (out : Output) (h : l.main rd elf is_bin = some out) :
    l.ReportsKey out ↔ ¬ l.MentionsKey := by
  obtain ⟨htable, -⟩ := main_output h
  constructor
  · exact fun hreports => hreports.1 htable
  · exact fun hnone => ⟨fun _ => hnone, fun hmentions => absurd hmentions hnone⟩

end Logs

-- A program without libraries, whose log has the lines.
def keyLogs (dynsym : List Name) : Logs where
  name := "prog".toList
  lib_json := .empty
  exported := fun _ => []
  defined := []
  plt_addrs := .empty
  structMap := []
  dynsym := dynsym
  sym := []

def noArrays : CreateTables.Elf where
  cls := .ELF64
  sections := []
  content := []
  relocs := []
  addends := nofun

def keyReadelf : CreateTables.Readelf := CreateTables.gnuStyle (fun _ => 0) fun _ => 0

theorem main_isSome_keyLogs :
    ((keyLogs ["atexit: clean_up 0".toList]).main keyReadelf noArrays true).isSome = true := by
  decide

theorem reportsKey_atexit : ∃ out,
    (keyLogs ["atexit: clean_up 0".toList]).main keyReadelf noArrays true = some out ∧
      ((keyLogs ["atexit: clean_up 0".toList]).ReportsKey out ↔
        ¬ (keyLogs ["atexit: clean_up 0".toList]).MentionsKey) := by
  obtain ⟨out, hout⟩ := Option.isSome_iff_exists.mp main_isSome_keyLogs
  exact ⟨out, hout, Logs.reportsKey_iff _ _ _ _ out hout⟩

def keyLine : Name := "pthread_key_create: clean_up 1".toList

theorem keyLine_not_reported : ∃ out,
    (keyLogs [keyLine]).main keyReadelf noArrays true = some out ∧
      ¬ (keyLogs [keyLine]).ReportsKey out := by
  have hsome : ((keyLogs [keyLine]).main keyReadelf noArrays true).isSome = true := by
    decide
  obtain ⟨out, hout⟩ := Option.isSome_iff_exists.mp hsome
  refine ⟨out, hout, fun h => h.1 (Logs.main_output hout).1 ?_⟩
  exact ⟨keyLine, List.mem_singleton_self _, by decide⟩

end Platypus.Parser
