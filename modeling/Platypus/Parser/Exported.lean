import Platypus.Dict.Lists
import Platypus.Text.Scan

namespace Platypus.Parser

open Text

abbrev Name := List Char

-- An address as `hex()` prints it.
structure Address where
  text : Name
  plain : '_' ∉ text
  deriving DecidableEq, Repr

def hex (n : Nat) : Address where
  text := '0' :: 'x' :: Nat.toDigits 16 n
  plain := by
    have hdigits := underscore_not_mem_of_digits (by decide) (isDigit_of_mem_toDigits n)
    simpa using hdigits

theorem hex_inj {m n : Nat} (h : hex m = hex n) : m = n := by
  have htext : Nat.toDigits 16 m = Nat.toDigits 16 n := by
    simpa [hex] using congrArg Address.text h
  rw [← ofDigits_toDigits m, htext, ofDigits_toDigits]

-- A line of `nm` that has an address, a type and a name.
structure NmLine where
  symbol_address : Nat
  symbol : Name
  deriving DecidableEq, Repr

def stripSymbolVersion (symbol : Name) : Name := symbol.takeWhile (· ≠ '@')

structure Exported where
  symbols : Dict Name Address
  duplicate_locals : Dict Name (List Address)

def addDuplicate (ds : Dict Name (List Address)) (symbol_name : Name) (a : Address) :
    Dict Name (List Address) :=
  match ds.get? symbol_name with
  | none => ds.set symbol_name [a]
  | some as => if a ∈ as then ds else ds.set symbol_name (as ++ [a])

def exportLine (is_bin : Bool) (x : Exported) (line : NmLine) : Exported :=
  let symbol_name := stripSymbolVersion line.symbol
  let a := hex line.symbol_address
  if symbol_name ∈ x.symbols.keys ∧ is_bin then
    { x with duplicate_locals := addDuplicate x.duplicate_locals symbol_name a }
  else { x with symbols := x.symbols.set symbol_name a }

def getExportedSymbols (lines : List NmLine) (is_bin : Bool) : Exported :=
  lines.foldl (exportLine is_bin) ⟨.empty, .empty⟩

-- The symbols of the analysed binary: a name has further addresses only if it has a first one.
structure Binary extends Exported where
  first : ∀ n ∈ duplicate_locals.keys, n ∈ symbols.keys

theorem addDuplicate_eq (ds : Dict Name (List Address)) (n : Name) (a : Address) :
    addDuplicate ds n a = ds.insertOnce n a := by
  unfold addDuplicate Dict.insertOnce
  cases ds.get? n with
  | none => rfl
  | some as => rfl

theorem mem_keys_addDuplicate (ds : Dict Name (List Address)) (n m : Name) (a : Address)
    (h : m ∈ (addDuplicate ds n a).keys) : m = n ∨ m ∈ ds.keys := by
  rw [addDuplicate_eq] at h
  exact (ds.mem_keys_insertOnce n m a).mp h

theorem exportLine_first (x : Exported) (line : NmLine)
    (h : ∀ n ∈ x.duplicate_locals.keys, n ∈ x.symbols.keys) :
    ∀ n ∈ (exportLine true x line).duplicate_locals.keys,
      n ∈ (exportLine true x line).symbols.keys := by
  intro n hn
  unfold exportLine at hn ⊢
  dsimp only at hn ⊢
  split at hn
  · rename_i hmem
    rw [if_pos hmem]
    rcases mem_keys_addDuplicate _ _ _ _ hn with rfl | hn
    · exact hmem.1
    · exact h n hn
  · rename_i hmem
    rw [if_neg hmem]
    exact (x.symbols.mem_keys_set _ _ _).mpr (.inr (h n hn))

theorem foldl_exportLine_first (lines : List NmLine) (x : Exported)
    (h : ∀ n ∈ x.duplicate_locals.keys, n ∈ x.symbols.keys) :
    ∀ n ∈ (lines.foldl (exportLine true) x).duplicate_locals.keys,
      n ∈ (lines.foldl (exportLine true) x).symbols.keys := by
  induction lines generalizing x with
  | nil => exact h
  | cons line lines ih => exact ih _ (exportLine_first x line h)

def binParse (lines : List NmLine) : Binary where
  toExported := getExportedSymbols lines true
  first := foldl_exportLine_first lines _ nofun

-- Where the addresses of a name are: the first one in the returned dictionary, the others among
-- the duplicates.
def Exported.addresses (x : Exported) (n : Name) : List Address :=
  (x.symbols.get? n).toList ++ (x.duplicate_locals.get? n).getD []

theorem mem_addDuplicate (ds : Dict Name (List Address)) (m n : Name) (a b : Address) :
    b ∈ ((addDuplicate ds m a).get? n).getD [] ↔ b ∈ (ds.get? n).getD [] ∨ m = n ∧ b = a := by
  rw [addDuplicate_eq]
  exact ds.mem_insertOnce m n a b

theorem mem_addresses_exportLine (x : Exported) (line : NmLine) (n : Name) (a : Address) :
    a ∈ (exportLine true x line).addresses n ↔
      a ∈ x.addresses n ∨ stripSymbolVersion line.symbol = n ∧ a = hex line.symbol_address := by
  simp only [exportLine, Exported.addresses, and_true]
  by_cases hmem : stripSymbolVersion line.symbol ∈ x.symbols.keys
  · simp only [if_pos hmem, List.mem_append, mem_addDuplicate, or_assoc]
  · simp only [if_neg hmem, List.mem_append]
    by_cases hn : n = stripSymbolVersion line.symbol
    · subst hn
      have hnone := x.symbols.get?_eq_none_iff.mpr hmem
      simp only [Dict.get?_set_self, hnone, Option.toList_some, Option.toList_none,
        List.mem_singleton, List.not_mem_nil, false_or, true_and]
      exact or_comm
    · simp only [x.symbols.get?_set_of_ne _ hn, Ne.symm hn, false_and, or_false]

theorem mem_addresses_foldl (lines : List NmLine) (x : Exported) (n : Name) (a : Address) :
    a ∈ (lines.foldl (exportLine true) x).addresses n ↔
      a ∈ x.addresses n ∨
        ∃ line ∈ lines, stripSymbolVersion line.symbol = n ∧ a = hex line.symbol_address := by
  induction lines generalizing x with
  | nil => simp
  | cons line lines ih =>
    rw [List.foldl_cons, ih, mem_addresses_exportLine, or_assoc, List.exists_mem_cons_iff]

-- The rules for a first and for a further address differ, but no address is lost or made up.
theorem addresses_getExportedSymbols (lines : List NmLine) (n : Name) :
    {a | a ∈ (getExportedSymbols lines true).addresses n} =
      {a | ∃ line ∈ lines, stripSymbolVersion line.symbol = n ∧ a = hex line.symbol_address} := by
  ext a
  refine (mem_addresses_foldl lines _ n a).trans (or_iff_right ?_)
  exact List.not_mem_nil

end Platypus.Parser
