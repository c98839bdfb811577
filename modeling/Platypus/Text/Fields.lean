import Mathlib
import Platypus.Text.Scan

namespace Platypus.Text

-- What `str.isspace` accepts.
def isBlank (c : Char) : Bool :=
  let n := c.toNat
  (9 ≤ n && n ≤ 13) || (28 ≤ n && n ≤ 32) || n == 0x85 || n == 0xa0 || n == 0x1680 ||
    (0x2000 ≤ n && n ≤ 0x200a) || n == 0x2028 || n == 0x2029 || n == 0x202f || n == 0x205f ||
    n == 0x3000

def strip (s : List Char) : List Char := (s.dropWhile isBlank).rdropWhile isBlank

-- `s.split(sep)` with every part stripped.
def fields (sep : Char) (s : List Char) : List (List Char) := (s.splitOn sep).map strip

-- `s.split()`
def words (s : List Char) : List (List Char) := (s.splitOnP isBlank).filter (· ≠ [])

-- `s.split(sep, 1)` of a text that has the separator.
def splitFirst (sep : Char) (s : List Char) : List Char × List Char :=
  (s.takeWhile (· ≠ sep), (s.dropWhile (· ≠ sep)).drop 1)

def removePrefix (pre s : List Char) : List Char :=
  if pre.isPrefixOf s then s.drop pre.length else s

def contains (s sub : List Char) : Bool := s.tails.any fun t => sub.isPrefixOf t

-- `int(s, 16)` of a text of digits. `none` is a `ValueError`.
def intBase16 (s : List Char) : Option Nat :=
  if s ≠ [] ∧ ∀ c ∈ s, IsDigit 16 c then some (ofDigits 16 s) else none

end Platypus.Text
