import LedgerText.Count

/-!
# Locations

A lexeme occupies the columns `firstColumn` to `lastColumn` of a line. Lines and columns are counted
from one, columns in bytes.
-/

namespace LedgerText

/-- Where a lexeme stands. -/
structure Location where
  /-- The name of the file. -/
  filename : String
  /-- The line of the first byte. -/
  line : Nat
  /-- The column of the first byte. -/
  firstColumn : Nat
  /-- The column of the last byte, were the lexeme written on one line. -/
  lastColumn : Nat
deriving DecidableEq

namespace Location

/-- The columns that start at `firstColumn` and hold `length` bytes, but at least one. -/
def spanning (filename : String) (line firstColumn length : Nat) : Location where
  filename
  line
  firstColumn
  lastColumn := Count.clamp (firstColumn + (max length 1 - 1))

/-- How many columns a location covers. -/
def width (l : Location) : Nat := l.lastColumn - l.firstColumn + 1

/-- The place as it heads an error message: file, line and first column. -/
def display (l : Location) : String :=
  l.filename ++ ":" ++ Nat.repr l.line ++ ":" ++ Nat.repr l.firstColumn

end Location

end LedgerText
