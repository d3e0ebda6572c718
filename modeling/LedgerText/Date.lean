import LedgerText.Field

/-!
# Dates

A date is written as year, month and day, separated by hyphens or slashes. Its three fields are
decoded from left to right, and the first that does not fit is reported. Whether the numbers name a
day of the calendar is not asked here.
-/

namespace LedgerText

/-- The three numbers of a date. -/
structure Date where
  /-- The year, of four digits at most. -/
  year : Nat
  /-- The month, of two digits at most. -/
  month : Nat
  /-- The day of the month, of two digits at most. -/
  day : Nat
deriving DecidableEq

namespace Date

/-- Digits of a year. -/
def yearWidth : Nat := 4

/-- Digits of a month or a day. -/
def monthDayWidth : Nat := 2

/-- The characters that separate the fields of a date. -/
def isSeparator (c : Char) : Bool := c == '-' || c == '/'

/-- What stands before the first separator, and what stands after it. -/
def splitField (cs : List Char) : String × List Char :=
  (String.ofList (cs.takeWhile (!isSeparator ·)), (cs.dropWhile (!isSeparator ·)).drop 1)

/-- The date that a lexeme writes; a missing field counts as an empty one. -/
def decode (lexeme : String) : Except Field.Overflow Date := do
  let (year, rest) := splitField lexeme.toList
  let (month, rest) := splitField rest
  let (day, _) := splitField rest
  let year ← Field.decode year yearWidth
  let month ← Field.decode month monthDayWidth
  let day ← Field.decode day monthDayWidth
  return ⟨year, month, day⟩

end Date

end LedgerText
