/-!
# Decimal fields

The components of a date are decimal numbers in fields of a few digits. A run of digits is refused
if it is empty, longer than its field, or not all digits, or if its value does not fit in 32 bits;
the refusal carries the run and the width of the field.
-/

namespace LedgerText.Field

/-- A run of digits that does not fit in its field. -/
structure Overflow where
  /-- The run as written. -/
  digits : String
  /-- How many digits the field holds. -/
  width : Nat
deriving DecidableEq

/-- The refusal in words. -/
def Overflow.message (o : Overflow) : String :=
  "`" ++ o.digits ++ "` does not fit in a " ++ Nat.repr o.width ++ "-digit field"

/-- The greatest value of a field. -/
def maximum : Nat := 0xFFFFFFFF

/-- A value, unless it is beyond the greatest one. -/
def checked (n : Nat) : Option Nat := if n ≤ maximum then some n else none

/-- One digit more at the end of the value `n`, unless `c` is no digit or the value grows beyond
the greatest one, either by the place that it makes for the digit or by the digit itself. -/
def appendDigit (n : Nat) (c : Char) : Option Nat :=
  if c.isDigit then do
    let tens ← checked (n * 10)
    checked (tens + (c.toNat - '0'.toNat))
  else none

/-- The value of a run of digits in a field of the given width. -/
def decode (digits : String) (width : Nat) : Except Overflow Nat :=
  if digits.isEmpty || width < digits.utf8ByteSize then .error ⟨digits, width⟩
  else
    match digits.toList.foldlM appendDigit 0 with
    | some n => .ok n
    | none => .error ⟨digits, width⟩

end LedgerText.Field
