/-!
# Flags of tokens

What a token says about its place beside its kind: whether it opens its line, whether it is written
in the source at all, and whether it spans lines.
-/

namespace LedgerText

/-- The set of flags of a token. -/
structure Flags where
  /-- The first token of its line. -/
  lineStart : Bool := false
  /-- Stands for no text of the source: the end of a last line that was not ended. -/
  synthetic : Bool := false
  /-- The lexeme holds a line feed. -/
  multiLine : Bool := false
deriving DecidableEq

namespace Flags

/-- The weight of the flag `lineStart` in `bits`. -/
def lineStartBit : Nat := 1

/-- The weight of the flag `synthetic` in `bits`. -/
def syntheticBit : Nat := 2

/-- The weight of the flag `multiLine` in `bits`. -/
def multiLineBit : Nat := 4

/-- The flags with their names and weights. -/
def table : List (String × Nat) :=
  [("LINE_START", lineStartBit), ("SYNTHETIC", syntheticBit), ("MULTI_LINE", multiLineBit)]

/-- The set as a number, the sum of its flags' weights. -/
def bits (f : Flags) : Nat :=
  (if f.lineStart then lineStartBit else 0) + (if f.synthetic then syntheticBit else 0) +
    (if f.multiLine then multiLineBit else 0)

end Flags

end LedgerText
