/-!
# Options of a scanner
-/

namespace LedgerText

/-- What may be chosen for a scanner. -/
structure Options where
  /-- The room for the contents of string literals at the start. -/
  literalCapacity : Nat := 64
  /-- Whether a synthetic end of line comes before the first end of file, so that the last line is
  ended like every other. -/
  terminateLastLine : Bool := true
  /-- The name of the encoding that builders are told for string literals. -/
  encoding : String := "utf-8"
deriving DecidableEq

end LedgerText
