/-!
# Modes of reading
-/

namespace LedgerText

/-- What a scanner is reading. -/
inductive Mode where
  /-- Normal text. -/
  | normal
  /-- The rest of a line that is thrown away. -/
  | recovery
  /-- A string literal. -/
  | literal
deriving DecidableEq

namespace Mode

/-- The mode in which a scanner starts. -/
def initial : Mode := normal

/-- The grammar's name for a mode. -/
def name : Mode → String
  | normal => "INITIAL"
  | recovery => "INVALID"
  | literal => "STRLIT"

/-- The modes. -/
def all : List Mode := [normal, recovery, literal]

end Mode

end LedgerText
