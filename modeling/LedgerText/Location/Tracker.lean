import LedgerText.Byte
import LedgerText.Location

/-!
# Tracking lines and columns

A tracker holds the line and column of the next byte. Reading a lexeme moves it on by the lexeme's
bytes: every line feed starts a new line, and the byte after it has column one.
-/

namespace LedgerText

/-- The line and column of the next byte of a file. -/
structure Tracker where
  /-- The name of the file. -/
  filename : String
  /-- The line of the next byte. -/
  line : Nat := 1
  /-- The column of the next byte. -/
  column : Nat := 1
deriving DecidableEq

namespace Tracker

/-- The single column of the next byte. -/
def point (t : Tracker) : Location := ⟨t.filename, t.line, t.column, t.column⟩

/-- The location of a lexeme that is read next. It is anchored at the lexeme's first byte, also
when the lexeme spans lines; an empty lexeme has the column of the next byte. -/
def locate (t : Tracker) (lexeme : Bytes) : Location :=
  .spanning t.filename t.line t.column lexeme.length

/-- How many bytes stand after the last line feed. -/
def lastLineLength (lexeme : Bytes) : Nat := (lexeme.reverse.takeWhile (· != Byte.lineFeed)).length

/-- The tracker after a lexeme. -/
def advance (t : Tracker) (lexeme : Bytes) : Tracker where
  filename := t.filename
  line := Count.clamp (t.line + lexeme.count Byte.lineFeed)
  column :=
    if lexeme.contains Byte.lineFeed then Count.clamp (lastLineLength lexeme + 1)
    else Count.clamp (t.column + lexeme.length)

end Tracker

end LedgerText
