import LedgerText.Utf8

/-!
# Cursors

A cursor is a place in a source from which bytes are read. Past the end of the source every byte
reads as zero, so a cursor may stand anywhere; a zero byte of the source itself is no end.
-/

namespace LedgerText

/-- A place in a source. -/
structure Cursor where
  /-- The whole source. -/
  source : Bytes
  /-- How many bytes stand before the cursor. -/
  pos : Nat := 0
deriving DecidableEq

namespace Cursor

/-- The bytes from the cursor on. -/
def rest (c : Cursor) : Bytes := c.source.drop c.pos

/-- The byte at the cursor. -/
def current (c : Cursor) : UInt8 := c.rest.headD 0

/-- The byte after the one at the cursor. -/
def peek (c : Cursor) : UInt8 := c.rest.tail.headD 0

/-- Whether the source ends at the cursor or before it. -/
def atEnd (c : Cursor) : Bool := c.source.length ≤ c.pos

/-- The cursor `n` bytes further on. -/
def advance (c : Cursor) (n : Nat) : Cursor := { c with pos := c.pos + n }

/-- The cursor after the character at it. -/
def advanceChar (c : Cursor) : Cursor := c.advance (Utf8.width c.current)

/-- Whether the source goes on with the given bytes. -/
def startsWith (c : Cursor) (bytes : Bytes) : Bool := c.rest.take bytes.length == bytes

/-- The bytes of the source from the offset `start` up to the offset `stop`. -/
def slice (c : Cursor) (start stop : Nat) : Bytes := (c.source.drop start).take (stop - start)

/-- How many bytes of the class `p` stand at the cursor. -/
def countWhile (p : UInt8 → Bool) (c : Cursor) : Nat := Byte.run p c.rest

/-- The cursor after the bytes of the class `p`. -/
def skipWhile (p : UInt8 → Bool) (c : Cursor) : Cursor := c.advance (c.countWhile p)

/-- The cursor at the end of its line, before the line feed. -/
def skipLine (c : Cursor) : Cursor := c.skipWhile (· != Byte.lineFeed)

/-- The cursor at the next byte that means something in a string literal: a quote, a backslash or a
line feed. -/
def skipLiteralText (c : Cursor) : Cursor := c.skipWhile (!Byte.isLiteralDelimiter ·)

/-! ## What is left -/

/-- A cursor has the bytes of the source before it that many fewer left. -/
theorem length_rest (c : Cursor) : c.rest.length = c.source.length - c.pos := by
  simp [rest]

/-- Going on by `n` bytes leaves `n` fewer. -/
theorem length_rest_advance (c : Cursor) (n : Nat) :
    (c.advance n).rest.length = c.rest.length - n := by
  simp only [length_rest, advance]
  omega

end Cursor

end LedgerText
