import LedgerText.Utf8

/-!
# Text buffers

The contents of a string literal are collected in a buffer that grows by doubling: where an append
does not fit, the capacity, or `TextBuffer.leastGrowth` if that is more, is doubled until it does.
Every such growth is counted. A buffer that is emptied keeps its capacity until it is released.
-/

namespace LedgerText

/-- Collected bytes, and how much room they have. -/
structure TextBuffer where
  /-- The bytes collected. -/
  bytes : Bytes := []
  /-- How many bytes there is room for. -/
  capacity : Nat := 0
  /-- How often the room grew. -/
  growths : Nat := 0
deriving DecidableEq

namespace TextBuffer

/-- The least room that a growth starts from. -/
def leastGrowth : Nat := 16

/-- An empty buffer with the given room. -/
def ofCapacity (capacity : Nat) : TextBuffer := { capacity }

/-- The number of bytes collected. -/
def length (b : TextBuffer) : Nat := b.bytes.length

/-- The room `capacity`, doubled until it holds `needed` bytes. -/
def doubled (needed capacity : Nat) : Nat :=
  if capacity = 0 ∨ needed ≤ capacity then capacity else doubled needed (2 * capacity)
termination_by needed - capacity

/-- The buffer with room for `needed` bytes in all. -/
def reserve (b : TextBuffer) (needed : Nat) : TextBuffer :=
  if needed ≤ b.capacity then b
  else { b with capacity := doubled needed (max b.capacity leastGrowth), growths := b.growths + 1 }

/-- The buffer with more bytes at its end. -/
def append (b : TextBuffer) (bytes : Bytes) : TextBuffer :=
  { b.reserve (b.length + bytes.length) with bytes := b.bytes ++ bytes }

/-- The buffer with one more byte. -/
def push (b : TextBuffer) (byte : UInt8) : TextBuffer := b.append [byte]

/-- The buffer with one more character. -/
def pushChar (b : TextBuffer) (c : Char) : TextBuffer := b.append (Utf8.encode [c])

/-- The buffer without its bytes. -/
def clear (b : TextBuffer) : TextBuffer := { b with bytes := [] }

/-- The text of the bytes collected. -/
def contents (b : TextBuffer) : String := Utf8.toString b.bytes

/-- The text of the bytes collected, and the buffer without them. -/
def finish (b : TextBuffer) : String × TextBuffer := (b.contents, b.clear)

/-- The buffer without its bytes and its room. -/
def release (b : TextBuffer) : TextBuffer := { b with bytes := [], capacity := 0 }

end TextBuffer

end LedgerText
