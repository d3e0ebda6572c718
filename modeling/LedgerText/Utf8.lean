import LedgerText.Byte

/-!
# UTF-8

The bytes of a text, the width of a character by its lead byte, and the text of any bytes. Reading
bytes that are no text never fails: each longest piece that begins a character but does not
complete it, and each byte that begins none, is read as one replacement character U+FFFD.
-/

namespace LedgerText.Utf8

/-- The bytes of a list of characters. -/
def encode (cs : List Char) : Bytes := cs.flatMap String.utf8EncodeChar

/-- The bytes of a text. -/
def ofString (s : String) : Bytes := encode s.toList

/-- The byte-order mark U+FEFF, with which some editors start a file. -/
def byteOrderMark : Bytes := [0xEF, 0xBB, 0xBF]

/-- Whether a source starts with the byte-order mark. -/
def startsWithMark (source : Bytes) : Bool := byteOrderMark.isPrefixOf source

/-- How many bytes the character that starts with the byte `b` has; a byte that starts no character
stands alone. -/
def width (b : UInt8) : Nat :=
  if 0xC0 ≤ b && b ≤ 0xDF then 2
  else if 0xE0 ≤ b && b ≤ 0xEF then 3
  else if 0xF0 ≤ b && b ≤ 0xF7 then 4
  else 1

/-- Every character has a byte. -/
theorem width_pos (b : UInt8) : 0 < width b := by
  unfold width
  split
  · decide
  · split
    · decide
    · split <;> decide

/-! ## Reading text -/

/-- The least and greatest byte that may stand at a place of a character. -/
abbrev Range := UInt8 × UInt8

/-- A byte inside a character whose place admits all of them. -/
def continuation : Range := (0x80, 0xBF)

/-- The ranges of the bytes that complete a character started by `b`, or none where `b` starts no
character. The narrower ranges leave out the forms that are longer than need be, the surrogates, and
what lies beyond U+10FFFF. -/
def following (b : UInt8) : Option (List Range) :=
  if b ≤ 0x7F then some []
  else if b < 0xC2 then none
  else if b ≤ 0xDF then some [continuation]
  else if b = 0xE0 then some [(0xA0, 0xBF), continuation]
  else if b = 0xED then some [(0x80, 0x9F), continuation]
  else if b ≤ 0xEF then some [continuation, continuation]
  else if b = 0xF0 then some [(0x90, 0xBF), continuation, continuation]
  else if b ≤ 0xF3 then some [continuation, continuation, continuation]
  else if b = 0xF4 then some [(0x80, 0x8F), continuation, continuation]
  else none

/-- How many of the first bytes lie in their ranges. -/
def fitting : List Range → Bytes → Nat
  | (lo, hi) :: ranges, b :: bytes =>
    if lo ≤ b && b ≤ hi then fitting ranges bytes + 1 else 0
  | _, _ => 0

/-- The part of a code point that the lead byte of a character of `n + 1` bytes carries. -/
def leadBits (n : Nat) (b : UInt8) : Nat :=
  match n with
  | 0 => b.toNat
  | 1 => b.toNat - 0xC0
  | 2 => b.toNat - 0xE0
  | _ => b.toNat - 0xF0

/-- The character made of the lead byte `b` and the continuation bytes `bytes`, six bits each. -/
def character (b : UInt8) (bytes : Bytes) : Char :=
  Char.ofNat (bytes.foldl (fun bits c => bits * 64 + (c.toNat - 0x80)) (leadBits bytes.length b))

/-- What stands for bytes that are no character. -/
def replacement : Char := '\uFFFD'

/-- The characters of any bytes. -/
def decode : Bytes → List Char
  | [] => []
  | b :: bytes =>
    match following b with
    | none => replacement :: decode bytes
    | some ranges =>
      let n := fitting ranges bytes
      (if n = ranges.length then character b (bytes.take n) else replacement) ::
        decode (bytes.drop n)
termination_by bytes => bytes.length
decreasing_by all_goals simp; try omega

/-- The text of any bytes. -/
def toString (bytes : Bytes) : String := String.ofList (decode bytes)

end LedgerText.Utf8
