import LedgerText.Cursor
import LedgerText.Lexeme.Literal

/-!
# Readers

A reader goes through a source lexeme by lexeme. It keeps no mode of its own: whoever reads says
whether the next lexeme is one of normal text or of a string literal, or whether the rest of the
line or of the literal is to be thrown away. A byte-order mark at the very start of the source is
passed over.
-/

namespace LedgerText

/-- A cursor at the next lexeme. -/
structure Reader extends Cursor where
  /-- Whether the next lexeme of normal text is the first of its line. -/
  atLineStart : Bool := true
deriving DecidableEq

/-- The ways to read on. -/
inductive Move where
  /-- A lexeme of normal text. -/
  | text
  /-- A piece of a string literal. -/
  | literal
  /-- The rest of the line, thrown away. -/
  | skipLine
  /-- The rest of the literal, thrown away. -/
  | skipLiteral
deriving DecidableEq

namespace Reader

/-- A reader at the given offset. -/
def startAt (source : Bytes) (offset : Nat) : Reader where
  source
  pos := if offset = 0 && Utf8.startsWithMark source then Utf8.byteOrderMark.length else offset

/-- A reader at the start of the source. -/
def start (source : Bytes) : Reader := startAt source 0

/-- The bytes from the offset `start` up to the next lexeme. -/
def since (r : Reader) (start : Nat) : Bytes := r.slice start r.pos

/-- The next lexeme under each way to read. -/
def lexeme (r : Reader) : Move → Lexeme
  | .text => .inText r.atLineStart r.rest.length r.rest
  | .literal => .inLiteral r.rest.length r.rest
  | .skipLine => .restOfLine r.rest.length r.rest
  | .skipLiteral => .restOfLiteral r.rest.length r.rest

/-- The bytes of the next lexeme. -/
def text (r : Reader) (m : Move) : Bytes := r.rest.take (r.lexeme m).length

/-- The reader after the next lexeme. Any lexeme of normal text leaves the start of the line, and a
newline comes to the next one. -/
def after (r : Reader) (m : Move) : Reader where
  toCursor := r.advance (r.lexeme m).length
  atLineStart := if m = .text then (r.lexeme m).tag = .newline else r.atLineStart

/-! ## Progress -/

/-- Reading on leaves the lexeme's bytes fewer. -/
theorem length_rest_after (r : Reader) (m : Move) :
    (r.after m).rest.length = r.rest.length - (r.lexeme m).length :=
  r.length_rest_advance _

/-- Reading on never goes back. -/
theorem length_rest_after_le (r : Reader) (m : Move) :
    (r.after m).rest.length ≤ r.rest.length := by
  rw [length_rest_after]
  exact Nat.sub_le _ _

/-- Until the end is reached, reading normal text or a piece of a literal leaves less to read. -/
theorem length_rest_after_lt {r : Reader} {m : Move} (hm : m = .text ∨ m = .literal)
    (h : (r.lexeme m).tag ≠ .endOfFile) : (r.after m).rest.length < r.rest.length := by
  have hl : r.rest.length ≠ 0 := by
    intro hz
    apply h
    rcases hm with rfl | rfl
    · simp [lexeme, Lexeme.inText, hz]
    · simp [lexeme, Lexeme.inLiteral, hz]
  have hpos : 0 < (r.lexeme m).length := by
    rcases hm with rfl | rfl
    · exact Lexeme.inText_length_pos hl (Nat.le_refl _)
    · exact Lexeme.inLiteral_length_pos hl (Nat.le_refl _)
  rw [length_rest_after]
  omega

end Reader

end LedgerText
