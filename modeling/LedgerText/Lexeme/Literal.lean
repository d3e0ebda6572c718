import LedgerText.Lexeme.Text

/-!
# Pieces of string literals

After its opening quote a string literal is read piece by piece: runs of plain text, escape
sequences, line feeds, and the closing quote. A backslash that is the last byte of the source is
plain text; a backslash before a carriage return and a line feed takes both. After an error the
rest of a literal is discarded as a whole, and the rest of a line likewise.

As in normal text, the first `left` bytes of the `tape` are source.
-/

namespace LedgerText.Lexeme

open Byte

/-- A backslash and what it escapes. -/
def escapeSequence (left : Nat) (tape : Bytes) : Lexeme :=
  let escaped := (tape.take left).tail
  if escaped = [] then ⟨.literalText, 1⟩
  else if escaped.take 2 = [carriageReturn, lineFeed] then ⟨.escape, 3⟩
  else ⟨.escape, 1 + Utf8.width (escaped.headD 0)⟩

/-- The next piece of a string literal. -/
def inLiteral (left : Nat) (tape : Bytes) : Lexeme :=
  let b := tape.headD 0
  if left = 0 then ⟨.endOfFile, 0⟩
  else if b = quote then ⟨.closingQuote, 1⟩
  else if b = lineFeed then ⟨.literalLineFeed, 1⟩
  else if b = backslash then escapeSequence left tape
  else ⟨.literalText, run (!isLiteralDelimiter ·) (tape.take left)⟩

/-- How many bytes of the source stand before the end of a literal, its closing quote included. A
quote after a backslash does not close it. -/
def literalLength (left : Nat) (tape : Bytes) : Nat :=
  match left, tape with
  | left + 1, b :: tape =>
    if b = quote then 1
    -- A backslash at the end of the source escapes nothing.
    else if b = backslash && left != 0 then
      let n := Utf8.width (tape.headD 0)
      1 + n + literalLength (left - n) (tape.drop n)
    else 1 + literalLength left tape
  | _, _ => 0
termination_by left

/-- The rest of a literal, thrown away. -/
def restOfLiteral (left : Nat) (tape : Bytes) : Lexeme := ⟨.discarded, literalLength left tape⟩

/-- The rest of a line up to its line feed, thrown away. -/
def restOfLine (left : Nat) (tape : Bytes) : Lexeme := ⟨.discarded, lineLength left tape⟩

/-- Where source is left, the next piece of a literal has a byte. -/
theorem inLiteral_length_pos {left : Nat} {tape : Bytes} (h : left ≠ 0) (ht : left ≤ tape.length) :
    0 < (inLiteral left tape).length := by
  unfold inLiteral
  dsimp only
  rw [if_neg h]
  split
  · exact Nat.one_pos
  · next hq =>
    split
    · exact Nat.one_pos
    · next hl =>
      split
      · unfold escapeSequence
        dsimp only
        split
        · exact Nat.one_pos
        · split
          · exact Nat.succ_pos 2
          · exact Nat.add_pos_left Nat.one_pos _
      · next hs =>
        refine run_pos ?_ (take_ne_nil h ht)
        rw [headD_take h]
        generalize tape.headD 0 = b at hq hl hs
        simp [isLiteralDelimiter, hq, hl, hs]

end LedgerText.Lexeme
