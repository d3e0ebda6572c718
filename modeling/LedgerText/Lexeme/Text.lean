import LedgerText.Lexeme.Pattern
import LedgerText.Lexeme.Tag
import LedgerText.Utf8

/-!
# Lexemes of normal text

The next lexeme outside string literals. The lexeme is the longest that any rule matches, and among
rules that match equally far the first counts: an indent before a blank, a skipped line before a
mark, a date before a number, an account before a currency, a currency before a flag.

The bytes to read are a `tape` of which the first `left` are source. The source need not be cut out
of a longer store to be read: behind it the tape may end, or go on with anything after a zero byte.
Past its own end a tape reads as zeros.
-/

namespace LedgerText.Lexeme

open Byte

/-- How many bytes of the source stand before the next line feed, or before its end. -/
def lineLength (left : Nat) (tape : Bytes) : Nat := run (· != lineFeed) (tape.take left)

/-- Blanks: an indent where they start a line that goes on with something else. -/
def blanks (lineStart : Bool) (left : Nat) (tape : Bytes) : Lexeme :=
  let n := run isIndent tape
  let next := (tape.drop n).headD 0
  -- A line that holds nothing else has no indent.
  if lineStart && 0 < n && n < left && next != lineFeed && next != carriageReturn then ⟨.indent, n⟩
  else ⟨.blank, run isBlank tape⟩

/-- A date, or a number where no date reaches as far. -/
def dateOrNumber (tape : Bytes) : Lexeme :=
  let number := Pattern.numberLength tape
  match Pattern.dateLength? tape with
  | some date => if number ≤ date then ⟨.date, date⟩ else ⟨.number, number⟩
  | none => ⟨.number, number⟩

/-- A word in small letters, which is a key if a colon follows. -/
def smallWord (tape : Bytes) : Lexeme :=
  let n := 1 + run isKeyPart tape.tail
  ⟨if (tape.drop n).headD 0 = colon then .key else .word, n⟩

/-- The character at the front, with which no rule starts. -/
def invalid (tape : Bytes) : Lexeme := ⟨.invalid, Utf8.width (tape.headD 0)⟩

/-- An account, a currency or a flag, whichever is longest. -/
def capitalWord (tape : Bytes) : Lexeme :=
  match Pattern.accountLength? tape, Pattern.currencyLength? tape with
  | some account, some currency =>
    if currency ≤ account then ⟨.account, account⟩ else ⟨.currency, currency⟩
  | some account, none => ⟨.account, account⟩
  | none, some currency => ⟨.currency, currency⟩
  | none, none => if isFlagLetter (tape.headD 0) then ⟨.flag, 1⟩ else invalid tape

/-- An account that starts outside ASCII. -/
def foreignWord (tape : Bytes) : Lexeme :=
  match Pattern.accountLength? tape with
  | some account => ⟨.account, account⟩
  | none => invalid tape

/-- A lexeme that starts with a sign: a number without a whole part, an opening quote, a tag, a
link, a mark or a flag. -/
def sign (tape : Bytes) : Lexeme :=
  let b := tape.headD 0
  let next := tape.tail.headD 0
  if b = dot && isDigit next then ⟨.number, Pattern.numberLength tape⟩
  else if b = quote then ⟨.openingQuote, 1⟩
  else if b = hash && isNamePart next then ⟨.tag, 1 + Pattern.nameLength tape⟩
  else if b = caret && isNamePart next then ⟨.link, 1 + Pattern.nameLength tape⟩
  else
    match (if next = b then Mark.ofTwice? b else none), Mark.ofByte? b with
    | some m, _ => ⟨.mark m, 2⟩
    | none, some m => ⟨.mark m, 1⟩
    | none, none => if isFlagSign b then ⟨.flag, 1⟩ else invalid tape

/-- The next lexeme of normal text; `lineStart` says whether it is the first of its line. -/
def inText (lineStart : Bool) (left : Nat) (tape : Bytes) : Lexeme :=
  let b := tape.headD 0
  if left = 0 then ⟨.endOfFile, 0⟩
  else if b = lineFeed then ⟨.newline, 1⟩
  else if isBlank b then blanks lineStart left tape
  else if b = semicolon then ⟨.comment, lineLength left tape⟩
  else if lineStart && isLineMarker b then ⟨.skippedLine, lineLength left tape⟩
  else if isDigit b then dateOrNumber tape
  else if isLower b then smallWord tape
  else if isUpper b then capitalWord tape
  else if isNonAscii b then foreignWord tape
  else sign tape

/-! ## Every lexeme reads a byte -/

/-- A line whose first byte is no line feed has a byte. -/
theorem lineLength_pos {left : Nat} {tape : Bytes} (h : left ≠ 0) (ht : left ≤ tape.length)
    (hb : tape.headD 0 ≠ lineFeed) : 0 < lineLength left tape :=
  run_pos (by rw [headD_take h]; simpa using hb) (take_ne_nil h ht)

/-- A lexeme of blanks has a byte. -/
theorem blanks_length_pos {lineStart : Bool} {left : Nat} {tape : Bytes} (h : tape ≠ [])
    (hb : isBlank (tape.headD 0) = true) : 0 < (blanks lineStart left tape).length := by
  unfold blanks
  dsimp only
  split
  · next hc =>
    simp only [Bool.and_eq_true, decide_eq_true_eq] at hc
    exact hc.1.1.1.2
  · exact run_pos hb h

/-- A date or a number has a byte. -/
theorem dateOrNumber_length_pos {tape : Bytes} (h : isDigit (tape.headD 0) = true) :
    0 < (dateOrNumber tape).length := by
  have hn := Pattern.numberLength_pos (.inl h)
  unfold dateOrNumber
  dsimp only
  split
  · split
    · next hd hle => exact Pattern.dateLength?_pos hd
    · exact hn
  · exact hn

/-- An invalid character has a byte. -/
theorem invalid_length_pos (tape : Bytes) : 0 < (invalid tape).length := Utf8.width_pos _

/-- A word that starts with a capital letter has a byte. -/
theorem capitalWord_length_pos (tape : Bytes) : 0 < (capitalWord tape).length := by
  unfold capitalWord
  split
  · next ha hc =>
    split
    · exact Pattern.accountLength?_pos ha
    · exact Pattern.currencyLength?_pos hc
  · next ha _ => exact Pattern.accountLength?_pos ha
  · next _ hc => exact Pattern.currencyLength?_pos hc
  · split
    · exact Nat.one_pos
    · exact invalid_length_pos tape

/-- A word that starts outside ASCII has a byte. -/
theorem foreignWord_length_pos (tape : Bytes) : 0 < (foreignWord tape).length := by
  unfold foreignWord
  split
  · next ha => exact Pattern.accountLength?_pos ha
  · exact invalid_length_pos tape

/-- A lexeme that starts with a sign has a byte. -/
theorem sign_length_pos (tape : Bytes) : 0 < (sign tape).length := by
  unfold sign
  dsimp only
  split
  · next h => exact Pattern.numberLength_pos (.inr (of_decide_eq_true (Bool.and_eq_true_iff.1 h).1))
  · split
    · exact Nat.one_pos
    · split
      · exact Nat.add_pos_left Nat.one_pos _
      · split
        · exact Nat.add_pos_left Nat.one_pos _
        · split
          · exact Nat.two_pos
          · exact Nat.one_pos
          · split
            · exact Nat.one_pos
            · exact invalid_length_pos tape

/-- Where source is left, the next lexeme of normal text has a byte. -/
theorem inText_length_pos {lineStart : Bool} {left : Nat} {tape : Bytes} (h : left ≠ 0)
    (ht : left ≤ tape.length) : 0 < (inText lineStart left tape).length := by
  have hne : tape ≠ [] := by rintro rfl; simp at ht; exact h ht
  unfold inText
  dsimp only
  rw [if_neg h]
  split
  · exact Nat.one_pos
  · next hlf =>
    split
    · next hb => exact blanks_length_pos hne hb
    · split
      · exact lineLength_pos h ht hlf
      · split
        · exact lineLength_pos h ht hlf
        · split
          · next hd => exact dateOrNumber_length_pos hd
          · split
            · exact Nat.add_pos_left Nat.one_pos _
            · split
              · exact capitalWord_length_pos tape
              · split
                · exact foreignWord_length_pos tape
                · exact sign_length_pos tape

end LedgerText.Lexeme
