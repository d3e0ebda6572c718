/-!
# Bytes of a ledger

A ledger is read as a list of bytes, the UTF-8 form of its text. Every rule of the language looks at
single bytes: the ASCII ones fall into the classes below, and the bytes from `0x80` on, of which
every character outside ASCII is made, form one class of their own.

All classes are false at zero, which is what a reader sees past the end of the source; so a run of
bytes of one class never leaves the source.
-/

namespace LedgerText

/-- The UTF-8 form of a text, or a part of one. -/
abbrev Bytes := List UInt8

namespace Byte

/-! ## Bytes with a meaning of their own -/

/-- Horizontal tab. -/
abbrev tab : UInt8 := 0x09

/-- Line feed, which ends a line. -/
abbrev lineFeed : UInt8 := 0x0A

/-- Carriage return, which is blank. -/
abbrev carriageReturn : UInt8 := 0x0D

/-- The space character. -/
abbrev space : UInt8 := 0x20

/-- The double quote, which opens and closes a string literal. -/
abbrev quote : UInt8 := 0x22

/-- The hash sign, which starts a tag. -/
abbrev hash : UInt8 := 0x23

/-- The comma, which groups the digits of a number. -/
abbrev comma : UInt8 := 0x2C

/-- The hyphen, which separates the fields of a date. -/
abbrev hyphen : UInt8 := 0x2D

/-- The full stop, which starts the fraction of a number. -/
abbrev dot : UInt8 := 0x2E

/-- The slash, which separates the fields of a date. -/
abbrev slash : UInt8 := 0x2F

/-- The colon, which joins the components of an account. -/
abbrev colon : UInt8 := 0x3A

/-- The semicolon, which starts a comment. -/
abbrev semicolon : UInt8 := 0x3B

/-- The backslash, which starts an escape sequence. -/
abbrev backslash : UInt8 := 0x5C

/-- The circumflex, which starts a link. -/
abbrev caret : UInt8 := 0x5E

/-- The underscore. -/
abbrev underscore : UInt8 := 0x5F

/-- The apostrophe. -/
abbrev apostrophe : UInt8 := 0x27

/-! ## Classes -/

/-- The decimal digits. -/
def isDigit (b : UInt8) : Bool := 0x30 ≤ b && b ≤ 0x39

/-- The capital letters of ASCII. -/
def isUpper (b : UInt8) : Bool := 0x41 ≤ b && b ≤ 0x5A

/-- The small letters of ASCII. -/
def isLower (b : UInt8) : Bool := 0x61 ≤ b && b ≤ 0x7A

/-- The letters and digits of ASCII. -/
def isAlphanumeric (b : UInt8) : Bool := isUpper b || isLower b || isDigit b

/-- The bytes of which the characters outside ASCII are made. -/
def isNonAscii (b : UInt8) : Bool := 0x80 ≤ b

/-- The blanks that indent a line. -/
def isIndent (b : UInt8) : Bool := b == space || b == tab

/-- The blanks that separate lexemes; the carriage return of a line's end is one of them. -/
def isBlank (b : UInt8) : Bool := isIndent b || b == carriageReturn

/-- The bytes of a directive or a metadata key after the first. -/
def isKeyPart (b : UInt8) : Bool := isAlphanumeric b || b == hyphen || b == underscore

/-- The bytes with which an account may start. -/
def isAccountStart (b : UInt8) : Bool := isUpper b || isNonAscii b

/-- The bytes with which a later component of an account may start. -/
def isComponentStart (b : UInt8) : Bool := isUpper b || isDigit b || isNonAscii b

/-- The bytes of an account's component after the first. -/
def isAccountPart (b : UInt8) : Bool := isAlphanumeric b || b == hyphen || isNonAscii b

/-- The bytes with which a currency may end. -/
def isCurrencyEnd (b : UInt8) : Bool := isUpper b || isDigit b

/-- The bytes within a currency. -/
def isCurrencyPart (b : UInt8) : Bool :=
  isCurrencyEnd b || b == apostrophe || b == dot || b == underscore || b == hyphen

/-- The bytes of the name of a tag or a link. -/
def isNamePart (b : UInt8) : Bool :=
  isAlphanumeric b || b == hyphen || b == underscore || b == slash || b == dot

/-- The bytes that separate the fields of a date. -/
def isDateSeparator (b : UInt8) : Bool := b == hyphen || b == slash

/-- The bytes with which a line that is skipped as a whole starts: `*`, `:`, `#`, `!`, `&`, `%`,
`?`, `^` and `~`. -/
def isLineMarker (b : UInt8) : Bool :=
  b == 0x2A || b == colon || b == hash || b == 0x21 || b == 0x26 || b == 0x25 || b == 0x3F ||
    b == caret || b == 0x7E

/-- The signs among the transaction flags: `!`, `&`, `?` and `%`. -/
def isFlagSign (b : UInt8) : Bool := b == 0x21 || b == 0x26 || b == 0x3F || b == 0x25

/-- The letters among the transaction flags: `P`, `S`, `T`, `C`, `U`, `R` and `M`. -/
def isFlagLetter (b : UInt8) : Bool :=
  b == 0x50 || b == 0x53 || b == 0x54 || b == 0x43 || b == 0x55 || b == 0x52 || b == 0x4D

/-- The bytes that end a run of plain text in a string literal. -/
def isLiteralDelimiter (b : UInt8) : Bool := b == quote || b == backslash || b == lineFeed

/-! ## Runs -/

/-- How many bytes at the front are of the class `p`. -/
def run (p : UInt8 → Bool) (bytes : Bytes) : Nat := (bytes.takeWhile p).length

/-- The bytes without those of the class `p` at their end. -/
def trimEnd (p : UInt8 → Bool) (bytes : Bytes) : Bytes := (bytes.reverse.dropWhile p).reverse

/-- A run is no longer than the bytes it is part of. -/
theorem run_le (p : UInt8 → Bool) (bytes : Bytes) : run p bytes ≤ bytes.length :=
  (List.takeWhile_sublist p).length_le

/-- A run that has a first byte is not empty. -/
theorem run_pos {p : UInt8 → Bool} {bytes : Bytes} (hp : p (bytes.headD 0) = true)
    (h : bytes ≠ []) : 0 < run p bytes := by
  cases bytes with
  | nil => exact absurd rfl h
  | cons b bytes =>
    have hb : p b = true := hp
    simp [run, hb]

/-- Cutting bytes off at the end keeps the first. -/
theorem headD_take {n : Nat} (h : n ≠ 0) (bytes : Bytes) :
    (bytes.take n).headD 0 = bytes.headD 0 := by
  cases n with
  | zero => exact absurd rfl h
  | succ n => cases bytes <;> rfl

/-- A front part of positive length has bytes. -/
theorem take_ne_nil {n : Nat} {bytes : Bytes} (h : n ≠ 0) (hl : n ≤ bytes.length) :
    bytes.take n ≠ [] := by
  intro he
  have hz : min n bytes.length = 0 := by simpa using congrArg List.length he
  omega

/-- A byte outside the class keeps the trimmed bytes from being empty. -/
theorem trimEnd_ne_nil {p : UInt8 → Bool} {bytes : Bytes} {b : UInt8} (hb : b ∈ bytes)
    (hp : p b = false) : trimEnd p bytes ≠ [] := by
  intro h
  have hd : bytes.reverse.dropWhile p = [] := by simpa [trimEnd] using h
  have ht : bytes.reverse.takeWhile p = bytes.reverse := by
    simpa [hd] using List.takeWhile_append_dropWhile (p := p) (l := bytes.reverse)
  have ha : bytes.reverse.all p = true := ht ▸ List.all_takeWhile
  simp [List.all_eq_true.1 ha b (by simpa using hb)] at hp

end Byte

end LedgerText
