import LedgerText.Byte
import LedgerText.Lexeme.Tag
import Mathlib.Computability.Language

/-!
# The grammar of normal text

The rules of normal text as languages over bytes, written as regular expressions are: `L∗` and
`plus L` repeat, `+` chooses, `*` joins, and a class of bytes is the language of its one-byte words.
Beside its pattern a rule may ask for something of its place: that it starts a line, or that certain
bytes follow (`Context`).

`IsLongest` says what it means to read by longest match: no rule matches further, and of the rules
that match as far the lexeme is tagged by the first in `order`. Nothing here says how a lexeme is
found.
-/

namespace LedgerText.Grammar

open scoped Computability

/-! ## Classes of bytes -/

/-- The words of one byte of a class. -/
def ofClass (p : UInt8 → Bool) : Language UInt8 := {w | ∃ b, p b = true ∧ w = [b]}

/-- A character of ASCII. -/
def byte (c : Char) : Language UInt8 := ofClass (· == c.toUInt8)

/-- The characters of ASCII from `lo` to `hi`. -/
def range (lo hi : Char) : Language UInt8 := ofClass fun b => lo.toUInt8 ≤ b && b ≤ hi.toUInt8

/-- Any of the given characters of ASCII. -/
def oneOf (cs : List Char) : Language UInt8 := ofClass fun b => cs.any fun c => b == c.toUInt8

/-- The bytes from `0x80` on. -/
def foreign : Language UInt8 := ofClass (0x80 ≤ ·)

/-- All bytes but the line feed. -/
def notLineFeed : Language UInt8 := ofClass (· != '\n'.toUInt8)

/-- `[A-Z]` -/
def upper : Language UInt8 := range 'A' 'Z'

/-- `[a-z]` -/
def lower : Language UInt8 := range 'a' 'z'

/-- `[0-9]` -/
def digit : Language UInt8 := range '0' '9'

/-- One word of a language or more. -/
def plus (L : Language UInt8) : Language UInt8 := L * L∗

/-! ## The rules -/

/-- `[A-Za-z0-9-]` and what is outside ASCII. -/
def accountPart : Language UInt8 := upper + lower + digit + byte '-' + foreign

/-- `[A-Z0-9'._-]` -/
def currencyPart : Language UInt8 := upper + digit + oneOf ['\'', '.', '_', '-']

/-- `[A-Za-z0-9-_/.]` -/
def namePart : Language UInt8 := upper + lower + digit + oneOf ['-', '_', '/', '.']

/-- `[A-Za-z0-9-_]` -/
def keyPart : Language UInt8 := upper + lower + digit + oneOf ['-', '_']

/-- `[0-9]{4,}S[0-9]+S[0-9]+`, where `S` is a hyphen or a slash. -/
def date : Language UInt8 :=
  digit ^ 4 * digit∗ * oneOf ['-', '/'] * plus digit * oneOf ['-', '/'] * plus digit

/-- `[0-9]+|[0-9][0-9,]+[0-9]` -/
def whole : Language UInt8 := plus digit + digit * plus (digit + byte ',') * digit

/-- `([0-9]+|[0-9][0-9,]+[0-9])(\.[0-9]*)?` or `\.[0-9]+` -/
def number : Language UInt8 := whole * (1 + byte '.' * digit∗) + byte '.' * plus digit

/-- `:[A-Z0-9][A-Za-z0-9-]*`, where both classes hold what is outside ASCII. -/
def component : Language UInt8 := byte ':' * (upper + digit + foreign) * accountPart∗

/-- `[A-Z][A-Za-z0-9-]*` and components, where both classes hold what is outside ASCII. -/
def account : Language UInt8 := (upper + foreign) * accountPart∗ * plus component

/-- `[A-Z][A-Z0-9'._-]{0,22}[A-Z0-9]` -/
def currency : Language UInt8 := upper * (1 + currencyPart) ^ 22 * (upper + digit)

/-- The words of each rule of normal text. Tags that are no rule of it have none. -/
def pattern : Tag → Language UInt8
  | .newline => byte '\n'
  | .indent => plus (oneOf [' ', '\t'])
  | .blank => plus (oneOf [' ', '\t', '\r'])
  | .comment => byte ';' * notLineFeed∗
  | .skippedLine => oneOf ['*', ':', '#', '!', '&', '%', '?', '^', '~'] * notLineFeed∗
  | .mark m => {m.spelling}
  | .openingQuote => byte '"'
  | .flag => oneOf ['!', '&', '?', '%', 'P', 'S', 'T', 'C', 'U', 'R', 'M']
  | .date => date
  | .number => number
  | .account => account
  | .currency => currency
  | .tag => byte '#' * plus namePart
  | .link => byte '^' * plus namePart
  | .key | .word => lower * keyPart∗
  | _ => 0

/-- What a rule asks of its place: an indent and a skipped line start a line, an indent is all of
the blanks there and something stands after it on its line, and a word in small letters is taken as
a whole, as a key where a colon follows. -/
def Context (lineStart : Bool) (after : Bytes) : Tag → Prop
  | .indent => lineStart = true ∧ ∃ b rest, after = b :: rest ∧
      [b] ∉ oneOf [' ', '\t', '\n', '\r']
  | .skippedLine => lineStart = true
  | .key => ∃ rest, after = ':'.toUInt8 :: rest
  | .word => ∀ b rest, after = b :: rest → [b] ∉ keyPart ∧ b ≠ ':'.toUInt8
  | _ => True

/-- The rule of the tag `t` takes the word `w` with the bytes `after` behind it. -/
def Matches (lineStart : Bool) (t : Tag) (w after : Bytes) : Prop :=
  w ∈ pattern t ∧ Context lineStart after t

/-- The rules, the first that counts before the others. -/
def order : List Tag :=
  [.newline, .indent, .blank, .comment, .skippedLine] ++ Mark.all.map .mark ++
    [.openingQuote, .flag, .date, .number, .account, .currency, .tag, .link, .key, .word]

/-- A lexeme is the longest that the rules match at the front of the bytes, and tagged by the first
rule that matches it. -/
structure IsLongest (lineStart : Bool) (bytes : Bytes) (l : Lexeme) : Prop where
  /-- The lexeme is within the bytes, and its rule takes it. -/
  matched : l.length ≤ bytes.length ∧
    Matches lineStart l.tag (bytes.take l.length) (bytes.drop l.length)
  /-- No rule takes more. -/
  longest : ∀ t w after, w ++ after = bytes → Matches lineStart t w after → w.length ≤ l.length
  /-- No earlier rule takes as much. -/
  first : ∀ t w after, w ++ after = bytes → Matches lineStart t w after → w.length = l.length →
    order.idxOf l.tag ≤ order.idxOf t

/-- No rule takes anything at the front of the bytes. -/
def NoMatch (lineStart : Bool) (bytes : Bytes) : Prop :=
  ∀ t w after, w ++ after = bytes → ¬Matches lineStart t w after

end LedgerText.Grammar
