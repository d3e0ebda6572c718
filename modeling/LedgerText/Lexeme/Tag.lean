import LedgerText.Mark

/-!
# Tags of lexemes

The rule of the language that a lexeme obeys. A tag has a name for people and a code; the codes
leave gaps, so that each group of tags has a range of its own: words and literals from 0, marks from
32, pieces of string literals from 80, blanks and line structure from 112, then the invalid byte and
the end.
-/

namespace LedgerText

/-- The rule that a lexeme obeys. -/
inductive Tag where
  /-- A word in small letters that no colon follows. -/
  | word
  /-- A word in small letters that a colon follows. -/
  | key
  | number
  | date
  | account
  | currency
  | tag
  | link
  | flag
  | mark (m : Mark)
  | openingQuote
  /-- Plain text in a string literal. -/
  | literalText
  | escape
  /-- A line feed in a string literal. -/
  | literalLineFeed
  | closingQuote
  | blank
  | newline
  | indent
  | comment
  | skippedLine
  /-- Bytes that are thrown away after an error. -/
  | discarded
  /-- A character with which no rule starts. -/
  | invalid
  | endOfFile
deriving DecidableEq

namespace Tag

/-- The tags, in the order of their codes. -/
def all : List Tag :=
  [word, key, number, date, account, currency, tag, link, flag] ++ Mark.all.map mark ++
    [openingQuote, literalText, escape, literalLineFeed, closingQuote, blank, newline, indent,
      comment, skippedLine, discarded, invalid, endOfFile]

/-- The name of a tag; a mark is named by its spelling. -/
def name : Tag → String
  | word => "identifier"
  | key => "key"
  | number => "number"
  | date => "date"
  | account => "account"
  | currency => "currency"
  | tag => "tag"
  | link => "link"
  | flag => "flag"
  | mark m => "`" ++ String.ofList (m.spelling.map fun b => Char.ofNat b.toNat) ++ "`"
  | openingQuote => "opening quote"
  | literalText => "string text"
  | escape => "escape sequence"
  | literalLineFeed => "newline in string"
  | closingQuote => "closing quote"
  | blank => "whitespace"
  | newline => "newline"
  | indent => "indent"
  | comment => "comment"
  | skippedLine => "skipped line"
  | discarded => "discarded input"
  | invalid => "invalid byte"
  | endOfFile => "end of file"

/-- The code of a tag. -/
def code : Tag → Nat
  | word => 0
  | key => 1
  | number => 2
  | date => 3
  | account => 4
  | currency => 5
  | tag => 6
  | link => 7
  | flag => 8
  | mark m => 32 + Mark.all.idxOf m
  | openingQuote => 50
  | literalText => 80
  | escape => 81
  | literalLineFeed => 82
  | closingQuote => 83
  | blank => 112
  | newline => 113
  | indent => 114
  | comment => 115
  | skippedLine => 116
  | discarded => 117
  | invalid => 240
  | endOfFile => 255

end Tag

/-- A lexeme that starts at a known place: the rule it obeys and how many bytes it has. -/
structure Lexeme where
  /-- The rule. -/
  tag : Tag
  /-- The number of bytes. -/
  length : Nat
deriving DecidableEq

end LedgerText
