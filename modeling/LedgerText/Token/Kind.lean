import LedgerText.Directive
import LedgerText.Mark

/-!
# Kinds of tokens

The terminals of the grammar. The first six shape the line structure and never carry a value; for
every other one a builder is asked for a value.
-/

namespace LedgerText

/-- A terminal of the grammar. -/
inductive Kind where
  | endOfLine
  | indent
  | comment
  /-- A line that starts with a line marker. -/
  | skipped
  | endOfFile
  /-- Stands where a lexical error was reported. -/
  | lexError
  | mark (m : Mark)
  | directive (d : Directive)
  | flag
  | bool
  | null
  | date
  | number
  | account
  | currency
  | string
  | tag
  | link
  | key
deriving DecidableEq

namespace Kind

/-- The kinds, in the grammar's order. -/
def all : List Kind :=
  [endOfLine, indent, comment, skipped, endOfFile, lexError] ++ Mark.all.map mark ++
    Directive.all.map directive ++
    [flag, bool, null, date, number, account, currency, string, tag, link, key]

/-- The grammar's name for a kind. -/
def name : Kind → String
  | endOfLine => "EOL"
  | indent => "INDENT"
  | comment => "COMMENT"
  | skipped => "SKIPPED"
  | endOfFile => "EOF"
  | lexError => "LEX_ERROR"
  | mark m => m.name
  | directive d => d.name
  | flag => "FLAG"
  | bool => "BOOL"
  | null => "NONE"
  | date => "DATE"
  | number => "NUMBER"
  | account => "ACCOUNT"
  | currency => "CURRENCY"
  | string => "STRING"
  | tag => "TAG"
  | link => "LINK"
  | key => "KEY"

/-- Whether tokens of the kind never carry a value. -/
def isStructural : Kind → Bool
  | endOfLine | indent | comment | skipped | endOfFile | lexError => true
  | _ => false

/-- The kind of the given name, if there is one. -/
def ofName? (name : String) : Option Kind := all.find? (·.name == name)

end Kind

end LedgerText
