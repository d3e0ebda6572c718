/-!
# Directives

A directive is a word in small letters that says what an entry of the ledger does. The grammar's
name for a directive is its word in capitals.
-/

namespace LedgerText

/-- A directive of the language. -/
inductive Directive where
  | transaction | balance | openAccount | closeAccount | commodity | pad | event | price | note
  | document | query | custom | pushTag | popTag | pushMeta | popMeta | setOption | plugin
  | includeFile
deriving DecidableEq

namespace Directive

/-- The directives, in the grammar's order. -/
def all : List Directive :=
  [transaction, balance, openAccount, closeAccount, commodity, pad, event, price, note, document,
    query, custom, pushTag, popTag, pushMeta, popMeta, setOption, plugin, includeFile]

/-- The word of a directive. -/
def word : Directive → String
  | transaction => "txn"
  | balance => "balance"
  | openAccount => "open"
  | closeAccount => "close"
  | commodity => "commodity"
  | pad => "pad"
  | event => "event"
  | price => "price"
  | note => "note"
  | document => "document"
  | query => "query"
  | custom => "custom"
  | pushTag => "pushtag"
  | popTag => "poptag"
  | pushMeta => "pushmeta"
  | popMeta => "popmeta"
  | setOption => "option"
  | plugin => "plugin"
  | includeFile => "include"

/-- The grammar's name for a directive. -/
def name (d : Directive) : String := d.word.toUpper

/-- The directive that a word names, if it names one. -/
def ofWord? (word : String) : Option Directive := all.find? (·.word == word)

end Directive

end LedgerText
