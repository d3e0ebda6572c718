import LedgerText.Location
import LedgerText.Token.Flags
import LedgerText.Token.Kind

/-!
# Tokens

A token is what the grammar reads: a kind, the text that stands for it, its location, and the value
that a builder made of it.
-/

namespace LedgerText

/-- A token whose value, if it has one, is of type `α`. -/
structure Token (α : Type) where
  /-- The terminal of the grammar. -/
  kind : Kind
  /-- The lexeme as written, but for a string literal its decoded contents. -/
  text : String
  /-- Where the lexeme stands. -/
  location : Location
  /-- What the builder made of it, absent from structural tokens. -/
  value : Option α
  /-- What else is known of its place. -/
  flags : Flags
deriving DecidableEq

/-- Whether the token opens its line. -/
def Token.isFirstOnLine {α : Type} (t : Token α) : Bool := t.flags.lineStart

end LedgerText
