import LedgerText.Reader

/-!
# Walks through a source

A walk reads a source with string literals told apart: after an opening quote it reads pieces of a
literal, after a closing quote it reads normal text again.
-/

namespace LedgerText

/-- A reader that knows whether it is in a string literal. -/
structure Walk where
  /-- The reader. -/
  reader : Reader
  /-- Whether the last quote that was read opened a literal. -/
  inLiteral : Bool := false
deriving DecidableEq

/-- A lexeme that was read, and the reader after it. -/
structure Walk.Entry where
  /-- The lexeme. -/
  lexeme : Lexeme
  /-- Its bytes. -/
  text : Bytes
  /-- The reader after it. -/
  reader : Reader
deriving DecidableEq

namespace Walk

/-- Whether a literal goes on after a lexeme. -/
def inLiteralAfter (t : Tag) (inLiteral : Bool) : Bool :=
  match t with
  | .openingQuote => true
  | .closingQuote => false
  | _ => inLiteral

/-- What a way to read finds. -/
def entry (w : Walk) (m : Move) : Entry := ⟨w.reader.lexeme m, w.reader.text m, w.reader.after m⟩

/-- The walk after a way to read. -/
def after (w : Walk) (m : Move) : Walk where
  reader := w.reader.after m
  inLiteral := inLiteralAfter (w.reader.lexeme m).tag w.inLiteral

/-- The way to read on that the place calls for. -/
def move (w : Walk) : Move := if w.inLiteral then .literal else .text

/-- All that is left to read, the end included. -/
def drain (w : Walk) : List Entry × Walk :=
  if (w.reader.lexeme w.move).tag = .endOfFile then ([w.entry w.move], w.after w.move)
  else
    let (entries, last) := (w.after w.move).drain
    (w.entry w.move :: entries, last)
termination_by w.reader.rest.length
decreasing_by
  refine Reader.length_rest_after_lt ?_ ‹_›
  unfold move
  split
  · exact .inr rfl
  · exact .inl rfl

end Walk

end LedgerText
