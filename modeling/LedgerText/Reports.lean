import LedgerText.Builder

/-!
# Reports

Every lexical error is counted and reported to the builder. One whose report the builder refuses
comes back together with the reason.
-/

namespace LedgerText

/-- The errors reported so far. -/
structure Reports where
  /-- How many there are, those whose report was refused among them. -/
  count : Nat := 0
deriving DecidableEq

/-- Reports an error to the builder. -/
def Reports.submit {σ α : Type} (b : Builder σ α) (r : Reports) (error : LexicalError) (st : σ) :
    Except RefusedReport Unit × Reports × σ :=
  let (answer, st) := b.report error st
  (answer.mapError (⟨error, ·⟩), ⟨r.count + 1⟩, st)

end LedgerText
