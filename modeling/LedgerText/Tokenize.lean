import LedgerText.Scanner

/-!
# The tokens of a text
-/

namespace LedgerText

/-- The tokens of a whole text up to its end of file, under the usual options. The first error whose
report the builder refuses takes the place of all tokens. -/
def tokenize {σ α : Type} (b : Builder σ α) (text filename : String) (st : σ) :
    Except RefusedReport (List (Token α)) × σ :=
  (Scanner.start (Utf8.ofString text) filename {}).tokens b st

end LedgerText
