import LedgerText.Scanner

/-!
# Sessions

A session uses a scanner over its whole life: it asks for tokens, starts the scanner again, and
closes it, in any order.
-/

namespace LedgerText

/-- What may be done with a scanner. -/
inductive Operation where
  /-- Asks for the next token. -/
  | next
  /-- Starts again under another name of the file and the encoding. -/
  | restart (filename encoding : String)
  /-- Closes the scanner. -/
  | close
deriving DecidableEq

/-- A scanner and a builder's state. -/
structure Session (σ : Type) where
  /-- The scanner. -/
  scanner : Scanner
  /-- The state of the builder. -/
  state : σ

namespace Session

variable {σ α : Type}

/-- Does one operation; only a request for a token has an outcome. -/
def perform (b : Builder σ α) (s : Session σ) : Operation → Option (Outcome α) × Session σ
  | .next =>
    let (outcome, scanner, state) := s.scanner.next b s.state
    (some outcome, ⟨scanner, state⟩)
  | .restart filename encoding => (none, { s with scanner := s.scanner.restart filename encoding })
  | .close => (none, { s with scanner := s.scanner.close })

/-- Does operations one after another, and keeps what each of them comes to. -/
def run (b : Builder σ α) (s : Session σ) : List Operation → List (Option (Outcome α) × Session σ)
  | [] => []
  | op :: ops =>
    let entry := s.perform b op
    entry :: entry.2.run b ops

end Session

end LedgerText
