import LedgerText.Proofs.Scanner.Twins

/-!
# What happened since the last start

The history of a session is what happened to it since its scanner was last started: the calls for
tokens, each with its outcome and the calls to the builder, and the closing of the scanner. To start
the scanner again begins a new history.
-/

namespace LedgerText.Session

open Builder

variable {σ α : Type}

/-- What may happen to a session between two starts. -/
inductive Event (α : Type) where
  /-- A call for a token came to the outcome, with the calls to the builder. -/
  | call (outcome : Outcome α) (calls : List Call)
  /-- The scanner was closed. -/
  | close

/-- The calls to the builder. -/
def Event.calls : Event α → List Call
  | call _ calls => calls
  | close => []

/-- The history after one more operation on a session with the history `past`. -/
def remember (b : Builder σ α) (s : Session σ) (past : List (Event α)) :
    Operation → List (Event α)
  | .next => past ++ [.call (s.outcome b) (s.calls b)]
  | .restart _ _ => []
  | .close => past ++ [.close]

/-- The history of a session after operations. -/
def history (b : Builder σ α) (s : Session σ) (ops : List Operation) : List (Event α) :=
  (ops.foldl (fun entry op => ((entry.1.perform b op).2, entry.1.remember b entry.2 op))
    (s, ([] : List (Event α)))).2

/-- One more operation adds to the history what happens to the session after the others. -/
theorem history_concat (b : Builder σ α) (s : Session σ) (ops : List Operation) (op : Operation) :
    s.history b (ops ++ [op]) = (s.after b ops).remember b (s.history b ops) op := by
  have hafter : (ops.foldl (fun entry op => ((entry.1.perform b op).2,
      entry.1.remember b entry.2 op)) (s, ([] : List (Event α)))).1 = s.after b ops := by
    induction ops using List.reverseRecOn with
    | nil => rfl
    | append_singleton ops op ih =>
      rw [List.foldl_append, List.foldl_cons, List.foldl_nil, ih, after_concat]
  rw [history, List.foldl_append, List.foldl_cons, List.foldl_nil, hafter]
  rfl

end LedgerText.Session
