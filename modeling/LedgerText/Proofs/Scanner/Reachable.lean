import LedgerText.Proofs.Reading.Placed
import LedgerText.Scanner

/-!
# Reachable scanners

A scanner of a text is reachable if it comes about by starting it, asking it for tokens, starting it
again and closing it, in any order, with any builders.
-/

namespace LedgerText.Scanner

/-- The scanners of a text between calls. -/
inductive Reachable (text : String) : Scanner → Prop
  | start (filename : String) (options : Options) :
    Reachable text (.start (Utf8.ofString text) filename options)
  | next {σ α : Type} (b : Builder σ α) (st : σ) {s : Scanner} (h : Reachable text s) :
    Reachable text (s.next b st).2.1
  | restart (filename encoding : String) {s : Scanner} (h : Reachable text s) :
    Reachable text (s.restart filename encoding)
  | close {s : Scanner} (h : Reachable text s) : Reachable text s.close

/-- A reachable scanner knows where it is. -/
theorem Reachable.placed {text : String} {s : Scanner} (h : Reachable text s) :
    s.reading.Placed text := by
  induction h with
  | start filename options => exact .start _ _ _ _
  | next b st h ih =>
    rw [reading_next]
    exact ih.next
  | restart filename encoding h ih => exact ih.restart _ _
  | close h ih => exact ih.close

end LedgerText.Scanner
