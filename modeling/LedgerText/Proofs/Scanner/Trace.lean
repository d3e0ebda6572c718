import LedgerText.Proofs.Reading.Interchange
import LedgerText.Proofs.Scanner.Twins

/-!
# What a session shows

What can be seen of a scanner between calls is its `View`, and what can be seen of an operation is
`Seen`: what it comes to, which calls it makes to the builder, the state in which the builder is
then, and the view of the scanner. Operations one after another show a trace, where each may be done
for a builder of its own.

Scanners whose readings are interchangeable, and that count the same tokens and errors, show the
same under all operations (`Session.trace_eq`). For what becomes of a finding the reading does not
matter (`settle_withReading`).
-/

namespace LedgerText

open Builder

namespace Scanner

/-- What can be asked of a scanner between calls. -/
structure View where
  filename : String
  encoding : String
  mode : Mode
  line : Nat
  column : Nat
  endCount : Nat
  sinceLineStart : Nat
  /-- The number of errors that were reported. -/
  errors : Nat
  /-- How many bytes of a literal there is room for. -/
  room : Nat
deriving DecidableEq

/-- What can be seen of a scanner. -/
def view (s : Scanner) : View where
  filename := s.reading.tracker.filename
  encoding := s.reading.encoding
  mode := s.reading.mode
  line := s.reading.tracker.line
  column := s.reading.tracker.column
  endCount := s.reading.endCount
  sinceLineStart := s.sinceLineStart
  errors := s.reports.count
  room := s.reading.buffer.capacity

end Scanner

namespace Session

variable {σ α : Type}

/-- What can be seen of an operation. -/
structure Seen (σ α : Type) where
  /-- The outcome of a call for a token. -/
  outcome : Option (Outcome α)
  /-- The calls to the builder. -/
  calls : List Call
  /-- The state of the builder after the operation. -/
  state : σ
  /-- The scanner after the operation. -/
  view : Scanner.View
deriving DecidableEq

/-- What is seen of an operation that is done for a builder. -/
def seen (b : Builder σ α) (s : Session σ) (op : Operation) : Seen σ α where
  outcome := (s.perform b op).1
  calls := if op = .next then s.calls b else []
  state := (s.perform b op).2.state
  view := (s.perform b op).2.scanner.view

/-- What is seen of a call for a token. -/
theorem seen_next (b : Builder σ α) (s : Scanner) (st : σ) :
    (⟨s, st⟩ : Session σ).seen b .next =
      ⟨some (s.next b st).1, s.calls b st, (s.next b st).2.2, (s.next b st).2.1.view⟩ := rfl

/-- What is seen of operations one after another, each done for its builder. -/
def trace (s : Session σ) : List (Builder σ α × Operation) → List (Seen σ α)
  | [] => []
  | (b, op) :: steps => s.seen b op :: (s.perform b op).2.trace steps

end Session

/-! ## Interchangeable scanners -/

namespace Scanner

variable {σ α : Type} {s s' : Scanner}

/-- The scanners have interchangeable readings, and counted as many tokens of the line and as many
errors. -/
structure Interchangeable (s s' : Scanner) : Prop where
  reading : s.reading.Interchangeable s'.reading
  sinceLineStart : s'.sinceLineStart = s.sinceLineStart
  reports : s'.reports = s.reports

/-- What becomes of a rejected lexeme does not depend on the reading, which is kept. -/
theorem reject_withReading (b : Builder σ α) (s : Scanner) (reading : Reading) (fault : Fault)
    (text : String) (location : Location) (st : σ) :
    ({ s with reading } : Scanner).reject b fault text location st =
      ((s.reject b fault text location st).1,
        { (s.reject b fault text location st).2.1 with reading },
        (s.reject b fault text location st).2.2) := by
  unfold reject Reports.submit
  rcases b.report ⟨fault, location⟩ st with ⟨reason | done, st'⟩
  · rfl
  · rfl

/-- What becomes of a finding does not depend on the reading, which is kept. -/
theorem settle_withReading (b : Builder σ α) (s : Scanner) (reading : Reading) (finding : Finding)
    (st : σ) :
    ({ s with reading } : Scanner).settle b finding st =
      ((s.settle b finding st).1, { (s.settle b finding st).2.1 with reading },
        (s.settle b finding st).2.2) := by
  cases finding with
  | structural kind text location flags => rfl
  | terminal request text flags =>
    unfold settle
    dsimp only
    rcases b.construct request st with ⟨fault | value, st'⟩
    · exact reject_withReading b s reading fault text request.location st'
    · rfl
  | fault cause text location => exact reject_withReading b s reading cause text location st

namespace Interchangeable

/-- Interchangeable scanners look the same. -/
theorem view (h : Interchangeable s s') : s'.view = s.view := by
  have hroom := congrArg TextBuffer.capacity h.reading.room
  unfold Scanner.view
  rw [h.reading.tracker, h.reading.encoding, h.reading.mode, h.reading.endCount, h.sinceLineStart,
    h.reports]
  exact congrArg (View.mk _ _ _ _ _ _ _ _) hroom

/-- A call for a token comes to the same, asks and tells the builder the same, and leaves
interchangeable scanners. -/
theorem next (h : Interchangeable s s') (b : Builder σ α) (st : σ) :
    (s'.next b st).1 = (s.next b st).1 ∧ (s'.next b st).2.2 = (s.next b st).2.2 ∧
      s'.calls b st = s.calls b st ∧ Interchangeable (s.next b st).2.1 (s'.next b st).2.1 := by
  obtain ⟨hfinding, hafter⟩ := h.reading.next
  have hsame : ({ s' with reading := s'.reading.next.2 } : Scanner) =
      { s with reading := s'.reading.next.2 } := by
    rw [h.sinceLineStart, h.reports]
  have hnext : s.next b st = ({ s with reading := s.reading.next.2 } : Scanner).settle b
      s.reading.next.1 st := rfl
  have hnext' : s'.next b st = ({ s with reading := s'.reading.next.2 } : Scanner).settle b
      s.reading.next.1 st := by
    rw [← hfinding, ← hsame]
    rfl
  rw [settle_withReading] at hnext hnext'
  rw [calls_eq, calls_eq, hfinding, hnext, hnext']
  exact ⟨rfl, rfl, rfl, hafter, rfl, rfl⟩

/-- Scanners that are started again are interchangeable, if their readings are. -/
theorem restart (h : Interchangeable s s') (filename encoding : String) :
    Interchangeable (s.restart filename encoding) (s'.restart filename encoding) :=
  ⟨h.reading.restart filename encoding, rfl, rfl⟩

/-- Interchangeable scanners stay so when they are closed. -/
theorem close (h : Interchangeable s s') : Interchangeable s.close s'.close :=
  ⟨h.reading.close, h.sinceLineStart, h.reports⟩

end Interchangeable

end Scanner

namespace Session

variable {σ α : Type} {s s' : Scanner}

/-- An operation shows the same for interchangeable scanners, and leaves such scanners and the
builder in the same state. -/
theorem seen_eq (h : s.Interchangeable s') (b : Builder σ α) (st : σ) (op : Operation) :
    (⟨s', st⟩ : Session σ).seen b op = (⟨s, st⟩ : Session σ).seen b op ∧
      ((⟨s', st⟩ : Session σ).perform b op).2.state =
        ((⟨s, st⟩ : Session σ).perform b op).2.state ∧
      ((⟨s, st⟩ : Session σ).perform b op).2.scanner.Interchangeable
        ((⟨s', st⟩ : Session σ).perform b op).2.scanner := by
  cases op with
  | next =>
    obtain ⟨houtcome, hstate, hcalls, hafter⟩ := h.next b st
    refine ⟨?_, hstate, hafter⟩
    rw [seen_next, seen_next, houtcome, hcalls, hstate, hafter.view]
  | restart filename encoding =>
    have hafter := h.restart filename encoding
    exact ⟨congrArg (Seen.mk none [] st) hafter.view, rfl, hafter⟩
  | close => exact ⟨congrArg (Seen.mk none [] st) h.close.view, rfl, h.close⟩

/-- Interchangeable scanners show the same, whatever is done with them and for which builders. -/
theorem trace_eq (h : s.Interchangeable s') (st : σ) (steps : List (Builder σ α × Operation)) :
    (⟨s', st⟩ : Session σ).trace steps = (⟨s, st⟩ : Session σ).trace steps := by
  induction steps generalizing s s' st with
  | nil => rfl
  | cons step steps ih =>
    obtain ⟨b, op⟩ := step
    obtain ⟨hseen, hstate, hafter⟩ := seen_eq h b st op
    generalize hentry' : ((⟨s', st⟩ : Session σ).perform b op).2 = entry' at hstate hafter
    obtain ⟨scanner', state'⟩ := entry'
    obtain rfl : state' = _ := hstate
    rw [trace, trace, hseen, hentry']
    exact congrArg (_ :: ·) (ih hafter _)

end Session

end LedgerText
