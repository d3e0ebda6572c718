import LedgerText.Reading.Next
import LedgerText.Reports
import LedgerText.Token

/-!
# Scanners

A scanner makes tokens of the findings of a reading. It asks a builder for the values of terminals
and reports faults to it; where a fault is reported, a token of kind `Kind.lexError` takes the place
of the lexeme, unless the builder refuses the report. A token is the first of its line if no other
was made since the last end of line.
-/

namespace LedgerText

/-- A reading, and what depends on the builder's answers. -/
structure Scanner where
  /-- How far the source is read. -/
  reading : Reading
  /-- How many tokens were made since the line started. -/
  sinceLineStart : Nat := 0
  /-- The errors reported. -/
  reports : Reports := {}
deriving DecidableEq

/-- A token, or the error whose report was refused in its place. -/
abbrev Outcome (α : Type) := Except RefusedReport (Token α)

/-- Whether an outcome is the token that ends the file. -/
def Outcome.isEnd {α : Type} : Outcome α → Bool
  | .ok token => token.kind = .endOfFile
  | .error _ => false

namespace Scanner

variable {σ α : Type}

/-- A scanner at the start of a source. -/
def start (source : Bytes) (filename : String) (options : Options) : Scanner where
  reading := .start source options filename options.encoding

/-- The scanner of the same source at its start, for another name of the file and the encoding. -/
def restart (s : Scanner) (filename encoding : String) : Scanner where
  reading := s.reading.restart filename encoding

/-- The scanner that finds no more than the end of the source. -/
def close (s : Scanner) : Scanner := { s with reading := s.reading.close }

/-- Makes a token. -/
def emit (s : Scanner) (kind : Kind) (text : String) (location : Location) (value : Option α)
    (flags : Flags) : Token α × Scanner :=
  let first := s.sinceLineStart = 0 && kind != .endOfFile
  let sinceLineStart := if kind = .endOfLine then 0 else Count.clamp (s.sinceLineStart + 1)
  (⟨kind, text, location, value, { flags with lineStart := flags.lineStart || first }⟩,
    { s with sinceLineStart })

/-- Reports a fault, and makes the token that stands for it. -/
def reject (b : Builder σ α) (s : Scanner) (fault : Fault) (text : String) (location : Location)
    (st : σ) : Outcome α × Scanner × σ :=
  match s.reports.submit b ⟨fault, location⟩ st with
  | (.ok (), reports, st) =>
    let (token, s) := { s with reports }.emit .lexError text location none {}
    (.ok token, s, st)
  | (.error refused, reports, st) => (.error refused, { s with reports }, st)

/-- What becomes of a finding. -/
def settle (b : Builder σ α) (s : Scanner) (finding : Finding) (st : σ) : Outcome α × Scanner × σ :=
  match finding with
  | .structural kind text location flags =>
    let (token, s) := s.emit kind text location none flags
    (.ok token, s, st)
  | .terminal request text flags =>
    match b.construct request st with
    | (.ok value, st) =>
      let (token, s) := s.emit request.kind text request.location (some value) flags
      (.ok token, s, st)
    | (.error fault, st) => s.reject b fault text request.location st
  | .fault fault text location => s.reject b fault text location st

/-- The next token. -/
def next (b : Builder σ α) (s : Scanner) (st : σ) : Outcome α × Scanner × σ :=
  let (finding, reading) := s.reading.next
  { s with reading }.settle b finding st

/-! ## The builder does not touch the reading -/

/-- Reporting a fault keeps the reading. -/
theorem reading_reject (b : Builder σ α) (s : Scanner) (fault : Fault) (text : String)
    (location : Location) (st : σ) :
    (s.reject b fault text location st).2.1.reading = s.reading := by
  unfold reject
  split <;> rfl

/-- Whatever becomes of a finding, the reading is kept. -/
theorem reading_settle (b : Builder σ α) (s : Scanner) (finding : Finding) (st : σ) :
    (s.settle b finding st).2.1.reading = s.reading := by
  unfold settle
  split
  · rfl
  · split
    · rfl
    · exact reading_reject ..
  · exact reading_reject ..

/-- The reading goes on the same way under every builder. -/
theorem reading_next (b : Builder σ α) (s : Scanner) (st : σ) :
    (s.next b st).2.1.reading = s.reading.next.2 :=
  reading_settle ..

/-! ## The end of file is reached -/

/-- The end of file becomes the token that ends the file. -/
theorem isEnd_settle (b : Builder σ α) (s : Scanner) {finding : Finding} (st : σ)
    (h : finding.isEnd = true) : (s.settle b finding st).1.isEnd = true := by
  cases finding with
  | structural kind text location flags => exact h
  | terminal request text flags => cases h
  | fault fault text location => cases h

/-- Every outcome but the end of file leaves a lighter reading. -/
theorem weight_next {b : Builder σ α} {s : Scanner} {st : σ}
    (h : (s.next b st).1.isEnd = false) :
    (s.next b st).2.1.reading.weight < s.reading.weight := by
  rw [reading_next]
  rcases s.reading.weight_next with hend | hlt
  · have : (s.next b st).1.isEnd = true := isEnd_settle _ _ _ hend
    simp [this] at h
  · exact hlt

/-! ## All tokens -/

/-- The tokens up to the end of file, or the first error whose report is refused. -/
def tokens (b : Builder σ α) (s : Scanner) (st : σ) : Except RefusedReport (List (Token α)) × σ :=
  let entry := s.next b st
  match _ : entry.1 with
  | .error refused => (.error refused, entry.2.2)
  | .ok token =>
    if token.kind = .endOfFile then (.ok [token], entry.2.2)
    else
      let rest := entry.2.1.tokens b entry.2.2
      (rest.1.map (token :: ·), rest.2)
termination_by s.reading.weight
decreasing_by
  refine weight_next ?_
  rw [show (s.next b st).1 = .ok token from ‹_›]
  simpa [Outcome.isEnd]

/-- The outcomes up to the end of file, each with the scanner and the builder after it. -/
def drain (b : Builder σ α) (s : Scanner) (st : σ) : List (Outcome α × Scanner × σ) :=
  let entry := s.next b st
  if entry.1.isEnd then [entry] else entry :: entry.2.1.drain b entry.2.2
termination_by s.reading.weight
decreasing_by exact weight_next (Bool.eq_false_iff.2 ‹_›)

end Scanner

end LedgerText
