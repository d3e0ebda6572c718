import LedgerText.Proofs.Reading.Onward
import LedgerText.Proofs.Scanner.Call

/-!
# The end of the source

In normal text at the end of the source a reading finds the signal of the end (`next_of_end`). The
first signal ends the last line, if that was chosen, and all later ones end the file. So the tokens
of a scanner at the end are the end of a line, which is not written, and the end of file
(`tokens_of_end`).
-/

namespace LedgerText

namespace Reading

variable {text : String} {before : List Char} {r : Reading} {location : Location}

/-- The first signal of the end ends the last line, if that was chosen. -/
theorem endOfInput_first (hcount : r.endCount = 0) (hterminate : r.options.terminateLastLine = true)
    (hclosed : r.closed = false) : r.endOfInput location =
      (.structural .endOfLine "" location { synthetic := true }, { r with endCount := 1 }) := by
  have hone : Count.clamp (0 + 1) = 1 := rfl
  unfold endOfInput
  rw [hcount, hone, hterminate, hclosed]
  rfl

/-- Every later signal ends the file. -/
theorem endOfInput_later (hcount : r.endCount ≠ 0) :
    r.endOfInput location = (.structural .endOfFile "" location {},
      { r with endCount := Count.clamp (r.endCount + 1) }) := by
  have hone : Count.clamp (r.endCount + 1) ≠ 1 := by
    unfold Count.clamp Count.limit
    omega
  unfold endOfInput
  simp [hone]

/-- At the end of the source the end is signalled. -/
theorem next_of_end (hmode : r.mode = .normal) (hclosed : r.closed = false)
    (h : Between text before [] r) : r.next = (r.move .text).endOfInput (r.tracker.locate []) := by
  have hlexeme := h.lexeme_endOfFile
  have htext : r.reader.text .text = [] := by
    rw [Reader.text, hlexeme]
    rfl
  have hstep : r.step = .found ((r.move .text).endOfInput (r.tracker.locate [])).1
      ((r.move .text).endOfInput (r.tracker.locate [])).2 := by
    rw [step, hmode]
    unfold stepText
    dsimp only
    rw [hlexeme, htext]
    rfl
  exact next_of_found hclosed hstep

/-- At the end of the source the last line is ended, if that was chosen, and then the file, at the
same place. -/
theorem exists_next_of_end (hmode : r.mode = .normal) (hclosed : r.closed = false)
    (hcount : r.endCount = 0) (hterminate : r.options.terminateLastLine = true)
    (h : Between text before [] r) :
    ∃ r', r.next = (.structural .endOfLine "" (r.tracker.locate []) { synthetic := true }, r') ∧
      r'.next.1 = .structural .endOfFile "" (r.tracker.locate []) {} := by
  have hfirst := (next_of_end hmode hclosed h).trans
    (endOfInput_first (r := r.move .text) hcount hterminate hclosed)
  -- The line is ended, and only the file is left to end.
  let last : Reading := { r.move .text with endCount := 1 }
  have hleft : Between text before [] last := h.move_end.congr rfl rfl
  have hcount' : (last.move .text).endCount ≠ 0 := Nat.one_ne_zero
  have hsecond := (next_of_end (r := last) hmode hclosed hleft).trans (endOfInput_later hcount')
  have htracker : last.tracker = r.tracker := hleft.tracker.trans h.tracker.symm
  refine ⟨last, hfirst, ?_⟩
  rw [hsecond]
  exact congrArg (fun t : Tracker => Finding.structural .endOfFile "" (t.locate []) {}) htracker

end Reading

namespace Scanner

variable {σ α : Type} {b : Builder σ α} {s s' : Scanner} {st st' : σ} {token : Token α}
  {text : String} {before : List Char}

/-- The end of file is the last token. -/
theorem tokens_of_next_end (h : s.next b st = (.ok token, s', st'))
    (hkind : token.kind = .endOfFile) : s.tokens b st = (.ok [token], st') := by
  rw [tokens]
  split
  · next refused hr =>
    rw [h] at hr
    cases hr
  · next token' ht =>
    rw [h] at ht
    cases ht
    rw [if_pos hkind, h]

/-- An error whose report is refused takes the place of all tokens. -/
theorem tokens_of_next_error {refused : RefusedReport}
    (h : s.next b st = (.error refused, s', st')) : s.tokens b st = (.error refused, st') := by
  rw [tokens]
  split
  · next refused' hr =>
    rw [h] at hr
    cases hr
    rw [h]
  · next token' ht =>
    rw [h] at ht
    cases ht

/-- Behind any other token are those of the scanner after it. -/
theorem tokens_of_next (h : s.next b st = (.ok token, s', st')) (hkind : token.kind ≠ .endOfFile) :
    s.tokens b st = ((s'.tokens b st').1.map (token :: ·), (s'.tokens b st').2) := by
  rw [tokens]
  split
  · next refused hr =>
    rw [h] at hr
    cases hr
  · next token' ht =>
    rw [h] at ht
    cases ht
    rw [if_neg hkind, h]

/-- At the end of the source the first tokens are a synthetic end of line and the end of file. -/
theorem tokens_of_end (h : Reading.Between text before [] s.reading)
    (hmode : s.reading.mode = .normal) (hclosed : s.reading.closed = false)
    (hcount : s.reading.endCount = 0) (hterminate : s.reading.options.terminateLastLine = true)
    (b : Builder σ α) (st : σ) :
    ∃ eol eof : Token α, s.tokens b st = (.ok [eol, eof], st) ∧ eol.kind = .endOfLine ∧
      eol.flags.synthetic = true ∧ eof.kind = .endOfFile := by
  obtain ⟨r, hfirst, hsecond⟩ := Reading.exists_next_of_end hmode hclosed hcount hterminate h
  obtain ⟨eol, s₁, hnext₁, hreading₁, hkind₁, -, -, -, hsynthetic⟩ := next_of_structural hfirst b st
  rw [← hreading₁] at hsecond
  obtain ⟨eof, s₂, hnext₂, -, hkind₂, -, -, -, -⟩ :=
    next_of_structural (Prod.ext hsecond rfl) b st
  have htokens₂ := tokens_of_next_end hnext₂ hkind₂
  have hne : eol.kind ≠ .endOfFile := by
    rw [hkind₁]
    decide
  refine ⟨eol, eof, ?_, hkind₁, hsynthetic, hkind₂⟩
  rw [tokens_of_next hnext₁ hne, htokens₂]
  rfl

end Scanner

end LedgerText
