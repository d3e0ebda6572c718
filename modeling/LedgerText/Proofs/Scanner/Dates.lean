import LedgerText.Builder.Scripted
import LedgerText.Proofs.Lexeme.Denotes
import LedgerText.Proofs.Reading.Lexeme

/-!
# Dates

What the rule for dates takes is three runs of digits, and decoding it gives their numbers exactly
if the runs fit (`Date.Written.decodes`). When a scanner comes to a date, it asks for the date if it
is decoded, and reports the first run that is too long if it is not (`ReadsDate`). Either way the
next lexeme is the one behind the date: a date that is refused was still recognized by its rule, so
nothing is thrown away after it.
-/

namespace LedgerText

open Grammar Utf8

namespace Date.Written

/-- What decoding a written date comes to. -/
structure Decodes (w : Written) : Prop where
  /-- The date is decoded exactly if its runs are not too long, to the numbers that they write. -/
  ok_iff : ∀ date, decode (String.ofList w.chars) = .ok date ↔
    (w.year.length = 4 ∧ w.month.length ≤ 2 ∧ w.day.length ≤ 2) ∧
      date = ⟨Nat.ofDigitChars 10 w.year 0, Nat.ofDigitChars 10 w.month 0,
        Nat.ofDigitChars 10 w.day 0⟩
  /-- The numbers are of as many digits as fit. -/
  lt : ∀ date, decode (String.ofList w.chars) = .ok date →
    date.year < 10000 ∧ date.month < 100 ∧ date.day < 100
  /-- If it is not decoded, the first run that is too long is refused. -/
  error_iff : ∀ overflow, decode (String.ofList w.chars) = .error overflow ↔
    w.overflow? = some overflow

/-- Every written date is decoded so. -/
theorem decodes (w : Written) : w.Decodes where
  ok_iff date := by rw [w.decode_eq_ok_iff, w.overflow?_eq_none_iff, value]
  lt date h := by
    obtain ⟨hfits, rfl⟩ := w.decode_eq_ok_iff.1 h
    exact value_lt hfits
  error_iff overflow := w.decode_eq_error_iff

end Date.Written

/-! ## Findings -/

namespace Reading

variable {text : String} {before after : List Char} {r : Reading} {w : Date.Written}

/-- The finding of a written date that stands at a location. -/
def dateFinding (w : Date.Written) (location : Location) : Finding :=
  match w.overflow? with
  | some overflow => .fault (.numericOverflow overflow) (String.ofList w.chars) location
  | none =>
    .terminal ⟨.date, String.ofList w.chars, location, .date w.value⟩ (String.ofList w.chars) {}

/-- What is made of a written date. -/
theorem ofLexeme?_date (w : Date.Written) (location : Location) :
    Finding.ofLexeme? .date (encode w.chars) location = some (dateFinding w location) := by
  unfold Finding.ofLexeme? dateFinding Sense.ofLexeme Sense.ofDate
  rw [toString_encode]
  dsimp only
  rw [w.decode_chars]
  cases w.overflow? <;> rfl

/-- A date leads to no recovery. -/
theorem modeAfter_dateFinding (w : Date.Written) (location : Location) :
    (dateFinding w location).modeAfter = .normal := by
  unfold dateFinding
  split <;> rfl

/-- A reading that comes to a date finds it, and stands behind it. -/
theorem next_date (hmode : r.mode = .normal) (hclosed : r.closed = false)
    (hdate : (r.reader.lexeme .text).tag = .date) (htext : r.reader.text .text = encode w.chars) :
    r.next = (dateFinding w (r.tracker.locate (encode w.chars)), r.move .text) := by
  have hfinding : Finding.ofLexeme? (r.reader.lexeme .text).tag (r.reader.text .text)
      (r.tracker.locate (r.reader.text .text)) =
      some (dateFinding w (r.tracker.locate (encode w.chars))) := by
    rw [hdate, htext, ofLexeme?_date]
  exact next_of_ofLexeme? hmode hclosed hfinding (modeAfter_dateFinding w _)

/-- A reading that comes to a date stands before its characters. -/
theorem exists_chars (h : Between text before after r) (hdate : (r.reader.lexeme .text).tag = .date)
    (htext : r.reader.text .text = encode w.chars) :
    ∃ rest, after = w.chars ++ rest ∧
      (r.reader.lexeme .text).length = (encode w.chars).length := by
  have hne : after ≠ [] := by
    rintro rfl
    rw [h.lexeme_endOfFile] at hdate
    cases hdate
  obtain ⟨lexeme, rest, rfl, -, hlen⟩ := exists_lexeme h hne
  have hlexeme : encode lexeme = encode w.chars :=
    (Reader.text_eq_encode h.rest hlen).symm.trans htext
  obtain rfl := encode_inj.1 hlexeme
  exact ⟨rest, rfl, hlen⟩

end Reading

/-! ## Tokens -/

namespace Scanner

variable {text : String} {before after : List Char} {s : Scanner} {w : Date.Written}

/-- The next call for a token reads the date that stands between two parts of the text. All of the
date is the text of the outcome, and has its location. -/
structure ReadsDate (text : String) (s : Scanner) (before : List Char) (w : Date.Written)
    (after : List Char) : Prop where
  /-- A date that is decoded is asked for. -/
  asks : w.overflow? = none → ∀ ⦃σ α : Type⦄ (b : Builder σ α) (st : σ),
    s.Asks b st
      ⟨.date, String.ofList w.chars,
        (Reading.trackerBehind text s.reading.tracker.filename before).locate (encode w.chars),
        .date w.value⟩
      (String.ofList w.chars) false ∧
    Resumes text (before ++ w.chars) after s (s.next b st).2.1
  /-- A date of which a run is too long is not asked for, and that run is reported. -/
  rejects : ∀ overflow, w.overflow? = some overflow →
    Rejects text s
      ⟨.numericOverflow overflow,
        (Reading.trackerBehind text s.reading.tracker.filename before).locate (encode w.chars)⟩
      (String.ofList w.chars) (before ++ w.chars) after

/-- What is found of a date becomes a request for it or a report. -/
theorem readsDate_of_next {r : Reading}
    (h : s.reading.next = (Reading.dateFinding w
      ((Reading.trackerBehind text s.reading.tracker.filename before).locate (encode w.chars)), r))
    (hbetween : Reading.Between text (before ++ w.chars) after r)
    (hgoes : Reading.GoesOn s.reading r) : s.ReadsDate text before w after where
  asks hfits σ α b st := by
    rw [Reading.dateFinding, hfits] at h
    exact ⟨asks_of_terminal h b st, resumes_of_next h hbetween hgoes b st⟩
  rejects overflow hoverflow := by
    rw [Reading.dateFinding, hoverflow] at h
    exact rejects_of_next h hbetween hgoes

/-- Whatever the rule for dates takes is a written date, which is decoded exactly if its runs fit.
When a reachable scanner of normal text comes to it, its next call asks for the date or reports the
first run that is too long, and goes on directly behind the date, in normal text. -/
theorem readsDate_of_date {reader : Reader} (hdate : (reader.lexeme .text).tag = .date) :
    ∃ w : Date.Written, reader.text .text = encode w.chars ∧ w.Decodes ∧
      ∀ ⦃text : String⦄ ⦃s : Scanner⦄, s.Reachable text → s.reading.closed = false →
        s.reading.mode = .normal → s.reading.reader.SkipsTo reader →
          (∃ before after, text.toList = before ++ (w.chars ++ after) ∧
            reader.pos = (encode before).length ∧ s.ReadsDate text before w after) ∧
          ∀ ⦃σ α : Type⦄ (b : Builder σ α) (st : σ),
            (s.next b st).2.1.reading.reader = reader.after .text := by
  have hmem := Reader.text_mem_pattern (r := reader) (by rw [hdate]; decide) (by rw [hdate]; decide)
  rw [hdate] at hmem
  obtain ⟨w, htext⟩ := Date.exists_written hmem
  refine ⟨w, htext, w.decodes, fun text s hs hclosed hmode hskip => ?_⟩
  obtain ⟨r, rfl, hplaced, hgoes, hnext⟩ := Reading.next_of_skipsTo hmode hclosed hs.placed hskip
  obtain ⟨before, rest, hbetween⟩ := hplaced.exists_between
  obtain ⟨after, rfl, hlen⟩ := Reading.exists_chars hbetween hdate htext
  have hfound := Reading.next_date (hgoes.mode.trans hmode) (hgoes.closed.trans hclosed) hdate htext
  rw [← hnext, hbetween.tracker, hgoes.filename] at hfound
  have hmove : Reading.GoesOn r (r.move .text) := .move r .text r.mode
  constructor
  · exact ⟨before, after, hbetween.split, hbetween.pos,
      readsDate_of_next hfound (hbetween.move hlen) (hgoes.trans hmove)⟩
  · intro σ α b st
    rw [reading_next, hfound]
    rfl

/-- Behind a number and a blank the month of a date is too long. -/
theorem readsDate_of_date_month :
    let text := "1 2024/123-001 x"
    let s : Scanner := ((start (ofString text) "f" {}).next Scripted.builder {}).2.1
    let reader := s.reading.reader.after .text
    (reader.lexeme .text).tag = .date ∧ s.Reachable text ∧ s.reading.closed = false ∧
      s.reading.mode = .normal ∧ s.reading.reader.SkipsTo reader ∧
      ∃ w : Date.Written, reader.text .text = encode w.chars ∧ w.Decodes ∧
        w.overflow? = some ⟨"123", 2⟩ ∧
        ∃ before after, text.toList = before ++ (w.chars ++ after) ∧
          reader.pos = (encode before).length ∧ s.ReadsDate text before w after := by
  intro text s reader
  have hdate : (reader.lexeme .text).tag = .date := by decide +kernel
  have hs : s.Reachable text := .next _ _ (.start "f" {})
  have hskip : s.reading.reader.SkipsTo reader := .blank (by decide +kernel) (.refl _)
  have hclosed : s.reading.closed = false := by decide +kernel
  have hmode : s.reading.mode = .normal := by decide +kernel
  obtain ⟨w, htext, hdecodes, hreads⟩ := readsDate_of_date hdate
  have hoverflow : Date.decode (String.ofList w.chars) = .error ⟨"123", 2⟩ := by
    rw [← toString_encode, ← htext]
    decide +kernel
  exact ⟨hdate, hs, hclosed, hmode, hskip, w, htext, hdecodes, (hdecodes.error_iff _).1 hoverflow,
    (hreads hs hclosed hmode hskip).1⟩

end Scanner

end LedgerText
