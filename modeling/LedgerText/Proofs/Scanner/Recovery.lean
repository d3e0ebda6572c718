import LedgerText.Proofs.Reading.Lexes
import LedgerText.Proofs.Scanner.Lifecycle
import LedgerText.Proofs.Scanner.Located

/-!
# Recovery stays on its line

After input that no rule recognizes the next call for a token throws away the rest of the line. It
asks the builder for nothing and tells it of nothing: it makes the end of that line, or signals the
end of the source where no line feed is left (`recovers_of_report`). Whatever stands before the line
feed has no effect, a quote or a comment no more than another unrecognized byte. So there is one
such error on a line at most (`lineAt_lt_of_reports`).

The line of an error is told by the offset behind its lexeme, since the lexeme holds no line feed
(`exists_lexes_of_report`).
-/

namespace LedgerText

open Builder Utf8 Reading

/-! ## The next line feed -/

/-- The first line feed of a source from the offset `start` on stands at the offset `q`. -/
def IsNextLineFeed (source : Bytes) (start q : Nat) : Prop :=
  start ≤ q ∧ source[q]? = some Byte.lineFeed ∧
    ∀ p < q, start ≤ p → source[p]? ≠ some Byte.lineFeed

instance (source : Bytes) (start q : Nat) : Decidable (IsNextLineFeed source start q) :=
  inferInstanceAs (Decidable (_ ∧ _ ∧ ∀ p < q, start ≤ p → source[p]? ≠ some Byte.lineFeed))

namespace IsNextLineFeed

variable {source before skipped rest : Bytes} {start p q : Nat}

/-- There is one next line feed at most. -/
theorem unique (hp : IsNextLineFeed source start p) (hq : IsNextLineFeed source start q) :
    p = q := by
  obtain ⟨hstart, hfeed, hfirst⟩ := hp
  obtain ⟨hstart', hfeed', hfirst'⟩ := hq
  rcases Nat.lt_trichotomy p q with hlt | heq | hlt
  · exact absurd hfeed (hfirst' p hlt hstart)
  · exact heq
  · exact absurd hfeed' (hfirst q hlt hstart')

/-- Behind bytes without a line feed the next byte may be one. -/
theorem of_append (h : Byte.lineFeed ∉ skipped) :
    IsNextLineFeed (before ++ (skipped ++ Byte.lineFeed :: rest)) before.length
      (before.length + skipped.length) := by
  refine ⟨Nat.le_add_right _ _, ?_, fun p hlt hp hfeed => ?_⟩
  · rw [List.getElem?_append_right (Nat.le_add_right _ _), Nat.add_sub_cancel_left,
      List.getElem?_append_right (Nat.le_refl _), Nat.sub_self]
    rfl
  · rw [List.getElem?_append_right hp, List.getElem?_append_left (by omega)] at hfeed
    exact h (List.mem_of_getElem? hfeed)

/-- Where no line feed is left there is no next one. -/
theorem not_append (h : Byte.lineFeed ∉ rest) :
    ¬IsNextLineFeed (before ++ rest) before.length q := by
  rintro ⟨hstart, hfeed, -⟩
  rw [List.getElem?_append_right hstart] at hfeed
  exact h (List.mem_of_getElem? hfeed)

/-- Behind the next line feed there is a later line. -/
theorem lineAt_lt (h : IsNextLineFeed source start q) (horigin : Reader.origin source ≤ start) :
    Location.lineAt source start < Location.lineAt source (q + 1) := by
  obtain ⟨hstart, hfeed, -⟩ := h
  obtain ⟨hlt, -⟩ := List.getElem?_eq_some_iff.1 hfeed
  obtain ⟨n, rfl⟩ := Nat.exists_eq_add_of_le hstart
  have hmem : Byte.lineFeed ∈ (source.drop start).take (n + 1) := by
    refine List.mem_iff_getElem?.2 ⟨n, ?_⟩
    rw [List.getElem?_take_of_lt (Nat.lt_succ_self n), List.getElem?_drop, hfeed]
  have hpos := List.count_pos_iff.2 hmem
  rw [Nat.add_assoc, Location.lineAt_add horigin (by omega)]
  omega

end IsNextLineFeed

namespace Reading

variable {text : String} {before skipped after : List Char} {r : Reading}

/-! ## Lines of places -/

/-- A reading is on the line of its offset, as far as lines are counted. -/
theorem Between.line_eq (h : Between text before after r) :
    r.tracker.line = Count.clamp (Location.lineAt (ofString text) r.reader.pos) := by
  have hsource : ofString text = encode before ++ encode after := by
    rw [ofString, h.split, encode_append]
  rw [h.tracker, h.pos, Location.lineAt_length hsource]
  rfl

/-- No more lines are counted than there are bytes before an offset, and one. -/
theorem lineAt_le (source : Bytes) (offset : Nat) :
    Location.lineAt source offset ≤ 1 + offset := by
  have hcount := List.count_le_length (a := Byte.lineFeed)
    (l := (source.take offset).drop (Reader.origin source))
  rw [List.length_drop, List.length_take] at hcount
  rw [Location.lineAt]
  omega

/-- Where all bytes can be counted, the counted line and column of a byte are its place. -/
theorem clamped_eq_atOffset {source : Bytes} {q : Nat} (hsize : source.length ≤ Count.limit)
    (hlt : q < source.length) (filename : String) :
    { filename
      line := Count.clamp (Location.lineAt source q)
      firstColumn := Count.clamp (Location.columnAt source q)
      lastColumn := Count.clamp (Location.columnAt source q) } =
      Location.atOffset source filename q 1 := by
  have hline := lineAt_le source q
  have hcolumn : Location.columnAt source q ≤ 1 + q := by
    unfold Location.columnAt
    omega
  have hone : max 1 1 = 1 := rfl
  rw [Location.atOffset, Count.clamp_of_le (by omega), Count.clamp_of_le (by omega), hone,
    Nat.add_sub_cancel]

/-- A reading is in the column of its offset, as far as columns are counted. -/
theorem Between.column_eq (h : Between text before after r) :
    r.tracker.column = Count.clamp (Location.columnAt (ofString text) r.reader.pos) := by
  have hsource : ofString text = encode before ++ encode after := by
    rw [ofString, h.split, encode_append]
  have horigin := h.placed.origin_le
  rw [h.placed.source, h.pos] at horigin
  rw [h.tracker, h.pos, Location.columnAt_length horigin hsource]
  rfl

/-- From a reading on, the line feeds of the characters before an offset are counted. -/
theorem Between.lineAt_append (h : Between text before (skipped ++ after) r) :
    Location.lineAt (ofString text) (encode (before ++ skipped)).length =
      Location.lineAt (ofString text) (encode before).length + skipped.count '\n' := by
  have horigin := h.placed.origin_le
  rw [h.placed.source, h.pos] at horigin
  have hsource : ofString text = encode before ++ (encode skipped ++ encode after) := by
    rw [ofString, h.split, encode_append, encode_append]
  have hle : (encode before).length ≤ (ofString text).length := by
    rw [hsource, List.length_append]
    exact Nat.le_add_right _ _
  rw [encode_append, List.length_append, Location.lineAt_add horigin hle, hsource, List.drop_left,
    List.take_left, count_encode (d := '\n') (by decide) (by decide)]

/-! ## After an error -/

/-- A reading in recovery goes on before the next line feed, or where nothing is left. -/
theorem exists_next_of_recovery (hmode : r.mode = .recovery) (hclosed : r.closed = false)
    (h : Between text before after r) :
    ∃ skipped rest r₁, after = skipped ++ rest ∧ '\n' ∉ skipped ∧
      (rest = [] ∨ ∃ cs, rest = '\n' :: cs) ∧ r₁.mode = .normal ∧ r₁.closed = false ∧
      r₁.tracker.filename = r.tracker.filename ∧ Between text (before ++ skipped) rest r₁ ∧
      r.next = r₁.next := by
  have hrests : r.Rests := ⟨by rw [hmode]; decide, fun h => by rw [hclosed] at h; cases h⟩
  obtain ⟨skipped, rest, r₁, rfl, hpasses, hbetween, hgoes, hnext, -⟩ :=
    exists_ready h hrests hclosed
  rw [hmode] at hpasses
  refine ⟨skipped, rest, r₁, rfl, hpasses.1, ?_, hgoes.mode, hgoes.closed.trans hclosed,
    hgoes.filename, hbetween, hnext⟩
  rcases rest with - | ⟨c, cs⟩
  · exact .inl rfl
  · exact .inr ⟨cs, by rw [hpasses.2 c cs rfl]⟩

end Reading

namespace Scanner

variable {σ α : Type} {text : String} {s : Scanner} {b : Builder σ α} {st : σ} {byte : UInt8}
  {location : Location}

/-- Input that no rule recognizes is reported of a lexeme without a line feed, behind which the
scanner goes on in recovery. -/
theorem exists_lexes_of_report (h : s.Reachable text)
    (hreport : .report ⟨.unrecognizedByte byte, location⟩ ∈ s.calls b st) :
    ∃ before skipped lexeme after contents r₁,
      Comes text s.reading before skipped lexeme after
        (.fault (.unrecognizedByte byte) contents location) s.reading.next.2 ∧
      Lexes text r₁ (before ++ skipped) lexeme after
        (.fault (.unrecognizedByte byte) contents location) s.reading.next.2 ∧
      '\n' ∉ lexeme ∧ s.reading.closed = false := by
  obtain ⟨contents, hfinding⟩ := (report_mem_calls_iff rfl rfl).1 hreport
  have hnext : s.reading.next =
      (.fault (.unrecognizedByte byte) contents location, s.reading.next.2) :=
    Prod.ext hfinding rfl
  have hclosed : s.reading.closed = false := by
    obtain ⟨before, skipped, lexeme, after, finding, r, hcomes⟩ := h.exists_comes
    rw [Bool.eq_false_iff]
    intro hclosed
    have hsignals := hcomes.ofClosed hclosed
    rw [(Prod.mk.inj (hcomes.next.symm.trans hnext)).1] at hsignals
    cases hsignals
  obtain ⟨before, after, hbetween⟩ := h.placed.exists_between
  obtain ⟨skipped, lexeme, rest, r₁, rfl, hcomes, hlexes⟩ :=
    exists_lexes hbetween h.rests hclosed hnext rfl
  refine ⟨before, skipped, lexeme, rest, contents, r₁, hcomes, hlexes, fun hline => ?_, hclosed⟩
  -- A line feed is recognized.
  have hfound := hlexes.found
  rw [(hlexes.eq_newline hline).2] at hfound
  cases hfound

/-- What comes of an error at the given location: the lexeme holds no line feed, and the next call
does not ask the builder. -/
structure Recovers (text : String) (b : Builder σ α) (s : Scanner) (st : σ)
    (location : Location) : Prop where
  /-- The lexeme of the error holds no line feed. -/
  lexeme : ∃ before skipped lexeme after,
    s.Reads text b st (s.reading.mode = .recovery) before skipped lexeme after ∧ '\n' ∉ lexeme
  /-- So the error is on the line of the offset behind its lexeme. -/
  line : location.line = Count.clamp (Location.lineAt (ofString text) (s.offsetAt b st 1))
  /-- The next call leaves the builder alone. -/
  calls : s.callsAt b st 1 = []
  /-- It makes the end of the line of the error, where the next line feed stands, and then the
  scanner is in normal text again. -/
  endOfLine : ∀ q, IsNextLineFeed (ofString text) (s.offsetAt b st 1) q →
    s.outcomeAt b st 1 = .ok
        { kind := .endOfLine
          text := "\n"
          location :=
            { filename := location.filename
              line := location.line
              firstColumn := Count.clamp (Location.columnAt (ofString text) q)
              lastColumn := Count.clamp (Location.columnAt (ofString text) q) }
          value := none
          flags := { lineStart := (s.afterCalls b st 1).1.sinceLineStart = 0 } } ∧
      location.line = Count.clamp (Location.lineAt (ofString text) q) ∧
      ((ofString text).length ≤ Count.limit → Outcome.location (s.outcomeAt b st 1) =
        .atOffset (ofString text) location.filename q 1) ∧
      s.offsetAt b st 2 = q + 1 ∧ (s.afterCalls b st 2).1.reading.mode = .normal
  /-- Without a line feed it signals the end of the source. -/
  endOfSource : (∀ q, ¬IsNextLineFeed (ofString text) (s.offsetAt b st 1) q) →
    Outcome.signalsEnd (s.outcomeAt b st 1) = true ∧ s.offsetAt b st 2 = (ofString text).length

/-- In recovery a call makes the end of the line where the next line feed stands, or signals the end
of the source where there is none. -/
theorem next_of_recovery (h : s.Reachable text) (hmode : s.reading.mode = .recovery)
    (hclosed : s.reading.closed = false) (b : Builder σ α) (st : σ) :
    s.calls b st = [] ∧
      ((∃ q, IsNextLineFeed (ofString text) s.reading.reader.pos q ∧
          (s.next b st).1 = .ok
            { kind := .endOfLine
              text := "\n"
              location :=
                { filename := s.reading.tracker.filename
                  line := s.reading.tracker.line
                  firstColumn := Count.clamp (Location.columnAt (ofString text) q)
                  lastColumn := Count.clamp (Location.columnAt (ofString text) q) }
              value := none
              flags := { lineStart := s.sinceLineStart = 0 } } ∧
          Location.lineAt (ofString text) s.reading.reader.pos =
            Location.lineAt (ofString text) q ∧
          (s.next b st).2.1.reading.reader.pos = q + 1 ∧
          (s.next b st).2.1.reading.mode = .normal) ∨
        (∀ q, ¬IsNextLineFeed (ofString text) s.reading.reader.pos q) ∧
          Outcome.signalsEnd (s.next b st).1 = true ∧
          (s.next b st).2.1.reading.reader.pos = (ofString text).length) := by
  obtain ⟨before, after, hbetween⟩ := h.placed.exists_between
  obtain ⟨skipped, rest, r, rfl, hskipped, hrest, hmode', hclosed', hname, hbehind, hnext⟩ :=
    exists_next_of_recovery hmode hclosed hbetween
  have hnotMem : Byte.lineFeed ∉ encode skipped := notMem_encode (by decide) (by decide) hskipped
  rw [reading_next, hnext]
  rcases hrest with rfl | ⟨cs, rfl⟩
  · have hend := next_of_end hmode' hclosed' hbehind
    obtain ⟨before', skipped', lexeme, after, finding, r', hcomes⟩ := h.exists_comes
    have hsignals := signalsEnd_next hcomes.next hcomes.finds b st
    have hfinding : finding = ((r.move .text).endOfInput (r.tracker.locate [])).1 :=
      (congrArg Prod.fst (hcomes.next.symm.trans (hnext.trans hend)))
    have hsource : ofString text = encode before ++ encode skipped := by
      rw [ofString, hbetween.split, List.append_nil, encode_append]
    refine ⟨?_, .inr ⟨fun q => ?_, ?_, ?_⟩⟩
    · rw [calls_eq, hnext, hend, finding_endOfInput]
      split <;> rfl
    · rw [hbetween.pos, hsource]
      exact IsNextLineFeed.not_append hnotMem
    · rw [hsignals, hfinding]
      exact (Reading.signalsEnd_endOfInput _ _).1
    · rw [hend]
      exact hbehind.move_end.pos_of_end
  · obtain ⟨hfound, hstop, -⟩ := next_of_lineFeed hmode' hclosed' hbehind
    have hfinding : s.reading.next.1 =
        .structural .endOfLine "\n" (r.tracker.locate (encode ['\n'])) {} := by
      rw [hnext, hfound]
    obtain ⟨htoken, hcalls, -⟩ := next_of_structural_finding hfinding b st
    have hpos : r.reader.pos = (encode before).length + (encode skipped).length := by
      rw [hbehind.pos, encode_append, List.length_append]
    have hline : Location.lineAt (ofString text) s.reading.reader.pos =
        Location.lineAt (ofString text) r.reader.pos := by
      rw [hbetween.pos, hbehind.pos, hbetween.lineAt_append, List.count_eq_zero.2 hskipped,
        Nat.add_zero]
    have hlocate : r.tracker.locate (encode ['\n']) =
        { filename := s.reading.tracker.filename
          line := s.reading.tracker.line
          firstColumn := Count.clamp (Location.columnAt (ofString text) r.reader.pos)
          lastColumn := Count.clamp (Location.columnAt (ofString text) r.reader.pos) } := by
      have hone : max (encode ['\n']).length 1 - 1 = 0 := rfl
      rw [Tracker.locate, Location.spanning, hone, hbehind.line_eq, hbehind.column_eq,
        hbetween.line_eq, hline, hname, Count.clamp_clamp_add, Nat.add_zero]
    refine ⟨hcalls, .inl ⟨r.reader.pos, ?_, ?_, hline, ?_, ?_⟩⟩
    · have hsource : ofString text = encode before ++ (encode skipped ++
          Byte.lineFeed :: encode cs) := by
        rw [ofString, hbetween.split, encode_append, encode_append]
        rfl
      rw [hbetween.pos, hpos, hsource]
      exact IsNextLineFeed.of_append hnotMem
    · rw [htoken, hlocate]
      simp
    · rw [hfound, hstop.pos, encode_append, List.length_append, hbehind.pos]
      rfl
    · rw [hfound]
      exact hmode'

/-- After input that no rule recognizes the scanner recovers on its line. -/
theorem recovers_of_report (h : s.Reachable text)
    (hreport : .report ⟨.unrecognizedByte byte, location⟩ ∈ s.calls b st) :
    s.Recovers text b st location := by
  obtain ⟨before, skipped, lexeme, after, contents, r, hcomes, hlexes, hline, hclosed⟩ :=
    exists_lexes_of_report h hreport
  have hreading : (s.afterCalls b st 1).1.reading = s.reading.next.2 := reading_next b s st
  have hmode : (s.afterCalls b st 1).1.reading.mode = .recovery := by
    rw [hreading]
    exact hcomes.mode
  have hclosed' : (s.afterCalls b st 1).1.reading.closed = false := by
    rw [hreading]
    exact hcomes.closed.trans hclosed
  -- The error is on the line, and in the file, of the place behind its lexeme.
  have hadjoins := hlexes.adjoins hline
  have hsame : (s.afterCalls b st 1).1.reading.tracker.line = location.line := by
    rw [hreading]
    exact hadjoins.line
  have hname : (s.afterCalls b st 1).1.reading.tracker.filename = location.filename := by
    rw [hreading]
    exact hadjoins.filename
  have hcount : location.line =
      Count.clamp (Location.lineAt (ofString text) (s.offsetAt b st 1)) := by
    obtain ⟨before, after, hbetween⟩ := (h.afterCalls b st 1).placed.exists_between
    exact hsame.symm.trans hbetween.line_eq
  obtain ⟨hcalls, hnext⟩ :=
    next_of_recovery (h.afterCalls b st 1) hmode hclosed' b (s.afterCalls b st 1).2
  rw [hsame, hname] at hnext
  refine
    { lexeme := ⟨before, skipped, lexeme, after, reads_of_comes hcomes b st, hline⟩
      line := hcount
      calls := hcalls
      endOfLine := fun q hq => ?_
      endOfSource := fun hnone => ?_ }
  · rcases hnext with ⟨q', hq', htoken, hlineq, hpos, hnormal⟩ | ⟨hnone, -⟩
    · obtain rfl := hq.unique hq'
      have hlocation : location.line = Count.clamp (Location.lineAt (ofString text) q) := by
        rw [hcount]
        exact congrArg Count.clamp hlineq
      refine ⟨htoken, hlocation, fun hsize => ?_, hpos, hnormal⟩
      obtain ⟨hlt, -⟩ := List.getElem?_eq_some_iff.1 hq.2.1
      rw [show s.outcomeAt b st 1 = _ from htoken, Outcome.location, hlocation]
      exact clamped_eq_atOffset hsize hlt location.filename
    · exact absurd hq (hnone q)
  · rcases hnext with ⟨q, hq, -⟩ | ⟨-, hsignals, hpos⟩
    · exact absurd hq (hnone q)
    · exact ⟨hsignals, hpos⟩

/-! ## Errors on different lines -/

/-- Along a run no call goes back. -/
theorem offsetAt_mono (h : s.Reachable text) (b : Builder σ α) (st : σ) :
    Monotone (s.offsetAt b st) :=
  monotone_nat_of_le_succ fun n => pos_le_next (h.afterCalls b st n) b _

/-- Up to the end of the text offsets are on lines in their order. -/
theorem lineAt_le_of_le (h : s.Reachable text) {offset later : Nat}
    (hfrom : s.reading.reader.pos ≤ offset) (hle : offset ≤ later)
    (hlater : later ≤ (ofString text).length) :
    Location.lineAt (ofString text) offset ≤ Location.lineAt (ofString text) later := by
  have horigin := h.placed.origin_le
  rw [h.placed.source] at horigin
  rcases Location.le_of_offset_le (Nat.le_trans horigin hfrom) (Nat.le_trans hle hlater) hle with
    hlt | ⟨heq, -⟩
  · exact Nat.le_of_lt hlt
  · exact Nat.le_of_eq heq

/-- A scanner stays in its text. -/
theorem Reachable.pos_le (h : s.Reachable text) :
    s.reading.reader.pos ≤ (ofString text).length := by
  rw [← h.placed.source]
  exact h.placed.boundary.le_length

/-- A later error of a run is on a later line. -/
theorem lineAt_lt_of_reports (h : s.Reachable text) {i j : Nat} (hij : i < j) {byte' : UInt8}
    {location' : Location}
    (hi : .report ⟨.unrecognizedByte byte, location⟩ ∈ s.callsAt b st i)
    (hj : .report ⟨.unrecognizedByte byte', location'⟩ ∈ s.callsAt b st j) :
    Location.lineAt (ofString text) (s.offsetAt b st (i + 1)) <
      Location.lineAt (ofString text) (s.offsetAt b st (j + 1)) := by
  have hmono := offsetAt_mono h b st
  have hrecovers := recovers_of_report (h.afterCalls b st i) hi
  have hlength : s.offsetAt b st (j + 1) ≤ (ofString text).length :=
    (h.afterCalls b st (j + 1)).pos_le
  -- The call right behind the first error reports nothing.
  have hlater : i + 2 ≤ j := by
    by_contra hnot
    obtain rfl : j = i + 1 := by omega
    have hnone : s.callsAt b st (i + 1) = [] := hrecovers.calls
    rw [hnone] at hj
    exact absurd hj List.not_mem_nil
  have hle : s.offsetAt b st (i + 2) ≤ s.offsetAt b st (j + 1) :=
    hmono (Nat.le_succ_of_le hlater)
  by_cases hfeed : ∃ q, IsNextLineFeed (ofString text) (s.offsetAt b st (i + 1)) q
  · obtain ⟨q, hq⟩ := hfeed
    obtain ⟨-, -, -, hpos, -⟩ := hrecovers.endOfLine q hq
    have hreach := h.afterCalls b st (i + 1)
    have horigin := hreach.placed.origin_le
    rw [hreach.placed.source] at horigin
    have hbehind : s.offsetAt b st (i + 2) = q + 1 := hpos
    rw [hbehind] at hle
    have hfrom : s.offsetAt b st 0 ≤ q + 1 := by
      rw [← hbehind]
      exact hmono (Nat.zero_le _)
    exact Nat.lt_of_lt_of_le (hq.lineAt_lt horigin) (lineAt_le_of_le h hfrom hle hlength)
  · -- Without a line feed nothing is left in which there could be another error.
    obtain ⟨-, hpos⟩ := hrecovers.endOfSource (not_exists.1 hfeed)
    obtain ⟨before, skipped, lexeme, after, contents, r, hcomes, -⟩ :=
      exists_lexes_of_report (h.afterCalls b st j) hj
    have hgoes : Outcome.signalsEnd (s.outcomeAt b st j) = false :=
      signalsEnd_next hcomes.next hcomes.finds b _
    have hlt : s.offsetAt b st j < s.offsetAt b st (j + 1) :=
      pos_lt_next (h.afterCalls b st j) hgoes
    have hend : s.offsetAt b st (i + 2) = (ofString text).length := hpos
    have hbefore := hmono hlater
    omega

/-- Recovery keeps to the line of the error, whatever stands on the rest of it and whatever the
builder does with the report, and in a run no two errors are on one line. -/
theorem recovery_on_line (h : s.Reachable text) (b : Builder σ α) (st : σ) :
    (∀ byte location, .report ⟨.unrecognizedByte byte, location⟩ ∈ s.calls b st →
      s.Recovers text b st location) ∧
    ∀ i j, i < j → ∀ byte location byte' location',
      .report ⟨.unrecognizedByte byte, location⟩ ∈ s.callsAt b st i →
      .report ⟨.unrecognizedByte byte', location'⟩ ∈ s.callsAt b st j →
        Location.lineAt (ofString text) (s.offsetAt b st (i + 1)) <
            Location.lineAt (ofString text) (s.offsetAt b st (j + 1)) ∧
          ((ofString text).length < Count.limit → location.line < location'.line) := by
  refine ⟨fun byte location hreport => recovers_of_report h hreport,
    fun i j hij byte location byte' location' hi hj => ?_⟩
  have hlt := lineAt_lt_of_reports h hij hi hj
  refine ⟨hlt, fun hsize => ?_⟩
  have hcount {n : Nat} {byte : UInt8} {location : Location}
      (hn : .report ⟨.unrecognizedByte byte, location⟩ ∈ s.callsAt b st n) :
      location.line = Location.lineAt (ofString text) (s.offsetAt b st (n + 1)) := by
    have hline : location.line =
        Count.clamp (Location.lineAt (ofString text) (s.offsetAt b st (n + 1))) :=
      (recovers_of_report (h.afterCalls b st n) hn).line
    have hle := lineAt_le (ofString text) (s.offsetAt b st (n + 1))
    have hpos : s.offsetAt b st (n + 1) ≤ (ofString text).length :=
      (h.afterCalls b st (n + 1)).pos_le
    rw [hline, Count.clamp_of_le (by omega)]
  rw [hcount hi, hcount hj]
  exact hlt

/-- A zero byte, a quote and letters outside ASCII are thrown away up to the line feed, also if the
report is refused, and the error on the next line is another. -/
theorem recovery_on_line_quote :
    let text := "a\x00 \"é;\n$"
    let st : Scripted := { script := { refuse := some [] } }
    let s : Scanner := .start (ofString text) "f" {}
    s.Reachable text ∧
      .report ⟨.unrecognizedByte 97, ⟨"f", 1, 1, 1⟩⟩ ∈ s.calls Scripted.builder st ∧
      s.Recovers text Scripted.builder st ⟨"f", 1, 1, 1⟩ ∧
      IsNextLineFeed (ofString text) (s.offsetAt Scripted.builder st 1) 7 ∧
      Location.lineAt (ofString text) (s.offsetAt Scripted.builder st 1) <
        Location.lineAt (ofString text) (s.offsetAt Scripted.builder st 3) := by
  intro text st s
  have hreach : s.Reachable text := .start "f" {}
  have hreport : .report ⟨.unrecognizedByte 97, ⟨"f", 1, 1, 1⟩⟩ ∈ s.calls Scripted.builder st := by
    decide +kernel
  have hlater : .report ⟨.unrecognizedByte 36, ⟨"f", 2, 1, 1⟩⟩ ∈
      s.callsAt Scripted.builder st 2 := by
    decide +kernel
  obtain ⟨hrecovers, hrun⟩ := recovery_on_line hreach Scripted.builder st
  obtain ⟨hline, -⟩ := hrun 0 2 (by decide) _ _ _ _ hreport hlater
  exact ⟨hreach, hreport, hrecovers _ _ hreport, by decide +kernel, hline⟩

end Scanner

end LedgerText
