import LedgerText.Proofs.Location.Offset
import LedgerText.Proofs.Scanner.Tiling
import LedgerText.Scanner.Session

/-!
# Locations are exact

Between calls a scanner is at the line and column of the offset up to which it has read. The token,
the request and the errors of a call have one location, which is that of the offset of the lexeme
that they are about (`Locates`): the whole lexeme that was read, or within a literal its opening
quote or the escape sequence that means nothing.

What a call is about stands between the offsets before and after the call. So without a new start no
location is before the one of an earlier call (`pairwise_locations`).
-/

namespace LedgerText

open Builder Literal Utf8 Reading

namespace Reading

variable {text filename : String} {before lexeme after : List Char} {finding : Finding}
  {r : Reading}

/-! ## What a finding is about -/

/-- The characters `front` of the lexeme stand before the characters `marked` that a finding is
about: the opening quote of a literal that is not closed, an escape sequence that means nothing, or
the whole lexeme. -/
def Marks (lexeme after front marked : List Char) : Finding → Prop
  | .fault .unterminatedString _ _ => front = [] ∧ marked = ['"']
  | .fault (.invalidEscape c) _ _ => marked = ['\\', c] ∧ ∃ good more cs rest,
    lexeme ++ after = '"' :: cs ∧ pieces cs = (good ++ .escape c :: more, rest) ∧
      (∀ p ∈ good, p.IsValid) ∧ ¬(Piece.escape c).IsValid ∧ front = '"' :: Literal.text good
  | _ => front = [] ∧ marked = lexeme

/-- A finding is located at characters of the lexeme. -/
theorem Finds.exists_marked (h : Finds text filename before lexeme after finding) :
    ∃ front marked back, lexeme = front ++ (marked ++ back) ∧
      Marks lexeme after front marked finding ∧
      finding.location =
        (trackerBehind text filename (before ++ front)).locate (encode marked) := by
  have hnil : before ++ [] = before := List.append_nil before
  cases h with
  | ending _ kind flags hkind => exact ⟨[], [], [], rfl, ⟨rfl, rfl⟩, by rw [hnil]; rfl⟩
  | spelled lineStart hne hquote hlen hspells =>
    refine ⟨[], lexeme, [], (List.append_nil lexeme).symm, ?_, ?_⟩
    · cases hspells <;> exact ⟨rfl, rfl⟩
    · rw [hnil]
      cases hspells <;> rfl
  | string lines encoding hps hvalid =>
    exact ⟨[], _, [], (List.append_nil _).symm, ⟨rfl, rfl⟩, by rw [hnil]; rfl⟩
  | @invalidEscape good more c rest hps hgood hc =>
    refine ⟨'"' :: Literal.text good, ['\\', c], Literal.text more ++ rest.take 1, ?_, ⟨rfl, good,
      more, Literal.text (good ++ .escape c :: more) ++ rest, rest, ?_, hps, hgood, hc, rfl⟩, rfl⟩
    · simp only [Literal.text, List.flatMap_append, List.flatMap_cons, Piece.text,
        List.append_assoc, List.cons_append, List.nil_append]
    · rw [List.cons_append, List.append_assoc, List.take_append_drop]
  | @unterminated ps hps hvalid =>
    exact ⟨[], ['"'], Literal.text ps, rfl, ⟨rfl, rfl⟩, by rw [hnil]; rfl⟩

/-- The tracker behind characters of a text locates characters at their offset. -/
theorem locate_trackerBehind {rest : List Char} (hsize : (ofString text).length < Count.limit)
    (hsplit : text.toList = before ++ (lexeme ++ rest))
    (horigin : Reader.origin (ofString text) ≤ (encode before).length) (filename : String) :
    (trackerBehind text filename before).locate (encode lexeme) =
      .atOffset (ofString text) filename (encode before).length (encode lexeme).length := by
  have hsource : ofString text = encode before ++ (encode lexeme ++ encode rest) := by
    rw [ofString, hsplit, encode_append, encode_append]
  exact Location.locate_place hsize horigin hsource filename

/-- A reading is at the line and column of its offset. -/
theorem Placed.tracker_eq (h : Placed text r) (hsize : (ofString text).length < Count.limit) :
    r.tracker.line = Location.lineAt (ofString text) r.reader.pos ∧
      r.tracker.column = Location.columnAt (ofString text) r.reader.pos := by
  obtain ⟨before, after, hbetween⟩ := h.exists_between
  have hsource : ofString text = encode before ++ encode after := by
    rw [ofString, hbetween.split, encode_append]
  have horigin := h.origin_le
  rw [h.source, hbetween.pos] at horigin
  have htracker := hbetween.tracker
  rw [trackerBehind, Location.place_eq hsize horigin hsource] at htracker
  rw [htracker, hbetween.pos]
  exact ⟨rfl, rfl⟩

end Reading

namespace Scanner

variable {σ α : Type} {text : String} {s : Scanner} {r : Reading}

/-! ## One call -/

/-- The token, the request and the errors of the next call for a token are about the characters
`marked`, which stand behind the characters `front` of the lexeme, and are located there. That is
the whole lexeme, unless an open literal or an escape sequence is reported. -/
structure Locates (text : String) (b : Builder σ α) (s : Scanner) (st : σ)
    (before lexeme after front marked : List Char) : Prop where
  inside : ∃ back, lexeme = front ++ (marked ++ back)
  /-- A literal that is not closed is reported at its opening quote. -/
  unterminated : ∀ l, .report ⟨.unterminatedString, l⟩ ∈ s.calls b st →
    front = [] ∧ marked = ['"']
  /-- The first escape sequence that means nothing is reported where it stands in its literal. -/
  invalidEscape : ∀ c l, .report ⟨.invalidEscape c, l⟩ ∈ s.calls b st →
    marked = ['\\', c] ∧ ∃ good more cs rest,
      lexeme ++ after = '"' :: cs ∧ pieces cs = (good ++ .escape c :: more, rest) ∧
        (∀ p ∈ good, p.IsValid) ∧ ¬(Piece.escape c).IsValid ∧ front = '"' :: Literal.text good
  /-- All else is about the whole lexeme. -/
  whole : (∀ error, .report error ∈ s.calls b st →
      error.fault ≠ .unterminatedString ∧ ∀ c, error.fault ≠ .invalidEscape c) →
    front = [] ∧ marked = lexeme
  outcome : Outcome.location (s.next b st).1 = .atOffset (ofString text)
    s.reading.tracker.filename (encode (before ++ front)).length (encode marked).length
  calls : ∀ call ∈ s.calls b st, call.location = .atOffset (ofString text)
    s.reading.tracker.filename (encode (before ++ front)).length (encode marked).length

/-- A call locates what its finding is about. -/
theorem exists_locates_of_comes {before skipped lexeme after : List Char} {finding : Finding}
    (hsize : (ofString text).length < Count.limit)
    (hcomes : Comes text s.reading before skipped lexeme after finding r) (b : Builder σ α)
    (st : σ) :
    ∃ front marked, s.Locates text b st (before ++ skipped) lexeme after front marked := by
  have hnext := hcomes.next
  obtain ⟨front, marked, back, hlexeme, hmarks, hlocation⟩ := hcomes.finds.exists_marked
  have horigin : Reader.origin (ofString text) ≤ (encode (before ++ skipped ++ front)).length := by
    have hle := hcomes.start.placed.origin_le
    rw [hcomes.start.placed.source, hcomes.start.pos] at hle
    rw [encode_append, encode_append, List.length_append, List.length_append]
    omega
  have hsplit : text.toList = before ++ skipped ++ front ++ (marked ++ (back ++ after)) := by
    rw [hcomes.start.split, hlexeme]
    simp only [List.append_assoc]
  have hat := hlocation.trans (locate_trackerBehind hsize hsplit horigin _)
  refine ⟨front, marked, ⟨back, hlexeme⟩, fun l hcall => ?_, fun c l hcall => ?_, fun hno => ?_,
    (location_next hnext b st).trans hat, fun call hcall =>
    (location_of_mem_calls hnext hcall).trans hat⟩
  · obtain ⟨contents, rfl⟩ := (report_mem_calls_iff hnext rfl).1 hcall
    exact hmarks
  · obtain ⟨contents, rfl⟩ := (report_mem_calls_iff hnext rfl).1 hcall
    exact hmarks
  · cases finding with
    | structural kind contents location flags => exact hmarks
    | terminal request contents flags => exact hmarks
    | fault cause contents location =>
      have hcall (h : cause.isAnswer = false) : .report ⟨cause, location⟩ ∈ s.calls b st :=
        (report_mem_calls_iff hnext h).2 ⟨contents, rfl⟩
      cases cause with
      | unterminatedString => exact absurd rfl (hno _ (hcall rfl)).1
      | invalidEscape c => exact absurd rfl ((hno _ (hcall rfl)).2 c)
      | _ => exact hmarks

/-! ## Runs -/

/-- The outcome of a call is located between the offsets before and after it. -/
theorem exists_offset (h : s.Reachable text) (hsize : (ofString text).length < Count.limit)
    (b : Builder σ α) (st : σ) :
    ∃ offset, s.reading.reader.pos ≤ offset ∧ offset ≤ (s.next b st).2.1.reading.reader.pos ∧
      (Outcome.location (s.next b st).1).line = Location.lineAt (ofString text) offset ∧
      (Outcome.location (s.next b st).1).firstColumn =
        Location.columnAt (ofString text) offset := by
  obtain ⟨before, skipped, lexeme, after, finding, r, hcomes⟩ := h.exists_comes
  obtain ⟨front, marked, hlocates⟩ := exists_locates_of_comes hsize hcomes b st
  obtain ⟨back, rfl⟩ := hlocates.inside
  refine ⟨(encode (before ++ skipped ++ front)).length, ?_, ?_, ?_, ?_⟩
  · rw [hcomes.start.pos, encode_append, encode_append, List.length_append, List.length_append]
    omega
  · rw [reading_next, hcomes.next, hcomes.stop.pos]
    simp only [encode_append, List.length_append]
    omega
  · rw [hlocates.outcome]
    rfl
  · rw [hlocates.outcome]
    rfl

/-- The locations of all outcomes, in their order. -/
def locations (b : Builder σ α) (session : Session σ) (ops : List Operation) : List Location :=
  ((session.run b ops).filterMap (·.1)).map Outcome.location

/-- Up to a new start the outcomes are located behind the offset of the scanner, and none before an
earlier one. -/
theorem pairwise_locations (h : s.Reachable text) (hsize : (ofString text).length < Count.limit)
    (b : Builder σ α) (st : σ) (ops : List Operation)
    (hops : ∀ filename encoding, .restart filename encoding ∉ ops) :
    (locations b ⟨s, st⟩ ops).Pairwise Location.NotAfter ∧
      ∀ l ∈ locations b ⟨s, st⟩ ops,
        Location.IsFrom (ofString text) s.reading.reader.pos l := by
  induction ops generalizing s st with
  | nil => exact ⟨.nil, fun l hl => absurd hl List.not_mem_nil⟩
  | cons op ops ih =>
    have hrest : ∀ filename encoding, .restart filename encoding ∉ ops :=
      fun filename encoding hmem => hops filename encoding (List.mem_cons_of_mem op hmem)
    cases op with
    | restart filename encoding => exact absurd List.mem_cons_self (hops filename encoding)
    | close => exact ih h.close st hrest
    | next =>
      obtain ⟨hpairwise, hfrom⟩ := ih (h.next b st) (s.next b st).2.2 hrest
      obtain ⟨offset, hstart, hstop, hline, hcolumn⟩ := exists_offset h hsize b st
      have hplaced := h.placed
      have horigin : Reader.origin (ofString text) ≤ offset := by
        rw [← hplaced.source]
        exact Nat.le_trans hplaced.origin_le hstart
      have hlength : (s.next b st).2.1.reading.reader.pos ≤ (ofString text).length := by
        rw [← (h.next b st).placed.source]
        exact (h.next b st).placed.boundary.le_length
      have hcons : locations b ⟨s, st⟩ (.next :: ops) = Outcome.location (s.next b st).1 ::
        locations b ⟨(s.next b st).2.1, (s.next b st).2.2⟩ ops := rfl
      rw [hcons]
      refine ⟨.cons (fun l hl => (hfrom l hl).notAfter horigin hstop hline hcolumn) hpairwise, ?_⟩
      refine List.forall_mem_cons.2 ⟨⟨offset, hstart, Nat.le_trans hstop hlength, hline, hcolumn⟩,
        fun l hl => ?_⟩
      obtain ⟨later, hle, hlater⟩ := hfrom l hl
      exact ⟨later, Nat.le_trans (Nat.le_trans hstart hstop) hle, hlater⟩

/-- The locations of a source whose bytes can be counted are exact. Between calls a scanner is at
the line and column of its offset, every call goes over a part of the text and locates what it is
about, and up to a new start no location is before an earlier one. -/
theorem exact_locations (h : s.Reachable text) (hsize : (ofString text).length < Count.limit) :
    s.reading.tracker.line = Location.lineAt (ofString text) s.reading.reader.pos ∧
      s.reading.tracker.column = Location.columnAt (ofString text) s.reading.reader.pos ∧
      ∀ ⦃σ α : Type⦄ (b : Builder σ α) (st : σ),
        (∃ before skipped lexeme after front marked,
          s.Reads text b st (s.reading.mode = .recovery) before skipped lexeme after ∧
            s.Locates text b st (before ++ skipped) lexeme after front marked) ∧
        ∀ ops, (∀ filename encoding, .restart filename encoding ∉ ops) →
          (locations b ⟨s, st⟩ ops).Pairwise Location.NotAfter := by
  obtain ⟨hline, hcolumn⟩ := h.placed.tracker_eq hsize
  refine ⟨hline, hcolumn, fun σ α b st => ⟨?_, fun ops hops => ?_⟩⟩
  · obtain ⟨before, skipped, lexeme, after, finding, r, hcomes⟩ := h.exists_comes
    obtain ⟨front, marked, hlocates⟩ := exists_locates_of_comes hsize hcomes b st
    exact ⟨before, skipped, lexeme, after, front, marked, reads_of_comes hcomes b st, hlocates⟩
  · exact (pairwise_locations h hsize b st ops hops).1

/-- Behind the byte-order mark and a line feed a scanner is at the start of the second line, and
goes on in order when it is asked for tokens, closed, and asked again. -/
theorem exact_locations_lineFeed :
    let text := "\uFEFF\n\"a\\q\nb\""
    let start : Scanner := .start (ofString text) "f" {}
    let s : Scanner := (start.next Scripted.builder {}).2.1
    let ops : List Operation := [.next, .close, .next]
    s.Reachable text ∧ (ofString text).length < Count.limit ∧
      s.reading.tracker.line = Location.lineAt (ofString text) s.reading.reader.pos ∧
      s.reading.tracker.column = Location.columnAt (ofString text) s.reading.reader.pos ∧
      (∃ before skipped lexeme after front marked,
        s.Reads text Scripted.builder {} (s.reading.mode = .recovery) before skipped lexeme after ∧
          s.Locates text Scripted.builder {} (before ++ skipped) lexeme after front marked) ∧
      (∀ filename encoding, .restart filename encoding ∉ ops) ∧
      (locations Scripted.builder ⟨s, {}⟩ ops).Pairwise Location.NotAfter := by
  intro text start s ops
  have hreach : s.Reachable text := .next Scripted.builder {} (.start "f" {})
  have hsize : (ofString text).length < Count.limit := by decide
  have hops : ∀ filename encoding, .restart filename encoding ∉ ops := by
    intro filename encoding hmem
    simp [ops] at hmem
  obtain ⟨hline, hcolumn, hcalls⟩ := exact_locations hreach hsize
  obtain ⟨hcall, hrun⟩ := hcalls Scripted.builder {}
  exact ⟨hreach, hsize, hline, hcolumn, hcall, hops, hrun ops hops⟩

end Scanner

end LedgerText
