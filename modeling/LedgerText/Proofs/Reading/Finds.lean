import LedgerText.Proofs.Reading.Lexeme
import LedgerText.Proofs.Scanner.End
import LedgerText.Proofs.Scanner.Reachable

/-!
# What the next finding is made of

A request for the next finding goes over characters of the text in two parts: some that are passed
over, and those of which something is found (`Comes`). What is found of them is one of five things:
the end of the source, a lexeme of normal text, or one of the three outcomes of a string literal
(`Finds`). Every reading between two requests comes to its next finding in this way
(`exists_comes`), since none of them is inside a literal (`Rests`).

A closed reading goes over nothing, and finds the end wherever it stands.
-/

namespace LedgerText

open Literal Utf8

/-- The text that is due to a finding. -/
def Finding.text : Finding → String
  | .structural _ text _ _ | .terminal _ text _ | .fault _ text _ => text

/-- Where a finding stands. -/
def Finding.location : Finding → Location
  | .structural _ _ location _ | .fault _ _ location => location
  | .terminal request _ _ => request.location

/-- Whether a finding signals the end of the source: the end of file, or the end of a last line that
is not written. -/
def Finding.signalsEnd : Finding → Bool
  | .structural kind _ _ flags => kind = .endOfFile || flags.synthetic
  | _ => false

/-- A lexeme does not signal the end of the source. -/
theorem Finding.Spells.signalsEnd {lexeme : List Char} {location : Location} {finding : Finding}
    (h : finding.Spells lexeme location) : finding.signalsEnd = false := by
  cases h with
  | structural kind hend hline => simp [Finding.signalsEnd, hend]
  | terminal kind args hvalue hkind => rfl
  | overflow overflow => rfl
  | unrecognized byte => rfl

/-- A literal as it is written from its opening quote on, where `cs` are the characters behind that
quote: up to its closing quote, or to the end of the text. -/
def Literal.whole (cs : List Char) : List Char :=
  '"' :: (Literal.text (pieces cs).1 ++ (pieces cs).2.take 1)

/-- A literal stands at the front of the characters from its opening quote on. -/
theorem Literal.whole_append (cs : List Char) : whole cs ++ (pieces cs).2.drop 1 = '"' :: cs := by
  rw [whole, List.cons_append, List.append_assoc, List.take_append_drop, text_pieces]

namespace Reading

variable {text filename : String} {before after lexeme rest : List Char} {r : Reading}

/-! ## The characters of a finding -/

/-- What is found of the characters `lexeme` of a text, where they stand between the characters
`before` and `after`. -/
inductive Finds (text filename : String) (before : List Char) :
    (lexeme after : List Char) → Finding → Prop
  /-- The end is signalled, as the end of file or as that of a line. -/
  | ending (after : List Char) (kind : Kind) (flags : Flags)
    (hkind : kind = .endOfFile ∧ flags = {} ∨ kind = .endOfLine ∧ flags = { synthetic := true }) :
    Finds text filename before [] after
      (.structural kind "" ((trackerBehind text filename before).locate []) flags)
  /-- The characters are the next lexeme of normal text. -/
  | spelled {lexeme after : List Char} {finding : Finding} (lineStart : Bool) (hne : lexeme ≠ [])
    (hquote : lexeme ≠ ['"'])
    (hlen : (Lexeme.inText lineStart (encode (lexeme ++ after)).length
      (encode (lexeme ++ after))).length = (encode lexeme).length)
    (hspells : finding.Spells lexeme
      ((trackerBehind text filename before).locate (encode lexeme))) :
    Finds text filename before lexeme after finding
  /-- The characters are a literal that makes a string. -/
  | string {ps : List Piece} {rest : List Char} (lines : Nat) (encoding : String)
    (hps : pieces (Literal.text ps ++ '"' :: rest) = (ps, '"' :: rest))
    (hvalid : ∀ p ∈ ps, p.IsValid) :
    Finds text filename before (quoted ps) rest
      (.terminal
        { kind := .string
          lexeme := String.ofList (quoted ps)
          location := (trackerBehind text filename before).locate (encode (quoted ps))
          args := .string (String.ofList (contents ps)) lines encoding }
        (String.ofList (contents ps)) { multiLine := 0 < lines })
  /-- The characters are a literal in which an escape sequence means nothing. -/
  | invalidEscape {good more : List Piece} {c : Char} {rest : List Char}
    (hps : pieces (Literal.text (good ++ .escape c :: more) ++ rest) =
      (good ++ .escape c :: more, rest))
    (hgood : ∀ p ∈ good, p.IsValid) (hc : ¬(Piece.escape c).IsValid) :
    Finds text filename before ('"' :: (Literal.text (good ++ .escape c :: more) ++ rest.take 1))
      (rest.drop 1)
      (.fault (.invalidEscape c) (String.ofList ['\\', c])
        ((trackerBehind text filename (before ++ '"' :: Literal.text good)).locate
          (encode ['\\', c])))
  /-- The characters are a literal in which the source ends. -/
  | unterminated {ps : List Piece} (hps : pieces (Literal.text ps) = (ps, []))
    (hvalid : ∀ p ∈ ps, p.IsValid) :
    Finds text filename before ('"' :: Literal.text ps) []
      (.fault .unterminatedString (String.ofList ('"' :: Literal.text ps))
        ((trackerBehind text filename before).locate (encode ['"'])))

/-- The next finding of the reading `r`, which stands behind `before`, is `finding`: the characters
`skipped` are passed over, the characters `lexeme` are found, and the reading `r'` goes on before
`after`. -/
structure Comes (text : String) (r : Reading) (before skipped lexeme after : List Char)
    (finding : Finding) (r' : Reading) : Prop where
  next : r.next = (finding, r')
  start : Between text before (skipped ++ (lexeme ++ after)) r
  passes : Passes r.mode skipped (lexeme ++ after)
  finds : Finds text r.tracker.filename (before ++ skipped) lexeme after finding
  stop : Between text (before ++ (skipped ++ lexeme)) after r'
  mode : r'.mode = finding.modeAfter
  /-- An open reading finds the end where nothing is left. -/
  atEnd : r.closed = false → finding.signalsEnd = true → after = []
  /-- A closed reading finds nothing but the end. -/
  ofClosed : r.closed = true → finding.signalsEnd = true
  closed : r'.closed = r.closed
  filename : r'.tracker.filename = r.tracker.filename

/-- A reading between two requests is not inside a literal, and a closed one is in normal text. -/
structure Rests (r : Reading) : Prop where
  notLiteral : r.mode ≠ .literal
  ofClosed : r.closed = true → r.mode = .normal

/-! ## The end -/

/-- What a signal of the end comes to. -/
theorem finds_endOfInput (h : Between text before after r) :
    Finds text r.tracker.filename before [] after (r.endOfInput (r.tracker.locate [])).1 := by
  have hlocation : r.tracker.locate [] = (trackerBehind text r.tracker.filename before).locate [] :=
    congrArg (fun t => t.locate []) h.tracker
  rw [hlocation]
  unfold endOfInput
  dsimp only
  split
  · exact .ending after _ _ (.inr ⟨rfl, rfl⟩)
  · exact .ending after _ _ (.inl ⟨rfl, rfl⟩)

/-- A signal of the end signals the end. -/
theorem signalsEnd_endOfInput (r : Reading) (location : Location) :
    (r.endOfInput location).1.signalsEnd = true ∧
      (r.endOfInput location).1.modeAfter = .normal := by
  unfold endOfInput
  dsimp only
  split <;> exact ⟨rfl, rfl⟩

/-- A closed reading comes to the end. -/
theorem comes_of_closed (h : Between text before after r) (hrests : r.Rests)
    (hclosed : r.closed = true) : ∃ finding r', Comes text r before [] [] after finding r' := by
  have hmode := hrests.ofClosed hclosed
  have hpoint : r.tracker.point = r.tracker.locate [] := by
    rw [h.tracker, trackerBehind, Tracker.locate_nil]
  have hnext : r.next = r.endOfInput (r.tracker.locate []) := by
    rw [Reading.next, if_pos hclosed, hpoint]
  obtain ⟨hsignals, hafter⟩ := r.signalsEnd_endOfInput (r.tracker.locate [])
  refine ⟨(r.endOfInput (r.tracker.locate [])).1, (r.endOfInput (r.tracker.locate [])).2, ?_⟩
  exact
    { next := hnext
      start := h
      passes := by
        rw [hmode]
        exact fun c hc => absurd hc List.not_mem_nil
      finds := by
        rw [List.append_nil]
        exact finds_endOfInput h
      stop := by
        rw [List.append_nil, List.append_nil]
        exact h.congr rfl rfl
      mode := hmode.trans hafter.symm
      atEnd := fun hopen => by
        rw [hclosed] at hopen
        cases hopen
      ofClosed := fun _ => hsignals
      closed := rfl
      filename := rfl }

/-! ## What stands in front -/

/-- The finding that a reading of normal text comes to with nothing to pass over, and the reading
after it. -/
structure Meets (text : String) (r : Reading) (before lexeme after : List Char)
    (finding : Finding) (r' : Reading) : Prop where
  next : r.next = (finding, r')
  finds : Finds text r.tracker.filename before lexeme after finding
  stop : Between text (before ++ lexeme) after r'
  mode : r'.mode = finding.modeAfter
  atEnd : finding.signalsEnd = true → after = []
  closed : r'.closed = r.closed
  filename : r'.tracker.filename = r.tracker.filename

/-- At the end the end is met. -/
theorem exists_meets_nil (hmode : r.mode = .normal) (hclosed : r.closed = false)
    (h : Between text before [] r) : ∃ finding r', Meets text r before [] [] finding r' := by
  have hnext := next_of_end hmode hclosed h
  obtain ⟨hsignals, hafter⟩ := (r.move .text).signalsEnd_endOfInput (r.tracker.locate [])
  have hstop : Between text (before ++ []) [] (r.move .text) := by
    rw [List.append_nil]
    exact h.move_end
  exact ⟨_, _, hnext, finds_endOfInput h, hstop.congr rfl rfl, hmode.trans hafter.symm,
    fun _ => rfl, rfl, rfl⟩

/-- At a quote a literal is met, whatever it comes to. -/
theorem exists_meets_quote (hmode : r.mode = .normal) (hclosed : r.closed = false)
    (h : Between text before ('"' :: after) r) :
    ∃ lexeme rest finding r', '"' :: after = lexeme ++ rest ∧ lexeme = Literal.whole after ∧
      Meets text r before lexeme rest finding r' := by
  have htext := text_pieces after
  have hwhole : ∀ ps rest, pieces after = (ps, rest) →
      Literal.whole after = '"' :: (Literal.text ps ++ rest.take 1) := by
    intro ps rest hps
    rw [Literal.whole, hps]
  rcases pieces_cases after with ⟨ps, rest, hps, hvalid⟩ | ⟨good, c, more, rest, hps, hgood, hc⟩ |
    ⟨ps, hps, hvalid⟩
  · obtain ⟨lines, r', hnext, -, hstop, hgoes⟩ := next_string hmode hclosed h hps hvalid
    rw [hps] at htext
    refine ⟨quoted ps, rest, _, r', ?_, (hwhole ps _ hps).symm, hnext, ?_, hstop,
      hgoes.mode.trans hmode, fun hend => ?_, hgoes.closed, hgoes.filename⟩
    · rw [← htext, quoted, List.append_assoc]
      rfl
    · exact .string lines r.encoding (by rw [htext, hps]) hvalid
    · cases hend
  · obtain ⟨r', hnext, hstop, hgoes⟩ := next_invalidEscape hmode hclosed h hps hgood hc
    rw [hps] at htext
    refine ⟨'"' :: (Literal.text (good ++ .escape c :: more) ++ rest.take 1), rest.drop 1, _, r',
      ?_, (hwhole _ _ hps).symm, hnext, ?_, hstop, hgoes.mode.trans hmode, fun hend => ?_,
      hgoes.closed, hgoes.filename⟩
    · rw [List.cons_append, List.append_assoc, List.take_append_drop, htext]
    · exact .invalidEscape (by rw [htext, hps]) hgood hc
    · cases hend
  · obtain ⟨r', hnext, hstop, hgoes⟩ := next_unterminated hmode hclosed h hps hvalid
    rw [hps, List.append_nil] at htext
    subst htext
    refine ⟨'"' :: Literal.text ps, [], _, r', (List.append_nil _).symm, ?_, hnext,
      .unterminated hps hvalid, hstop, hgoes.mode.trans hmode, fun hend => ?_, hgoes.closed,
      hgoes.filename⟩
    · rw [hwhole ps [] hps, List.take_nil, List.append_nil]
    · cases hend

/-- At any other character that is no blank a lexeme is met. -/
theorem exists_meets_lexeme (hmode : r.mode = .normal) (hclosed : r.closed = false)
    (h : Between text before after r) (hne : after ≠ []) (hquote : ∀ cs, after ≠ '"' :: cs)
    (hblank : (r.reader.lexeme .text).tag ≠ .blank) :
    ∃ lexeme rest finding r', after = lexeme ++ rest ∧
      Meets text r before lexeme rest finding r' := by
  obtain ⟨lexeme, rest, rfl, hlexeme, hlen⟩ := exists_lexeme h hne
  have hq : lexeme ≠ ['"'] := by
    rintro rfl
    exact hquote rest rfl
  obtain ⟨finding, hspells, -, hstep, hstop⟩ := exists_found hmode h hlexeme hlen hblank hq
  refine ⟨lexeme, rest, finding, _, rfl, next_of_found hclosed hstep, ?_, hstop, rfl,
    fun hend => ?_, rfl, rfl⟩
  · rw [h.tracker] at hspells
    refine .spelled r.reader.atLineStart hlexeme hq ?_ hspells
    rw [← hlen, Reader.lexeme, h.rest]
  · rw [hspells.signalsEnd] at hend
    cases hend

/-- Something is met wherever no blank is next. -/
theorem exists_meets (hmode : r.mode = .normal) (hclosed : r.closed = false)
    (h : Between text before after r) (hblank : (r.reader.lexeme .text).tag ≠ .blank) :
    ∃ lexeme rest finding r', after = lexeme ++ rest ∧
      Meets text r before lexeme rest finding r' := by
  rcases after with - | ⟨c, cs⟩
  · obtain ⟨finding, r', hmeets⟩ := exists_meets_nil hmode hclosed h
    exact ⟨[], [], finding, r', rfl, hmeets⟩
  by_cases hc : c = '"'
  · subst hc
    obtain ⟨lexeme, rest, finding, r', hsplit, -, hmeets⟩ := exists_meets_quote hmode hclosed h
    exact ⟨lexeme, rest, finding, r', hsplit, hmeets⟩
  · refine exists_meets_lexeme hmode hclosed h (List.cons_ne_nil c cs) (fun ds hds => ?_) hblank
    exact hc (List.cons.inj hds).1

/-! ## Any reading between two requests -/

/-- An open reading between two requests passes over characters to where it is in normal text, with
no blank next. -/
theorem exists_ready (h : Between text before after r) (hrests : r.Rests)
    (hclosed : r.closed = false) :
    ∃ skipped rest r₁, after = skipped ++ rest ∧ Passes r.mode skipped rest ∧
      Between text (before ++ skipped) rest r₁ ∧ GoesOn { r with mode := .normal } r₁ ∧
      r.next = r₁.next ∧ (r₁.reader.lexeme .text).tag ≠ .blank := by
  cases hmode : r.mode with
  | literal => exact absurd hmode hrests.notLiteral
  | normal =>
    obtain ⟨skipped, rest, r₁, rfl, hskipped, hbetween, hgoes, hnext, hblank⟩ :=
      exists_next_of_blanks hmode hclosed h
    exact ⟨skipped, rest, r₁, rfl, hskipped, hbetween, ⟨hgoes.options, hgoes.encoding,
      hgoes.mode.trans hmode, hgoes.endCount, hgoes.closed, hgoes.filename⟩, hnext, hblank⟩
  | recovery =>
    obtain ⟨skipped, rest, rfl, hpasses⟩ := exists_passes_recovery after
    obtain ⟨hstep, hbetween⟩ := step_recovery hmode h hpasses
    refine ⟨skipped, rest, { r.move .skipLine with mode := .normal }, rfl, hpasses, hbetween,
      .move r .skipLine .normal, next_of_onward hclosed hstep, ?_⟩
    -- Before a line feed or the end there is no blank.
    rcases rest with - | ⟨c, cs⟩
    · rw [hbetween.lexeme_endOfFile]
      decide
    · obtain rfl := hpasses.2 c cs rfl
      rw [lexeme_newline hbetween]
      decide

/-- What is met behind characters that are passed over is what a reading comes to. -/
theorem Meets.comes {skipped : List Char} {r₁ r' : Reading} {finding : Finding}
    (h : Meets text r₁ (before ++ skipped) lexeme after finding r') (hclosed : r.closed = false)
    (hstart : Between text before (skipped ++ (lexeme ++ after)) r)
    (hpasses : Passes r.mode skipped (lexeme ++ after)) (hnext : r.next = r₁.next)
    (hgoes : r₁.closed = r.closed) (hname : r₁.tracker.filename = r.tracker.filename) :
    Comes text r before skipped lexeme after finding r' where
  next := hnext.trans h.next
  start := hstart
  passes := hpasses
  finds := by
    rw [← hname]
    exact h.finds
  stop := by
    rw [← List.append_assoc]
    exact h.stop
  mode := h.mode
  atEnd := fun _ => h.atEnd
  ofClosed := fun h => by
    rw [hclosed] at h
    cases h
  closed := h.closed.trans hgoes
  filename := h.filename.trans hname

/-- Every reading between two requests comes to its next finding. -/
theorem exists_comes (h : Between text before after r) (hrests : r.Rests) :
    ∃ skipped lexeme rest finding r', after = skipped ++ (lexeme ++ rest) ∧
      Comes text r before skipped lexeme rest finding r' := by
  cases hclosed : r.closed with
  | true =>
    obtain ⟨finding, r', hcomes⟩ := comes_of_closed h hrests hclosed
    exact ⟨[], [], after, finding, r', rfl, hcomes⟩
  | false =>
    obtain ⟨skipped, rest, r₁, rfl, hpasses, hbetween, hgoes, hnext, hblank⟩ :=
      exists_ready h hrests hclosed
    obtain ⟨lexeme, rest, finding, r', rfl, hmeets⟩ := exists_meets hgoes.mode
      (hgoes.closed.trans hclosed) hbetween hblank
    exact ⟨skipped, lexeme, rest, finding, r', rfl,
      hmeets.comes hclosed h hpasses hnext hgoes.closed hgoes.filename⟩

/-- The mode after a finding is not that of a literal. -/
theorem Comes.rests {skipped : List Char} {finding : Finding} {r' : Reading}
    (h : Comes text r before skipped lexeme after finding r') : r'.Rests where
  notLiteral := by
    rw [h.mode]
    exact finding.modeAfter_ne_literal
  ofClosed hclosed := by
    have hends := h.ofClosed (h.closed.symm.trans hclosed)
    rw [h.mode]
    cases finding with
    | structural kind text location flags => rfl
    | terminal request text flags => rfl
    | fault cause text location => cases hends

end Reading

/-- Between two calls for a token a scanner is not inside a literal. -/
theorem Scanner.Reachable.rests {text : String} {s : Scanner} (h : s.Reachable text) :
    s.reading.Rests := by
  induction h with
  | start filename options => exact ⟨Mode.noConfusion, fun _ => rfl⟩
  | next b st hs ih =>
    obtain ⟨before, after, hbetween⟩ := hs.placed.exists_between
    obtain ⟨skipped, lexeme, rest, finding, r', -, hcomes⟩ := Reading.exists_comes hbetween ih
    rw [Scanner.reading_next, hcomes.next]
    exact hcomes.rests
  | restart filename encoding h ih => exact ⟨Mode.noConfusion, fun _ => rfl⟩
  | close h ih => exact ⟨Mode.noConfusion, fun _ => rfl⟩

/-- Every reachable scanner comes to its next finding. -/
theorem Scanner.Reachable.exists_comes {text : String} {s : Scanner} (h : s.Reachable text) :
    ∃ before skipped lexeme after finding r,
      Reading.Comes text s.reading before skipped lexeme after finding r := by
  obtain ⟨before, left, hbetween⟩ := h.placed.exists_between
  obtain ⟨skipped, lexeme, after, finding, r, -, hcomes⟩ := Reading.exists_comes hbetween h.rests
  exact ⟨before, skipped, lexeme, after, finding, r, hcomes⟩

end LedgerText
