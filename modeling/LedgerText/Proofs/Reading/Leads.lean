import LedgerText.Proofs.Grammar.LineEnd
import LedgerText.Proofs.Reading.Finds

/-!
# The same characters in two texts

A reading leads another if both have the same characters before them, at places that are a number
of lines apart, and if the first comes to the end of its text where the other comes to the end of
its own or to a line feed (`Leads`). Then both come to the same findings, as many lines apart, up
to that place. They pass over the same characters (`Leads.next_of_blank`,
`Leads.next_of_recovery`), the next lexeme does not depend on what stands behind a line feed
(`Leads.next_of_lexeme`), and neither does a literal that is closed before it
(`Leads.next_of_quote`).
-/

namespace LedgerText

open Literal Utf8

/-! ## The same further down -/

/-- The location `k` lines further down. -/
def Location.shift (k : Nat) (l : Location) : Location := { l with line := l.line + k }

/-- The tracker `k` lines further down. -/
def Tracker.shift (k : Nat) (t : Tracker) : Tracker := { t with line := t.line + k }

/-- The request for a lexeme `k` lines further down. -/
def Request.shift (k : Nat) (r : Request) : Request := { r with location := r.location.shift k }

/-- The finding `k` lines further down. -/
def Finding.shift (k : Nat) : Finding → Finding
  | .structural kind text location flags => .structural kind text (location.shift k) flags
  | .terminal request text flags => .terminal (request.shift k) text flags
  | .fault cause text location => .fault cause text (location.shift k)

@[simp]
theorem Finding.isUnrecognized_shift (k : Nat) (finding : Finding) :
    (finding.shift k).isUnrecognized = finding.isUnrecognized := by
  cases finding with
  | structural kind text location flags => rfl
  | terminal request text flags => rfl
  | fault cause text location => cases cause <;> rfl

@[simp]
theorem Finding.isEnd_shift (k : Nat) (finding : Finding) :
    (finding.shift k).isEnd = finding.isEnd := by
  cases finding <;> rfl

@[simp]
theorem Finding.modeAfter_shift (k : Nat) (finding : Finding) :
    (finding.shift k).modeAfter = finding.modeAfter := by
  rw [modeAfter, modeAfter, isUnrecognized_shift]

/-- No lines further down is the same place. -/
theorem Finding.shift_zero (finding : Finding) : finding.shift 0 = finding := by
  cases finding <;> rfl

/-- A lexeme `k` lines further down is found `k` lines further down. -/
theorem Finding.ofLexeme?_shift (t : Tag) (bytes : Bytes) (location : Location) (k : Nat) :
    Finding.ofLexeme? t bytes (location.shift k) =
      (Finding.ofLexeme? t bytes location).map (Finding.shift k) := by
  unfold Finding.ofLexeme?
  cases Sense.ofLexeme t (Utf8.toString bytes) <;> rfl

/-! ## The start of a line -/

/-- A finding is the end of a line that is written. -/
def Finding.endsLine : Finding → Bool
  | .structural kind _ _ flags => kind = .endOfLine && !flags.synthetic
  | _ => false

@[simp]
theorem Finding.endsLine_shift (k : Nat) (finding : Finding) :
    (finding.shift k).endsLine = finding.endsLine := by
  cases finding <;> rfl

namespace Reading

variable {text text' : String} {k : Nat} {ext before before' after front rest : List Char}
  {r r' r₁ : Reading}

/-- The signal of the end starts no line. -/
theorem endsLine_endOfInput (r : Reading) (location : Location) :
    (r.endOfInput location).1.endsLine = false := by
  unfold endOfInput
  dsimp only
  split <;> rfl

/-- What a step comes to starts a line if it is the end of one, and a literal is no start of a
line. -/
def Step.StartsLine : Step → Prop
  | .found finding r => r.reader.atLineStart = finding.endsLine
  | .onward r => r.mode = .literal → r.reader.atLineStart = false

/-- In normal text only the end of a line starts one. -/
theorem startsLine_stepText (r : Reading) : Step.StartsLine r.stepText := by
  have hsuits := Sense.suits_ofLexeme (r.reader.lexeme .text).tag
    (Utf8.toString (r.reader.text .text))
  unfold stepText
  dsimp only
  by_cases htag : (r.reader.lexeme .text).tag = .newline
  · have hstart : (r.move .text).reader.atLineStart = true := decide_eq_true htag
    rw [htag]
    exact hstart
  · have hstart : (r.move .text).reader.atLineStart = false := decide_eq_false htag
    generalize Sense.ofLexeme (r.reader.lexeme .text).tag
      (Utf8.toString (r.reader.text .text)) = sense at hsuits ⊢
    cases sense with
    | passedOver | opensLiteral => exact fun _ => hstart
    | endOfInput =>
      have hend := (r.move .text).endsLine_endOfInput (r.tracker.locate (r.reader.text .text))
      exact hstart.trans hend.symm
    | structural kind =>
      have hkind : (decide (kind = .endOfLine) && !false) = false := by
        rw [Bool.not_false, Bool.and_true, decide_eq_false_iff_not]
        exact fun heq => htag (hsuits.2 heq)
      exact hstart.trans hkind.symm
    | terminal kind args | fault cause | unrecognized => exact hstart

/-- In a literal no line starts. -/
theorem startsLine_stepLiteral (h : r.reader.atLineStart = false) :
    Step.StartsLine r.stepLiteral := by
  unfold stepLiteral
  dsimp only
  split
  · exact fun _ => h
  · exact fun _ => h
  · split
    · exact fun _ => h
    · exact h
  · exact h
  · exact h

/-- Behind a finding a line starts exactly if the finding is the end of one. -/
theorem atLineStart_next (hliteral : r.mode = .literal → r.reader.atLineStart = false)
    (hclosed : r.closed = false) : r.next.2.reader.atLineStart = r.next.1.endsLine := by
  have hstep : ∀ r : Reading, (r.mode = .literal → r.reader.atLineStart = false) →
      Step.StartsLine r.step := by
    intro r hliteral
    unfold step
    split
    · exact startsLine_stepText r
    · next hmode => exact startsLine_stepLiteral (hliteral hmode)
    · exact fun hmode => Mode.noConfusion hmode
  fun_induction Reading.next r with
  | case1 r h => exact absurd h (by rw [hclosed]; decide)
  | case2 r _ finding after hs =>
    have hstarts := hstep r hliteral
    rwa [hs] at hstarts
  | case3 r _ after hs ih =>
    have hstarts := hstep r hliteral
    rw [hs] at hstarts
    exact ih hstarts ((goesOn_of_step_onward hs).closed.trans hclosed)

/-! ## Readings that lead others -/

/-- The reading `r` of a text and the reading `r'` of another have the characters `after` before
them, `r'` as many as `k` lines further down than `r`. Behind them the text of `r` ends, and that of
`r'` goes on by `ext`: it ends too, or it has a line feed there. -/
structure Leads (text text' : String) (k : Nat) (ext before before' after : List Char)
    (r r' : Reading) : Prop where
  left : Between text before after r
  right : Between text' before' (after ++ ext) r'
  ext : ext = [] ∨ ∃ cs, ext = '\n' :: cs
  size : (ofString text).length ≤ Count.limit
  size' : (ofString text').length ≤ Count.limit
  /-- The lines are as far apart all the way. -/
  tracker : ∀ front back, after = front ++ back →
    trackerBehind text' r.tracker.filename (before' ++ front) =
      (trackerBehind text r.tracker.filename (before ++ front)).shift k
  goesOn : GoesOn r r'
  atLineStart : r'.reader.atLineStart = r.reader.atLineStart
  /-- Both are between findings, and no end was signalled. -/
  notLiteral : r.mode ≠ .literal
  opened : r.closed = false
  fresh : r.endCount = 0
  terminates : r.options.terminateLastLine = true

namespace Leads

/-- The other tracker is further down. -/
theorem tracker_eq (h : Leads text text' k ext before before' after r r') :
    r'.tracker = r.tracker.shift k := by
  have htracker := h.tracker [] after rfl
  rw [List.append_nil, List.append_nil, ← h.left.tracker] at htracker
  rw [h.right.tracker, h.goesOn.filename, htracker]

theorem opened' (h : Leads text text' k ext before before' after r r') : r'.closed = false :=
  h.goesOn.closed.trans h.opened

/-- Before characters of the text both have the same lexeme. -/
theorem lexeme_eq (h : Leads text text' k ext before before' after r r') (hafter : after ≠ []) :
    r'.reader.lexeme .text = r.reader.lexeme .text := by
  have hne : encode after ≠ [] := by rwa [ne_eq, encode_eq_nil]
  rw [Reader.lexeme, Reader.lexeme, h.left.rest, h.right.rest, h.atLineStart]
  rcases h.ext with rfl | ⟨cs, rfl⟩
  · rw [List.append_nil]
  · rw [encode_append]
    exact Grammar.inText_lineFeed _ hne (encode cs)

/-- Readings that go on behind characters of both texts lead on. -/
theorem go {s s' : Reading} (h : Leads text text' k ext before before' (front ++ rest) r r')
    (hleft : Between text (before ++ front) rest s)
    (hright : Between text' (before' ++ front) (rest ++ ext) s')
    (hgoes : GoesOn { r with mode := s.mode } s) (hgoes' : GoesOn { r' with mode := s'.mode } s')
    (hmode : s'.mode = s.mode) (hliteral : s.mode ≠ .literal)
    (hstart : s'.reader.atLineStart = s.reader.atLineStart) :
    Leads text text' k ext (before ++ front) (before' ++ front) rest s s' where
  left := hleft
  right := hright
  ext := h.ext
  size := h.size
  size' := h.size'
  tracker middle back hrest := by
    rw [hgoes.filename, List.append_assoc, List.append_assoc]
    exact h.tracker (front ++ middle) back (by rw [hrest, List.append_assoc])
  goesOn := by
    have hmodes : GoesOn { r with mode := s.mode } { r' with mode := s'.mode } :=
      { h.goesOn with mode := hmode }
    exact hgoes.symm.trans (hmodes.trans hgoes')
  atLineStart := hstart
  notLiteral := hliteral
  opened := hgoes.closed.trans h.opened
  fresh := hgoes.endCount.trans h.fresh
  terminates := by
    rw [hgoes.options]
    exact h.terminates

/-! ## What is passed over -/

/-- Both pass over a blank. -/
theorem next_of_blank (h : Leads text text' k ext before before' (front ++ rest) r r')
    (hmode : r.mode = .normal) (hne : front ≠ [])
    (hlen : (r.reader.lexeme .text).length = (encode front).length)
    (hblank : (r.reader.lexeme .text).tag = .blank) :
    r'.next = (r'.move .text).next ∧
      Leads text text' k ext (before ++ front) (before' ++ front) rest (r.move .text)
        (r'.move .text) := by
  have hlexeme := h.lexeme_eq (List.append_ne_nil_of_left_ne_nil hne rest)
  have hmode' : r'.mode = .normal := h.goesOn.mode.trans hmode
  have hright : Between text' before' (front ++ (rest ++ ext)) r' := by
    rw [← List.append_assoc]
    exact h.right
  have hlen' : (r'.reader.lexeme .text).length = (encode front).length := by rw [hlexeme, hlen]
  have hblank' : (r'.reader.lexeme .text).tag = .blank := by rw [hlexeme, hblank]
  have hstart : (r'.move .text).reader.atLineStart = (r.move .text).reader.atLineStart := by
    show decide ((r'.reader.lexeme .text).tag = .newline) = _
    rw [hlexeme]
    rfl
  exact ⟨next_of_onward h.opened' (step_blank hmode' hblank'), h.go (h.left.move hlen)
    (hright.move hlen') (.move r .text r.mode) (.move r' .text r'.mode) h.goesOn.mode h.notLiteral
    hstart⟩

/-- Both throw away the rest of their line. -/
theorem next_of_recovery (h : Leads text text' k ext before before' (front ++ rest) r r')
    (hmode : r.mode = .recovery) (hpasses : Passes .recovery front rest) :
    ∃ s', r'.next = s'.next ∧
      Leads text text' k ext (before ++ front) (before' ++ front) rest
        { r.move .skipLine with mode := .normal } s' := by
  have hmode' : r'.mode = .recovery := h.goesOn.mode.trans hmode
  have hright : Between text' before' (front ++ (rest ++ ext)) r' := by
    rw [← List.append_assoc]
    exact h.right
  -- Where the one line ends with the text the other ends too, or by a line feed.
  have hpasses' : Passes .recovery front (rest ++ ext) := by
    refine ⟨hpasses.1, fun c cs heq => ?_⟩
    rcases rest with - | ⟨d, ds⟩
    · rcases h.ext with rfl | ⟨more, rfl⟩
      · cases heq
      · exact (List.cons.inj heq).1.symm
    · exact hpasses.2 c ds (by rw [(List.cons.inj heq).1])
  obtain ⟨-, hstop⟩ := step_recovery hmode h.left hpasses
  obtain ⟨hstep', hstop'⟩ := step_recovery hmode' hright hpasses'
  exact ⟨_, next_of_onward h.opened' hstep', h.go hstop hstop' (.move r .skipLine .normal)
    (.move r' .skipLine .normal) rfl Mode.noConfusion h.atLineStart⟩

/-! ## The next finding -/

/-- The tracker behind nothing more is the one behind what was read. -/
theorem trackerBehind_eq (h : Leads text text' k ext before before' after r r') :
    trackerBehind text' r'.tracker.filename before' =
      (trackerBehind text r.tracker.filename before).shift k := by
  have htracker := h.tracker [] after rfl
  rw [List.append_nil, List.append_nil] at htracker
  rw [h.goesOn.filename]
  exact htracker

/-- Of a lexeme both find the same. -/
theorem next_of_lexeme {lexeme : List Char}
    (h : Leads text text' k ext before before' (lexeme ++ rest) r r') (hmode : r.mode = .normal)
    (hne : lexeme ≠ []) (hlen : (r.reader.lexeme .text).length = (encode lexeme).length)
    (hblank : (r.reader.lexeme .text).tag ≠ .blank) (hquote : lexeme ≠ ['"']) :
    ∃ r₁, r'.next = (r.next.1.shift k, r₁) ∧
      Leads text text' k ext (before ++ lexeme) (before' ++ lexeme) rest r.next.2 r₁ := by
  have hlexeme := h.lexeme_eq (List.append_ne_nil_of_left_ne_nil hne rest)
  have hright : Between text' before' (lexeme ++ (rest ++ ext)) r' := by
    rw [← List.append_assoc]
    exact h.right
  have hmode' := h.goesOn.mode.trans hmode
  obtain ⟨finding, -, hfinding, hstep, hstop⟩ := exists_found hmode h.left hne hlen hblank hquote
  obtain ⟨finding', -, hfinding', hstep', hstop'⟩ := exists_found hmode' hright hne
    (by rw [hlexeme, hlen]) (by rwa [hlexeme]) hquote
  have hshift : finding' = finding.shift k := by
    have hlocate : r'.tracker.locate (encode lexeme) =
        (r.tracker.locate (encode lexeme)).shift k := by
      rw [h.tracker_eq]
      rfl
    rw [hlexeme, hlocate, Finding.ofLexeme?_shift, hfinding] at hfinding'
    exact (Option.some.inj hfinding').symm
  subst hshift
  have hnext := next_of_found h.opened hstep
  rw [hnext]
  have hstart : (r'.move .text).reader.atLineStart = (r.move .text).reader.atLineStart := by
    show decide ((r'.reader.lexeme .text).tag = .newline) = _
    rw [hlexeme]
    rfl
  exact ⟨_, next_of_found h.opened' hstep', h.go hstop hstop' (.move r .text _)
    (.move r' .text _) (Finding.modeAfter_shift k finding) finding.modeAfter_ne_literal hstart⟩

/-- Readings that found the same of a literal lead on behind it. -/
theorem go_of_normal {s s' : Reading} {finding : Finding}
    (h : Leads text text' k ext before before' (front ++ rest) r r') (hmode : r.mode = .normal)
    (hnext : r.next = (finding, s)) (hnext' : r'.next = (finding.shift k, s'))
    (hleft : Between text (before ++ front) rest s)
    (hright : Between text' (before' ++ front) (rest ++ ext) s') (hgoes : GoesOn r s)
    (hgoes' : GoesOn r' s') :
    Leads text text' k ext (before ++ front) (before' ++ front) rest s s' := by
  have hmode' : r'.mode = .normal := h.goesOn.mode.trans hmode
  have hstart := r.atLineStart_next (fun h => by rw [hmode] at h; cases h) h.opened
  have hstart' := r'.atLineStart_next (fun h => by rw [hmode'] at h; cases h) h.opened'
  rw [hnext] at hstart
  rw [hnext'] at hstart'
  refine h.go hleft hright { hgoes with mode := rfl } { hgoes' with mode := rfl } ?_ ?_ ?_
  · rw [hgoes.mode, hgoes'.mode, h.goesOn.mode]
  · rw [hgoes.mode]
    exact h.notLiteral
  · rw [hstart, hstart', Finding.endsLine_shift]

/-- Of a literal both find the same, if it is closed or both texts end. -/
theorem next_of_quote {cs : List Char}
    (h : Leads text text' k ext before before' ('"' :: cs) r r') (hmode : r.mode = .normal)
    (hclosed : (pieces cs).2 ≠ [] ∨ ext = []) :
    ∃ r₁, r'.next = (r.next.1.shift k, r₁) ∧
      Leads text text' k ext (before ++ Literal.whole cs) (before' ++ Literal.whole cs)
        ((pieces cs).2.drop 1) r.next.2 r₁ := by
  have hmode' : r'.mode = .normal := h.goesOn.mode.trans hmode
  have hright : Between text' before' ('"' :: (cs ++ ext)) r' := h.right
  have hpieces : pieces (cs ++ ext) = ((pieces cs).1, (pieces cs).2 ++ ext) := by
    rcases hclosed with hclosed | rfl
    · exact pieces_append hclosed ext
    · rw [List.append_nil, List.append_nil]
  have hlead := h
  rw [← Literal.whole_append cs] at hlead
  have htext := text_pieces cs
  rcases pieces_cases cs with ⟨ps, rest, hps, hvalid⟩ | ⟨good, c, more, rest, hps, hgood, hc⟩ |
    ⟨ps, hps, hvalid⟩
  · -- The lines of a string are counted by its own line feeds, wherever it stands.
    rw [hps] at hpieces hlead
    obtain ⟨lines, s, hnext, hlines, hstop, hgoes⟩ := next_string hmode h.opened h.left hps hvalid
    obtain ⟨lines', s', hnext', hlines', hstop', hgoes'⟩ :=
      next_string hmode' h.opened' hright hpieces hvalid
    have hwhole : Literal.whole cs = quoted ps := by
      rw [Literal.whole, hps]
      rfl
    have heq : lines' = lines := (hlines' h.size').trans (hlines h.size).symm
    have hrequest : stringRequest text' r' before' ps lines =
        (stringRequest text r before ps lines).shift k := by
      rw [stringRequest, stringRequest, h.trackerBehind_eq, h.goesOn.encoding]
      rfl
    rw [heq, hrequest] at hnext'
    rw [hwhole] at hlead ⊢
    rw [hps, hnext]
    exact ⟨s', hnext', hlead.go_of_normal hmode hnext hnext' hstop hstop' hgoes hgoes'⟩
  · rw [hps] at hpieces hlead
    obtain ⟨s, hnext, hstop, hgoes⟩ := next_invalidEscape hmode h.opened h.left hps hgood hc
    obtain ⟨s', hnext', hstop', hgoes'⟩ :=
      next_invalidEscape hmode' h.opened' hright hpieces hgood hc
    have hwhole : Literal.whole cs =
        '"' :: (Literal.text (good ++ .escape c :: more) ++ rest.take 1) := by
      rw [Literal.whole, hps]
    -- What stands behind the literal is behind its closing quote, if it has one.
    have hrest : (rest ++ ext).take 1 = rest.take 1 ∧
        (rest ++ ext).drop 1 = rest.drop 1 ++ ext := by
      rw [hps] at hclosed
      rcases rest with - | ⟨d, ds⟩
      · rw [hclosed.resolve_left fun hne => hne rfl]
        exact ⟨rfl, rfl⟩
      · exact ⟨rfl, rfl⟩
    have htracker := h.tracker ('"' :: Literal.text good)
      (Literal.text (.escape c :: more) ++ rest) (by
        rw [hps, text_append] at htext
        rw [← htext, List.append_assoc, List.cons_append])
    rw [hrest.1, hrest.2] at hstop'
    rw [h.goesOn.filename, htracker] at hnext'
    rw [hwhole] at hlead ⊢
    rw [hps, hnext]
    exact ⟨s', hnext', hlead.go_of_normal hmode hnext hnext' hstop hstop' hgoes hgoes'⟩
  · rw [hps] at hpieces hlead hclosed htext
    obtain rfl : ext = [] := hclosed.resolve_left fun hne => hne rfl
    rw [List.append_nil] at htext hpieces hright
    obtain ⟨s, hnext, hstop, hgoes⟩ := next_unterminated hmode h.opened h.left hps hvalid
    obtain ⟨s', hnext', hstop', hgoes'⟩ :=
      next_unterminated hmode' h.opened' hright hpieces hvalid
    have hwhole : Literal.whole cs = '"' :: cs := by
      rw [Literal.whole, hps, List.take_nil, List.append_nil, htext]
    rw [h.trackerBehind_eq] at hnext'
    rw [hwhole] at hlead ⊢
    rw [hps, hnext]
    exact ⟨s', hnext', hlead.go_of_normal hmode hnext hnext' hstop hstop' hgoes hgoes'⟩

end Leads

end Reading

end LedgerText
