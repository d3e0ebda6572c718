import LedgerText.Proofs.Reading.Found
import LedgerText.Proofs.Returns.Literal
import LedgerText.Proofs.Returns.Parallel

/-!
# What is found without the carriage returns

What parallel readings find next is alike (`Parallel.agrees`), and they are parallel behind it
(`Parallel.next`).

Behind what is passed over there stands the end, a line feed, a literal or another lexeme, the same
in both texts, and each has a lemma of its own. Of a lexeme it is enough that it is within the line
that both texts have in common.
-/

namespace LedgerText

open Literal Utf8

namespace Reading

variable {text : String} {before after front rest cs : List Char} {c : Char}
  {r r' r₁ r₁' : Reading}

/-! ## What is found -/

/-- What both readings find is alike, and both then stand at the same place again. -/
structure Agrees (text : String) (r r' : Reading) : Prop where
  alike : Finding.Alike text r.next.2 r.next.1 r'.next.1
  between : ∃ before after, Between text before after r.next.2 ∧
    Between (stripped text) (withoutReturns before) (withoutReturns after) r'.next.2

/-- Readings agree if what is found next is alike, and behind it they are at the same place. -/
theorem Agrees.of_next {finding finding' : Finding} (hnext : r.next = (finding, r₁))
    (hnext' : r'.next = (finding', r₁')) (halike : Finding.Alike text r₁ finding finding')
    (hstop : Between text before after r₁)
    (hstop' : Between (stripped text) (withoutReturns before) (withoutReturns after) r₁') :
    Agrees text r r' where
  alike := by
    rw [hnext, hnext']
    exact halike
  between := by
    rw [hnext, hnext']
    exact ⟨before, after, hstop, hstop'⟩

/-- To pass something over does not change what is found. -/
theorem Agrees.congr (h : Agrees text r₁ r₁') (hnext : r.next = r₁.next)
    (hnext' : r'.next = r₁'.next) : Agrees text r r' where
  alike := by
    rw [hnext, hnext']
    exact h.alike
  between := by
    rw [hnext, hnext']
    exact h.between

namespace Parallel

/-- A carriage return and no more of the end of a line moves the first reading a column on. -/
theorem tracker_return (h : Parallel text (front ++ ['\r']) after r r')
    (hfront : ReturnsEndLines front) :
    r.tracker = { r'.tracker with column := Count.clamp (r'.tracker.column + 1) } := by
  have hright := h.right.tracker
  rw [withoutReturns_append, withoutReturns_return, withoutReturns_nil, List.append_nil,
    h.goesOn.filename] at hright
  rw [h.left.tracker, hright,
    trackerBehind_return h.left.split h.origin_le h.ends hfront r.tracker.filename]

/-- At the end both signal the end. -/
theorem agrees_of_end (h : Parallel text before [] r r') (hmode : r.mode = .normal) :
    Agrees text r r' := by
  have hbefore : ReturnsEndLines before := h.ends_all.of_append fun hhead => by cases hhead
  have hright : Between (stripped text) (withoutReturns before) [] r' := h.right
  have hnext := next_of_end hmode h.opened h.left
  have hnext' := next_of_end (h.goesOn.mode.trans hmode) h.opened' hright
  have hgoes : GoesOn { r.move .text with mode := (r'.move .text).mode } (r'.move .text) :=
    { h.goesOn with mode := rfl }
  have hfinding := endOfInput_congr hgoes (r.tracker.locate [])
  rw [h.tracker_eq hbefore] at hnext'
  have halike : Finding.Alike text ((r.move .text).endOfInput (r.tracker.locate [])).2
      ((r.move .text).endOfInput (r.tracker.locate [])).1
      ((r'.move .text).endOfInput (r.tracker.locate [])).1 := by
    rw [hfinding]
    refine .same fun hline => ?_
    rw [endsLine_endOfInput] at hline
    cases hline
  exact .of_next hnext hnext' halike (h.left.move_end.congr rfl rfl)
    (hright.move_end.congr rfl rfl)

/-- At a line feed both find the end of a line. -/
theorem agrees_of_lineFeed (h : Parallel text before ('\n' :: after) r r')
    (hmode : r.mode = .normal) : Agrees text r r' := by
  have hright := h.right
  rw [withoutReturns_cons (by decide)] at hright
  obtain ⟨hnext, hstop, -⟩ := next_of_lineFeed hmode h.opened h.left
  obtain ⟨hnext', hstop', -⟩ := next_of_lineFeed (h.goesOn.mode.trans hmode) h.opened' hright
  have hbehind : withoutReturns (before ++ ['\n']) = withoutReturns before ++ ['\n'] :=
    withoutReturns_append before ['\n']
  refine .of_next hnext hnext' ?_ hstop (hbehind ▸ hstop')
  rcases h.ends_all.append_cases with hbefore | ⟨-, front, rfl, hfront⟩
  · rw [h.tracker_eq hbefore]
    exact .same fun _ => hstop.not_behindReturn hbefore
  · have htracker := h.tracker_return hfront
    have hline : r.tracker.line = r'.tracker.line := by rw [htracker]
    have hcolumn : r.tracker.column = Count.clamp (r'.tracker.column + 1) := by rw [htracker]
    have hsplit : text.toList = front ++ '\r' :: '\n' :: after := by
      rw [h.left.split, List.append_assoc]
      rfl
    have hmem : '\r' ∈ text.toList := hsplit ▸ List.mem_append_right front List.mem_cons_self
    have hsize : r'.tracker.column + 1 ≤ (ofString text).length :=
      Nat.lt_of_le_of_lt hright.column_le (length_stripped_lt hmem)
    refine .lineEnd ⟨front, after, hsplit, ?_⟩ hline hcolumn hsize
    rw [hstop.pos, List.append_assoc]
    rfl

/-- At blanks that indent both find an indent. -/
theorem agrees_of_indent (h : Parallel text before (front ++ rest) r r') (hmode : r.mode = .normal)
    (hne : front ≠ []) (hfront : ∀ c ∈ front, c ∈ blanks) (hrest : StopsBlanks rest)
    (hindents : Indents r.reader.atLineStart front rest) : Agrees text r r' := by
  have hbefore : ReturnsEndLines before := by
    obtain ⟨c, cs, rfl⟩ := List.exists_cons_of_ne_nil hne
    exact h.ends_before fun heq => absurd (heq ▸ hfront c List.mem_cons_self) (by decide)
  have hindents' := (h.indents_iff hne hfront hrest).2 hindents
  have hright := h.right
  rw [withoutReturns_append, withoutReturns_of_notMem hindents.2.1] at hright
  rw [withoutReturns_of_notMem hindents.2.1] at hindents'
  have hlexeme : r.reader.lexeme .text = ⟨.indent, (encode front).length⟩ := by
    rw [Reader.lexeme, h.left.rest]
    exact inText_indent hne hfront hrest hindents
  have hlexeme' : r'.reader.lexeme .text = ⟨.indent, (encode front).length⟩ := by
    rw [Reader.lexeme, hright.rest]
    exact inText_indent hne hfront (stopsBlanks_withoutReturns hrest) hindents'
  obtain ⟨hnext, hstop⟩ :=
    next_of_lineStructure hmode h.opened h.left hlexeme fun _ => rfl
  obtain ⟨hnext', hstop'⟩ :=
    next_of_lineStructure (h.goesOn.mode.trans hmode) h.opened' hright hlexeme' fun _ => rfl
  have hbehind : withoutReturns (before ++ front) = withoutReturns before ++ front := by
    rw [withoutReturns_append, withoutReturns_of_notMem hindents.2.1]
  rw [h.tracker_eq hbefore] at hnext'
  exact .of_next hnext hnext' (.same fun hline => by cases hline) hstop (hbehind ▸ hstop')

/-- Behind a quote both find the string that the pieces make. -/
theorem agrees_of_string {ps : List Piece} (h : Parallel text before ('"' :: cs) r r')
    (hmode : r.mode = .normal) (hps : pieces cs = (ps, '"' :: rest)) (hvalid : ∀ p ∈ ps, p.IsValid) :
    Agrees text r r' := by
  have hcs : ReturnsEndLines cs := h.ends_after.tail
  have hreturn := escape_return_notMem hcs
  have hpieces := pieces_withoutReturns hcs
  rw [hps] at hreturn
  rw [hps, withoutReturns_cons (by decide)] at hpieces
  have hright := h.right
  rw [withoutReturns_cons (by decide)] at hright
  have hquoted : quoted (piecesWithoutReturns ps) = withoutReturns (quoted ps) := by
    rw [quoted, quoted, text_withoutReturns hreturn, List.cons_append, List.cons_append,
      withoutReturns_cons (by decide), withoutReturns_append]
    rfl
  obtain ⟨s, hnext, hstop, hgoes⟩ := next_string_tracker hmode h.opened h.left hps hvalid
  obtain ⟨s', hnext', hstop', hgoes'⟩ := next_string_tracker (h.goesOn.mode.trans hmode) h.opened'
    hright hpieces (isValid_withoutReturns hvalid)
  rw [hquoted, ← withoutReturns_append] at hstop'
  have hbefore : ReturnsEndLines before := h.ends_before (by decide)
  have hbehind : ReturnsEndLines (before ++ quoted ps) := by
    have hall := h.ends
    rw [hstop.split] at hall
    refine hall.left ?_
    rw [quoted, ← List.append_assoc, List.getLast?_concat]
    decide
  have hname : s'.tracker.filename = s.tracker.filename :=
    (hgoes'.filename.trans h.goesOn.filename).trans hgoes.filename.symm
  -- The lines of the literal are told by where it starts and where it ends.
  have htracker := h.tracker_eq hbefore
  have htracker' := hstop.tracker_stripped hstop' h.ends hbehind hname
  rw [htracker, htracker'] at hnext'
  refine .of_next hnext hnext' (.string rfl rfl ?_) hstop hstop'
  rw [stringRequest, stringRequest, ← h.left.tracker, ← hright.tracker, htracker]
  exact ⟨rfl, rfl⟩

/-- Behind a quote both find the first escape sequence that means nothing. -/
theorem agrees_of_invalidEscape {good more : List Piece} {c : Char}
    (h : Parallel text before ('"' :: cs) r r') (hmode : r.mode = .normal)
    (hps : pieces cs = (good ++ .escape c :: more, rest)) (hgood : ∀ p ∈ good, p.IsValid)
    (hc : ¬(Piece.escape c).IsValid) : Agrees text r r' := by
  have hcs : ReturnsEndLines cs := h.ends_after.tail
  have hreturn := escape_return_notMem hcs
  have hpieces := pieces_withoutReturns hcs
  have hsplit := text_pieces cs
  rw [hps] at hreturn hpieces hsplit
  have hgoodReturn : .escape '\r' ∉ good := fun hmem => hreturn (List.mem_append_left _ hmem)
  have hstripped : piecesWithoutReturns (good ++ .escape c :: more) =
      piecesWithoutReturns good ++ .escape c :: piecesWithoutReturns more := List.filterMap_append
  have hright := h.right
  rw [withoutReturns_cons (by decide)] at hright
  obtain ⟨s, hnext, hstop, hgoes⟩ := next_invalidEscape hmode h.opened h.left hps hgood hc
  obtain ⟨s', hnext', hstop', hgoes'⟩ := next_invalidEscape (h.goesOn.mode.trans hmode) h.opened'
    hright (hpieces.trans (by rw [hstripped])) (isValid_withoutReturns hgood) hc
  -- The backslash stands behind the same characters in both texts.
  have hbackslash : text.toList =
      (before ++ '"' :: Literal.text good) ++ '\\' :: c :: (Literal.text more ++ rest) := by
    rw [h.left.split, ← hsplit, text_append, List.append_assoc, List.append_assoc]
    rfl
  have hbefore : ReturnsEndLines (before ++ '"' :: Literal.text good) :=
    (hbackslash ▸ h.ends).of_append fun hhead => absurd (Option.some.inj hhead) (by decide)
  have horigin : Reader.origin (ofString text) ≤
      (encode (before ++ '"' :: Literal.text good)).length := by
    rw [encode_append, List.length_append]
    exact Nat.le_add_right_of_le h.origin_le
  have htracker := trackerBehind_stripped hbackslash horigin h.ends hbefore r.tracker.filename
  rw [withoutReturns_append, withoutReturns_cons (by decide),
    ← text_withoutReturns hgoodReturn] at htracker
  -- A closing quote is in both texts.
  have hrest : (withoutReturns rest).take 1 = withoutReturns (rest.take 1) ∧
      (withoutReturns rest).drop 1 = withoutReturns (rest.drop 1) := by
    have hend := pieces_rest cs
    rw [hps] at hend
    rcases hend with rfl | ⟨more, rfl⟩ <;> exact ⟨rfl, rfl⟩
  rw [← hstripped, text_withoutReturns hreturn, hrest.1, hrest.2, ← withoutReturns_append,
    ← withoutReturns_cons (by decide), ← withoutReturns_append] at hstop'
  rw [h.goesOn.filename, htracker] at hnext'
  exact .of_next hnext hnext' (.same fun hline => by cases hline) hstop hstop'

/-- Behind a quote both find that the literal does not end. -/
theorem agrees_of_unterminated {ps : List Piece} (h : Parallel text before ('"' :: cs) r r')
    (hmode : r.mode = .normal) (hps : pieces cs = (ps, [])) (hvalid : ∀ p ∈ ps, p.IsValid) :
    Agrees text r r' := by
  have hcs : ReturnsEndLines cs := h.ends_after.tail
  have hpieces := pieces_withoutReturns hcs
  rw [hps] at hpieces
  have hright := h.right
  rw [withoutReturns_cons (by decide)] at hright
  have hbefore : ReturnsEndLines before := h.ends_before (by decide)
  obtain ⟨s, hnext, hstop, -⟩ := next_unterminated hmode h.opened h.left hps hvalid
  obtain ⟨s', hnext', hstop', -⟩ := next_unterminated (h.goesOn.mode.trans hmode) h.opened' hright
    hpieces (isValid_withoutReturns hvalid)
  rw [← hright.tracker, h.tracker_eq hbefore, h.left.tracker] at hnext'
  rw [← withoutReturns_cons (by decide), ← withoutReturns_append] at hstop'
  exact .of_next hnext hnext' .unterminated hstop hstop'

/-- At a quote both find what the literal comes to. -/
theorem agrees_of_quote (h : Parallel text before ('"' :: cs) r r') (hmode : r.mode = .normal) :
    Agrees text r r' := by
  rcases pieces_cases cs with ⟨ps, rest, hps, hvalid⟩ | ⟨good, c, more, rest, hps, hgood, hc⟩ |
    ⟨ps, hps, hvalid⟩
  · exact h.agrees_of_string hmode hps hvalid
  · exact h.agrees_of_invalidEscape hmode hps hgood hc
  · exact h.agrees_of_unterminated hmode hps hvalid

/-- The next lexemes are told by the lines, which both end at the same place. -/
theorem lexeme_line {line : List Char} (h : Parallel text before (c :: line ++ rest) r r')
    (hblank : c ∉ blanks) (hline : '\n' ∉ c :: line) (hrest : ∀ d ds, rest = d :: ds → d = '\n') :
    r.reader.lexeme .text = Lexeme.inText r.reader.atLineStart (encode (c :: line)).length
        (encode (c :: line)) ∧
      r'.reader.lexeme .text = Lexeme.inText r.reader.atLineStart
        (encode (c :: withoutReturns line)).length (encode (c :: withoutReturns line)) ∧
      Between (stripped text) (withoutReturns before)
        (c :: withoutReturns line ++ withoutReturns rest) r' := by
  have hc : c ≠ '\r' := fun heq => hblank (heq ▸ by decide)
  have hright := h.right
  rw [withoutReturns_append, withoutReturns_cons hc] at hright
  have hrest' : ∀ d ds, withoutReturns rest = d :: ds → d = '\n' := by
    intro d ds heq
    rcases rest with - | ⟨e, es⟩
    · cases heq
    · obtain rfl := hrest e es rfl
      rw [withoutReturns_cons (by decide)] at heq
      exact (List.cons.inj heq).1.symm
  have hstart := h.atLineStart c (line ++ rest) rfl fun heq => hline (heq ▸ List.mem_cons_self)
  refine ⟨?_, ?_, hright⟩
  · rw [Reader.lexeme, h.left.rest]
    exact inText_line (List.cons_ne_nil _ _) hrest
  · rw [Reader.lexeme, hright.rest, hstart]
    exact inText_line (List.cons_ne_nil _ _) hrest'

/-- At a character with which a comment or a skipped line starts both find it, up to the end of the
line. -/
theorem agrees_of_takesLine {line : List Char} (h : Parallel text before (c :: line ++ rest) r r')
    (hmode : r.mode = .normal) (hblank : c ∉ blanks) (hline : '\n' ∉ c :: line)
    (hrest : ∀ d ds, rest = d :: ds → d = '\n')
    (htakes : TakesLine r.reader.atLineStart ((encode [c]).headD 0)) : Agrees text r r' := by
  have hc : c ≠ '\r' := fun heq => hblank (heq ▸ by decide)
  have hbefore : ReturnsEndLines before :=
    h.ends_before fun heq => hline (heq ▸ List.mem_cons_self)
  have hline' : '\n' ∉ c :: withoutReturns line := by
    rw [← withoutReturns_cons hc, mem_withoutReturns (by decide)]
    exact hline
  obtain ⟨hlexeme, hlexeme', hright⟩ := h.lexeme_line hblank hline hrest
  obtain ⟨t, ht, htext⟩ := exists_inText_of_takesLine hblank htakes
  rw [htext line hline] at hlexeme
  rw [htext _ hline'] at hlexeme'
  obtain ⟨kind, hkind, hsense⟩ : ∃ kind : Kind, (kind = .comment ∨ kind = .skipped) ∧
      ∀ text, Sense.ofLexeme t text = .structural kind := by
    rcases ht with rfl | rfl
    · exact ⟨.comment, .inl rfl, fun _ => rfl⟩
    · exact ⟨.skipped, .inr rfl, fun _ => rfl⟩
  obtain ⟨hnext, hstop⟩ := next_of_lineStructure hmode h.opened h.left hlexeme hsense
  obtain ⟨hnext', hstop'⟩ :=
    next_of_lineStructure (h.goesOn.mode.trans hmode) h.opened' hright hlexeme' hsense
  rw [← withoutReturns_cons hc, h.tracker_eq hbefore] at hnext'
  rw [← withoutReturns_cons hc, ← withoutReturns_append] at hstop'
  refine .of_next hnext hnext' ?_ hstop hstop'
  rcases h.ends_after.line_cases hline with hreturn | ⟨-, hreturn⟩
  · rw [withoutReturns_of_notMem hreturn]
    refine .same fun hends => ?_
    rcases hkind with rfl | rfl <;> cases hends
  · have hstart : (r.tracker.locate (encode (c :: line))).SameStart
        (r.tracker.locate (encode (withoutReturns (c :: line)))) := ⟨rfl, rfl⟩
    have hwhole : Finding.Alike text (r.move .text)
        (.structural kind (String.ofList (withoutReturns (c :: line) ++ ['\r']))
          (r.tracker.locate (encode (c :: line))) {})
        (.structural kind (String.ofList (withoutReturns (c :: line)))
          (r.tracker.locate (encode (withoutReturns (c :: line)))) {}) := .wholeLine hkind hstart
    rwa [← hreturn] at hwhole

/-- Any other lexeme is the same in both texts, at the front of its line and without a carriage
return. -/
theorem exists_front {line : List Char} (h : Parallel text before (c :: line ++ rest) r r')
    (hblank : c ∉ blanks) (hline : '\n' ∉ c :: line) (hrest : ∀ d ds, rest = d :: ds → d = '\n')
    (htakes : ¬TakesLine r.reader.atLineStart ((encode [c]).headD 0)) :
    r'.reader.lexeme .text = r.reader.lexeme .text ∧ ∃ lexeme more, line = lexeme ++ more ∧
      '\r' ∉ lexeme ∧ (r.reader.lexeme .text).length = (encode (c :: lexeme)).length := by
  have hc : c ≠ '\r' := fun heq => hblank (heq ▸ by decide)
  have hfeed : c ≠ '\n' := fun heq => hline (heq ▸ List.mem_cons_self)
  obtain ⟨hlexeme, hlexeme', -⟩ := h.lexeme_line hblank hline hrest
  have hsame : r'.reader.lexeme .text = r.reader.lexeme .text := by
    rw [hlexeme, hlexeme']
    rcases h.ends_after.line_cases hline with hreturn | ⟨-, hreturn⟩
    · rw [← withoutReturns_cons hc, withoutReturns_of_notMem hreturn]
    · rw [withoutReturns_cons hc] at hreturn
      rw [hreturn]
      exact (inText_return hblank hfeed htakes _).symm
  refine ⟨hsame, ?_⟩
  -- The lexeme is at the front of both lines, since it is within the shorter one.
  obtain ⟨front, more', hsplit', hlen⟩ := Lexeme.isBoundary_inText r.reader.atLineStart
    (⟨c :: withoutReturns line, rfl⟩ : IsText (encode (c :: withoutReturns line)))
  rw [encode_inj] at hsplit'
  rw [← hlexeme', hsame] at hlen
  obtain ⟨hreturns, more, hsplit, -⟩ :=
    h.ends_after.exists_split hline ((withoutReturns_cons hc line).trans hsplit')
  rcases front with - | ⟨d, lexeme⟩
  · have hpos : 0 < (r.reader.lexeme .text).length := by
      rw [hlexeme]
      exact Lexeme.inText_length_pos (fun hzero => List.cons_ne_nil c line
        (encode_eq_nil.1 (List.length_eq_zero_iff.1 hzero))) (Nat.le_refl _)
    rw [hlen] at hpos
    exact absurd hpos (Nat.lt_irrefl 0)
  · obtain ⟨rfl, hmore⟩ := List.cons.inj hsplit
    have hnone : '\r' ∉ c :: lexeme := hreturns ▸ return_notMem_withoutReturns (c :: lexeme)
    exact ⟨lexeme, more, hmore, fun hmem => hnone (List.mem_cons_of_mem c hmem), hlen⟩

/-- At a character with which another lexeme starts both find the same one. -/
theorem agrees_of_lexeme {line : List Char} (h : Parallel text before (c :: line ++ rest) r r')
    (hmode : r.mode = .normal) (hblank : c ∉ blanks) (hline : '\n' ∉ c :: line)
    (hrest : ∀ d ds, rest = d :: ds → d = '\n') (hquote : c ≠ '"')
    (htakes : ¬TakesLine r.reader.atLineStart ((encode [c]).headD 0)) : Agrees text r r' := by
  have hc : c ≠ '\r' := fun heq => hblank (heq ▸ by decide)
  have hfeed : c ≠ '\n' := fun heq => hline (heq ▸ List.mem_cons_self)
  have hbefore := h.ends_before hfeed
  obtain ⟨hsame, lexeme, more, rfl, hreturn, hlen⟩ :=
    h.exists_front hblank hline hrest htakes
  have hsplit : c :: (lexeme ++ more) ++ rest = c :: lexeme ++ (more ++ rest) :=
    List.append_assoc (c :: lexeme) more rest
  have hlexeme : withoutReturns (c :: lexeme) = c :: lexeme := by
    rw [withoutReturns_cons hc, withoutReturns_of_notMem hreturn]
  have hleft := h.left
  have hright := h.right
  rw [hsplit] at hleft hright
  rw [withoutReturns_append, hlexeme] at hright
  have hne : c :: lexeme ≠ [] := List.cons_ne_nil c lexeme
  have htag : (r.reader.lexeme .text).tag ≠ .blank := fun htag =>
    hblank (mem_blanks_of_tag hleft hne hlen htag c List.mem_cons_self)
  have hopening : c :: lexeme ≠ ['"'] := fun heq => hquote (List.cons.inj heq).1
  obtain ⟨finding, hspells, hfinding, hstep, hstop⟩ :=
    exists_found hmode hleft hne hlen htag hopening
  obtain ⟨finding', -, hfinding', hstep', hstop'⟩ := exists_found (h.goesOn.mode.trans hmode) hright
    hne (hsame ▸ hlen) (by rwa [hsame]) hopening
  -- What is found is told by the lexeme and by where it starts.
  obtain rfl : finding' = finding := by
    rw [hsame, h.tracker_eq hbefore, hfinding] at hfinding'
    exact (Option.some.inj hfinding').symm
  rw [← hlexeme, ← withoutReturns_append] at hstop'
  refine .of_next (next_of_found h.opened hstep) (next_of_found h.opened' hstep')
    (.same fun hends => ?_) hstop hstop'
  exact absurd (List.cons.inj (hspells.eq_lineFeed hends)).1 hfeed

/-- Both find the same, where no blanks are next. -/
theorem agrees_of_stopsBlanks (h : Parallel text before after r r') (hmode : r.mode = .normal)
    (hstop : StopsBlanks after) : Agrees text r r' := by
  rcases after with - | ⟨c, cs⟩
  · exact h.agrees_of_end hmode
  by_cases hline : c = '\n'
  · subst hline
    exact h.agrees_of_lineFeed hmode
  by_cases hquote : c = '"'
  · subst hquote
    exact h.agrees_of_quote hmode
  -- What is found of any other character is within its line.
  obtain ⟨line, rest, rfl, hpasses⟩ := exists_passes_recovery cs
  have hnotMem : '\n' ∉ c :: line := List.not_mem_cons_of_ne_of_not_mem (Ne.symm hline) hpasses.1
  have hblank := hstop c (line ++ rest) rfl
  by_cases htakes : TakesLine r.reader.atLineStart ((encode [c]).headD 0)
  · exact h.agrees_of_takesLine hmode hblank hnotMem hpasses.2 htakes
  · exact h.agrees_of_lexeme hmode hblank hnotMem hpasses.2 hquote htakes

/-- Parallel readings agree. -/
theorem agrees (h : Parallel text before after r r') : Agrees text r r' := by
  cases hmode : r.mode with
  | literal => exact absurd hmode h.notLiteral
  | recovery =>
    obtain ⟨front, rest, rfl, hpasses⟩ := exists_passes_recovery after
    obtain ⟨r₁, r₁', hparallel, hmode₁, hnext, hnext'⟩ := h.of_recovery hmode hpasses
    have hstop : StopsBlanks rest := by
      intro c cs heq
      rw [hpasses.2 c cs heq]
      decide
    exact (hparallel.agrees_of_stopsBlanks hmode₁ hstop).congr hnext hnext'
  | normal =>
    obtain ⟨front, rest, rfl, hfront, hrest⟩ := exists_blanks after
    by_cases hindents : front ≠ [] ∧ Indents r.reader.atLineStart front rest
    · exact h.agrees_of_indent hmode hindents.1 hfront hrest hindents.2
    · obtain ⟨r₁, r₁', hparallel, hmode₁, hnext, hnext'⟩ :=
        h.of_blanks hmode hfront hrest fun hne hi => hindents ⟨hne, hi⟩
      exact (hparallel.agrees_of_stopsBlanks hmode₁ hrest).congr hnext hnext'

/-- Parallel readings are parallel behind what they find. -/
theorem next (h : Parallel text before after r r') :
    ∃ before after, Parallel text before after r.next.2 r'.next.2 := by
  obtain ⟨halike, front, rest, hstop, hstop'⟩ := h.agrees
  have hrests : r.Rests := ⟨h.notLiteral, fun hclosed => by
    rw [h.opened] at hclosed
    cases hclosed⟩
  have hrests' : r'.Rests := ⟨fun hmode => h.notLiteral (h.goesOn.mode.symm.trans hmode),
    fun hclosed => by
      rw [h.opened'] at hclosed
      cases hclosed⟩
  obtain ⟨_, _, _, finding, s, -, hcomes⟩ := exists_comes h.left hrests
  obtain ⟨_, _, _, finding', s', -, hcomes'⟩ := exists_comes h.right hrests'
  -- The mode, the signals of the end and the start of a line are told by what was found.
  have hgoes := r.goesOn_next
  have hgoes' := r'.goesOn_next
  have hstart := r.atLineStart_next (fun hmode => absurd hmode h.notLiteral) h.opened
  have hstart' := r'.atLineStart_next (fun hmode => absurd hmode hrests'.notLiteral) h.opened'
  have hmode : r'.next.2.mode = r.next.2.mode := by
    have hafter := halike.modeAfter_eq
    rw [hcomes.next, hcomes'.next] at hafter ⊢
    rw [hcomes.mode, hcomes'.mode, hafter]
  have hcount : r'.next.2.endCount = r.next.2.endCount := by
    have hends := halike.signalsEnd_eq
    rcases r.signal_next with ⟨location, hsignal, hcount⟩ | ⟨hsignal, hcount⟩ <;>
      rcases r'.signal_next with ⟨location', hsignal', hcount'⟩ | ⟨hsignal', hcount'⟩
    · rw [hcount, hcount', h.goesOn.endCount]
    · rw [hsignal', hsignal, (r.signalsEnd_endOfInput location).1] at hends
      cases hends
    · rw [hsignal, hsignal', (r'.signalsEnd_endOfInput location').1] at hends
      cases hends
    · rw [hcount, hcount', h.goesOn.endCount]
  have hbetween : GoesOn { r with mode := r.next.2.mode, endCount := r.next.2.endCount }
      { r' with mode := r'.next.2.mode, endCount := r'.next.2.endCount } :=
    { h.goesOn with mode := hmode, endCount := hcount }
  refine ⟨front, rest, ?_⟩
  exact
    { left := hstop
      right := hstop'
      ends := h.ends
      goesOn := hgoes.symm.trans (hbetween.trans hgoes')
      atLineStart := fun _ _ _ _ => by rw [hstart, hstart', halike.endsLine_eq]
      notLiteral := hcomes.next ▸ hcomes.rests.notLiteral
      opened := hgoes.closed.trans h.opened }

end Parallel

/-- At the start a text and the text without its carriage returns are read in parallel. -/
theorem exists_parallel_start (h : ReturnsEndLines text.toList) (options : Options)
    (filename encoding : String) :
    ∃ before after, Parallel text before after (start (ofString text) options filename encoding)
      (start (ofString (stripped text)) options filename encoding) := by
  obtain ⟨before, after, hbetween, -, -⟩ := exists_between_start text options filename encoding
  have horigin : Reader.origin (ofString text) = (encode before).length := hbetween.pos
  obtain ⟨mark, body, rfl, hmark, hdrop⟩ := exists_mark hbetween.split (Nat.le_of_eq horigin)
  -- Nothing stands before the start but the byte-order mark.
  obtain rfl : body = [] := by
    have hnil := hdrop body
    rw [horigin, List.drop_length] at hnil
    exact encode_eq_nil.1 hnil.symm
  have hstripped : withoutReturns (mark ++ []) = mark ++ [] := by
    rw [withoutReturns_append, withoutReturns_of_notMem hmark, withoutReturns_nil]
  have hpos : (start (ofString (stripped text)) options filename encoding).reader.pos =
      (encode (withoutReturns (mark ++ []))).length := by
    rw [hstripped, ← horigin, ← origin_stripped h]
    rfl
  have hright : Between (stripped text) (withoutReturns (mark ++ [])) (withoutReturns after)
      (start (ofString (stripped text)) options filename encoding) :=
    { placed := .start (stripped text) options filename encoding
      split := by rw [toList_stripped, hbetween.split, withoutReturns_append]
      pos := hpos }
  have hstart (source : Bytes) :
      (start source options filename encoding).reader.atLineStart = true := rfl
  refine ⟨mark ++ [], after, ?_⟩
  exact
    { left := hbetween
      right := hright
      ends := h
      goesOn := .start ..
      atLineStart := fun _ _ _ _ => (hstart _).trans (hstart _).symm
      notLiteral := Mode.noConfusion
      opened := rfl }

end Reading

end LedgerText
