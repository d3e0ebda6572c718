import LedgerText.Proofs.Literal.Reading

/-!
# What is found of string literals

From an opening quote a reading goes through the pieces behind it, and comes to one of three
findings. Where all pieces mean something, a quote behind them makes a string of what they stand for
(`next_string`), and the end of the source makes an unterminated literal (`next_unterminated`). The
first piece that means nothing makes an invalid escape sequence, and the rest of the literal is
thrown away (`next_invalidEscape`).
-/

namespace LedgerText.Reading

open Literal Utf8

variable {text : String} {before after rest : List Char} {r r' : Reading} {ps : List Piece}

/-! ## The opening quote -/

/-- The reading behind an opening quote. -/
def opened (r : Reading) : Reading :=
  { r.move .text with
    buffer := r.buffer.clear
    opening := ⟨r.reader.pos, r.tracker.locate (encode ['"'])⟩
    mode := .literal }

/-- A quote in normal text is an opening quote, also at the start of a line. -/
theorem lexeme_openingQuote (h : Between text before ('"' :: after) r) :
    r.reader.lexeme .text = ⟨.openingQuote, 1⟩ := by
  have hinText : ∀ lineStart, Lexeme.inText lineStart (encode ('"' :: after)).length
      (encode ('"' :: after)) = ⟨.openingQuote, 1⟩ := by
    intro lineStart
    cases lineStart <;> rfl
  rw [Reader.lexeme, h.rest]
  exact hinText _

/-- An opening quote opens a literal. -/
theorem step_openingQuote (hmode : r.mode = .normal) (h : Between text before ('"' :: after) r) :
    r.step = .onward r.opened ∧ Between text (before ++ ['"']) after r.opened := by
  have hfront : Between text before (['"'] ++ after) r := h
  have hlex := lexeme_openingQuote h
  have hlen : (r.reader.lexeme .text).length = (encode ['"']).length := congrArg Lexeme.length hlex
  refine ⟨?_, (hfront.move hlen).congr rfl rfl⟩
  rw [step, hmode]
  unfold stepText
  dsimp only
  rw [hlex, Reader.text_eq_encode hfront.rest hlen]
  rfl

/-- Leaving a literal goes on from before its opening quote. -/
theorem Collects.goesOn_leave (h : Collects r.opened ps r') (hmode : r.mode = .normal)
    {last : Reading} (hlast : GoesOn r' last) : GoesOn r last.leaveLiteral where
  options := hlast.options.trans h.options
  encoding := hlast.encoding.trans h.encoding
  mode := hmode.symm
  endCount := hlast.endCount.trans h.endCount
  closed := hlast.closed.trans h.closed
  filename := hlast.filename.trans h.filename

/-- From an opening quote the pieces that mean something are read, with nothing found. -/
theorem next_of_openingQuote {good more : List Piece} (hmode : r.mode = .normal)
    (hclosed : r.closed = false) (h : Between text before ('"' :: after) r)
    (hps : pieces after = (good ++ more, rest)) (hgood : ∀ p ∈ good, p.IsValid)
    (hmore : ∀ p ps, more = p :: ps → ¬p.IsValid) :
    ∃ r', Between text (before ++ '"' :: Literal.text good) (Literal.text more ++ rest) r' ∧
      pieces (Literal.text more ++ rest) = (more, rest) ∧ Collects r.opened good r' ∧
      r.next = r'.next := by
  obtain ⟨hstep, hopened⟩ := step_openingQuote hmode h
  have hopen : r.opened.closed = false := hclosed
  obtain ⟨r', hbetween, hleft, hcollects, hnext⟩ := next_of_pieces rfl hopen hopened hps hgood hmore
  refine ⟨r', ?_, hleft, hcollects, (next_of_onward hclosed hstep).trans hnext⟩
  rwa [List.append_assoc] at hbetween

/-! ## The three findings -/

/-- The request for the string that pieces make, where its opening quote stands behind `before`. -/
def stringRequest (text : String) (r : Reading) (before : List Char) (ps : List Piece)
    (lines : Nat) : Request where
  kind := .string
  lexeme := String.ofList (quoted ps)
  location := (trackerBehind text r.tracker.filename before).locate (encode (quoted ps))
  args := .string (String.ofList (contents ps)) lines r.encoding

/-- A text with a literal in it has fewer line feeds up to the end of the literal than bytes, so the
lines of every text whose length can be counted can be counted. -/
theorem count_lineFeed_lt (h : text.toList = before ++ quoted ps ++ rest) :
    1 + (encode (before ++ quoted ps)).count Byte.lineFeed ≤ (ofString text).length := by
  generalize hinside : encode (Literal.text ps ++ ['"']) = inside
  have hquoted : encode (quoted ps) = Byte.quote :: inside := hinside ▸ rfl
  have hbefore : (encode before).count Byte.lineFeed ≤ (encode before).length :=
    List.count_le_length
  have hle : inside.count Byte.lineFeed ≤ inside.length := List.count_le_length
  -- The quotes are no line feeds.
  have hcount : (encode (before ++ quoted ps)).count Byte.lineFeed =
      (encode before).count Byte.lineFeed + inside.count Byte.lineFeed := by
    rw [encode_append, List.count_append, hquoted, List.count_cons_of_ne (by decide)]
  have hlength : (ofString text).length =
      (encode before).length + (inside.length + 1) + (encode rest).length := by
    rw [ofString, h, encode_append, encode_append, hquoted, List.length_append,
      List.length_append, List.length_cons]
  omega

/-- A quote behind pieces that all mean something ends a string, which is asked for by what they
stand for. Its lines are those by which the tracker goes on. -/
theorem next_string_tracker (hmode : r.mode = .normal) (hclosed : r.closed = false)
    (h : Between text before ('"' :: after) r) (hps : pieces after = (ps, '"' :: rest))
    (hvalid : ∀ p ∈ ps, p.IsValid) :
    ∃ r', r.next =
        (.terminal (stringRequest text r before ps (r'.tracker.line - r.tracker.line))
          (String.ofList (contents ps)) { multiLine := 0 < r'.tracker.line - r.tracker.line }, r') ∧
      Between text (before ++ quoted ps) rest r' ∧ GoesOn r r' := by
  have hps' : pieces after = (ps ++ [], '"' :: rest) := by rw [List.append_nil, hps]
  obtain ⟨r₁, hbetween, -, hcollects, hnext⟩ := next_of_openingQuote hmode hclosed h hps' hvalid
    (fun p qs hnil => absurd hnil.symm (List.cons_ne_nil p qs))
  have hquote : Between text (before ++ '"' :: Literal.text ps) (['"'] ++ rest) r₁ := hbetween
  have hlex : r₁.reader.lexeme .literal = ⟨.closingQuote, 1⟩ :=
    (lexeme_literal hbetween).trans (lexeme_quote rest)
  have hclose : Between text (before ++ quoted ps) rest (r₁.move .literal) := by
    have hmove := hquote.move (congrArg Lexeme.length hlex : _ = (encode ['"']).length)
    rwa [List.append_assoc] at hmove
  have hstep : r₁.step =
      .found (r₁.move .literal).literalFinding (r₁.move .literal).leaveLiteral := by
    rw [step, hcollects.mode]
    unfold opened stepLiteral
    dsimp only
    rw [hlex]
  -- Nothing that was noted at the opening quote has changed since.
  have hopening : (r₁.move .literal).opening =
      ⟨(encode before).length, r.tracker.locate (encode ['"'])⟩ := by
    rw [← h.pos]
    exact hcollects.opening
  have hbytes : (r₁.move .literal).buffer.bytes = encode (contents ps) := hcollects.bytes
  have hcontents : (r₁.move .literal).buffer.contents = String.ofList (contents ps) := by
    rw [TextBuffer.contents, hbytes, toString_encode]
  have hencoding : (r₁.move .literal).encoding = r.encoding := hcollects.encoding
  have hfound := hnext.trans (next_of_found (hcollects.closed.trans hclosed) hstep)
  refine ⟨(r₁.move .literal).leaveLiteral, hfound.trans ?_, hclose.congr rfl rfl,
    hcollects.goesOn_leave hmode ⟨rfl, rfl, rfl, rfl, rfl, rfl⟩⟩
  rw [literalFinding, hopening, hcontents, hencoding, hclose.since, toString_encode, stringRequest,
    ← h.tracker]
  rfl

/-- A quote behind pieces that all mean something ends a string. Its lines are those of its line
feeds, if the bytes of the text can be counted. -/
theorem next_string (hmode : r.mode = .normal) (hclosed : r.closed = false)
    (h : Between text before ('"' :: after) r) (hps : pieces after = (ps, '"' :: rest))
    (hvalid : ∀ p ∈ ps, p.IsValid) :
    ∃ lines r', r.next = (.terminal (stringRequest text r before ps lines)
        (String.ofList (contents ps)) { multiLine := 0 < lines }, r') ∧
      ((ofString text).length ≤ Count.limit →
        lines = (encode (quoted ps)).count Byte.lineFeed) ∧
      Between text (before ++ quoted ps) rest r' ∧ GoesOn r r' := by
  obtain ⟨r', hnext, hstop, hgoes⟩ := next_string_tracker hmode hclosed h hps hvalid
  refine ⟨_, r', hnext, fun hsize => h.line_sub_line hstop ?_, hstop, hgoes⟩
  exact Nat.le_trans (count_lineFeed_lt hstop.split) hsize

/-- An escape sequence that means nothing, behind pieces that all mean something, is found at its
backslash. The rest of the literal is thrown away, its closing quote included. -/
theorem next_invalidEscape {good more : List Piece} {c : Char} (hmode : r.mode = .normal)
    (hclosed : r.closed = false) (h : Between text before ('"' :: after) r)
    (hps : pieces after = (good ++ .escape c :: more, rest)) (hgood : ∀ p ∈ good, p.IsValid)
    (hc : ¬(Piece.escape c).IsValid) :
    ∃ r', r.next =
        (.fault (.invalidEscape c) (String.ofList ['\\', c])
          ((trackerBehind text r.tracker.filename (before ++ '"' :: Literal.text good)).locate
            (encode ['\\', c])), r') ∧
      Between text (before ++ '"' :: (Literal.text (good ++ .escape c :: more) ++ rest.take 1))
        (rest.drop 1) r' ∧ GoesOn r r' := by
  obtain ⟨r₁, hbetween, hleft, hcollects, hnext⟩ :=
    next_of_openingQuote hmode hclosed h hps hgood fun p qs hp => (List.cons.inj hp).1 ▸ hc
  generalize hds : Literal.text more ++ rest = ds at *
  have hleft' : pieces ('\\' :: c :: ds) = (.escape c :: more, rest) := hds ▸ hleft
  -- A line end behind the backslash would be a continuation, which means something.
  have hcrlf : ∀ cs, c :: ds ≠ '\r' :: '\n' :: cs := by
    intro cs hcs
    rw [hcs, pieces] at hleft'
    simp at hleft'
  have hmore : pieces ds = (more, rest) := by
    rw [pieces_escape hcrlf] at hleft'
    simp only [Prod.mk.injEq, List.cons.injEq, true_and] at hleft'
    exact Prod.ext hleft'.1 hleft'.2
  -- The escape sequence is read, and then what is left of the literal.
  have hescape : Between text (before ++ '"' :: Literal.text good) (['\\', c] ++ ds) r₁ := by
    rw [← hds]
    exact hbetween
  have hlex : r₁.reader.lexeme .literal = ⟨.escape, (encode ['\\', c]).length⟩ :=
    (lexeme_literal hescape).trans (lexeme_escape hcrlf)
  have hlen := congrArg Lexeme.length hlex
  have htext := Reader.text_eq_encode hescape.rest hlen
  have hread := hescape.move hlen
  have hdecode : Escape.decode c = none := by
    rw [decode_eq_lookup]
    exact not_not.1 hc
  have hstep : r₁.step = .found
      (.fault (.invalidEscape c) (String.ofList ['\\', c]) (r₁.tracker.locate (encode ['\\', c])))
      ((r₁.move .literal).move .skipLiteral).leaveLiteral := by
    rw [step, hcollects.mode]
    unfold opened stepLiteral
    dsimp only
    rw [hlex, htext, escapedChar_encode, hdecode, toString_encode]
  have hsplit : ds = (Literal.text more ++ rest.take 1) ++ rest.drop 1 := by
    rw [List.append_assoc, List.take_append_drop, hds]
  have hskip : ((r₁.move .literal).reader.lexeme .skipLiteral).length =
      (encode (Literal.text more ++ rest.take 1)).length := by
    have hlength := literalLength_encode ds
    rw [hmore] at hlength
    rw [Reader.lexeme, hread.rest]
    exact hlength
  rw [hsplit] at hread
  have hthrown := hread.move hskip
  have hfound := hnext.trans (next_of_found (hcollects.closed.trans hclosed) hstep)
  refine ⟨((r₁.move .literal).move .skipLiteral).leaveLiteral, hfound.trans ?_, ?_,
    hcollects.goesOn_leave hmode ⟨rfl, rfl, rfl, rfl, rfl, rfl⟩⟩
  · rw [hbetween.tracker, hcollects.filename]
    rfl
  · have hall : before ++ '"' :: (Literal.text (good ++ .escape c :: more) ++ rest.take 1) =
        before ++ '"' :: Literal.text good ++ ['\\', c] ++ (Literal.text more ++ rest.take 1) := by
      simp only [text_append, text_cons, Piece.text, List.append_assoc, List.cons_append]
    rw [hall]
    exact hthrown.congr rfl rfl

/-- The end of the source behind pieces that all mean something makes an unterminated literal, which
is found at its opening quote. -/
theorem next_unterminated (hmode : r.mode = .normal) (hclosed : r.closed = false)
    (h : Between text before ('"' :: after) r) (hps : pieces after = (ps, []))
    (hvalid : ∀ p ∈ ps, p.IsValid) :
    ∃ r', r.next =
        (.fault .unterminatedString (String.ofList ('"' :: after))
          ((trackerBehind text r.tracker.filename before).locate (encode ['"'])), r') ∧
      Between text (before ++ '"' :: after) [] r' ∧ GoesOn r r' := by
  have hps' : pieces after = (ps ++ [], []) := by rw [List.append_nil, hps]
  have hafter : Literal.text ps = after := by
    have htext := text_pieces after
    rwa [hps, List.append_nil] at htext
  obtain ⟨r₁, hbetween, -, hcollects, hnext⟩ := next_of_openingQuote hmode hclosed h hps' hvalid
    (fun p qs hnil => absurd hnil.symm (List.cons_ne_nil p qs))
  rw [hafter] at hbetween
  have hend : Between text (before ++ '"' :: after) ([] ++ []) r₁ := hbetween
  have hlex : r₁.reader.lexeme .literal = ⟨.endOfFile, 0⟩ :=
    (lexeme_literal hbetween).trans lexeme_nil
  have hread := hend.move (congrArg Lexeme.length hlex : _ = (encode []).length)
  rw [List.append_nil] at hread
  have hstep : r₁.step =
      .found (r₁.move .literal).unterminatedFinding (r₁.move .literal).leaveLiteral := by
    rw [step, hcollects.mode]
    unfold opened stepLiteral
    dsimp only
    rw [hlex]
  have hopening : (r₁.move .literal).opening =
      ⟨(encode before).length, r.tracker.locate (encode ['"'])⟩ := by
    rw [← h.pos]
    exact hcollects.opening
  have hfound := hnext.trans (next_of_found (hcollects.closed.trans hclosed) hstep)
  refine ⟨(r₁.move .literal).leaveLiteral, hfound.trans ?_, hread.congr rfl rfl,
    hcollects.goesOn_leave hmode ⟨rfl, rfl, rfl, rfl, rfl, rfl⟩⟩
  rw [unterminatedFinding, hopening, hread.since, toString_encode, ← h.tracker]

end LedgerText.Reading
