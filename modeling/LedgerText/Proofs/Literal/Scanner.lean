import LedgerText.Proofs.Grammar.Longest
import LedgerText.Proofs.Literal.Finding
import LedgerText.Proofs.Scanner.Call
import LedgerText.Proofs.Scanner.Reachable

/-!
# Tokens of string literals

Whatever was done with a scanner before, when it comes to an opening quote its next call for a token
is told by the characters behind the quote (`ReadsLiteral`). It asks the builder for a string, or
reports an escape sequence that means nothing, or reports that the literal does not end, and then
stands behind the literal in normal text.

The findings are those of a reading that stands before the quote (`ComesTo.exists_next_eq`). What
becomes of them does not depend on the builder but for its answers.
-/

namespace LedgerText

open Grammar Literal Utf8

namespace Reading

variable {text : String} {before after : List Char} {r : Reading}

/-- Only a quote is an opening quote. -/
theorem exists_quote (h : Between text before after r)
    (hq : (r.reader.lexeme .text).tag = .openingQuote) : ∃ cs, after = '"' :: cs := by
  have hword := Reader.text_mem_pattern (r := r.reader) (by rw [hq]; decide) (by rw [hq]; decide)
  rw [hq, pattern_openingQuote] at hword
  obtain ⟨d, hd, htext⟩ := hword
  obtain rfl := eq_of_beq hd
  have hrest : encode after =
      Byte.quote :: r.reader.rest.drop (r.reader.lexeme .text).length := by
    rw [← h.rest]
    exact (List.take_append_drop _ _).symm.trans (congrArg (· ++ _) htext)
  rcases after with - | ⟨c, cs⟩
  · exact absurd hrest.symm (List.cons_ne_nil _ _)
  -- The quote is the first byte that is left, and the whole of its character.
  obtain ⟨b, bs, hbytes⟩ := List.exists_cons_of_ne_nil (String.utf8EncodeChar_ne_nil (c := c))
  rw [encode_cons, hbytes, List.cons_append] at hrest
  have hmem : Byte.quote ∈ String.utf8EncodeChar c := by
    rw [hbytes, (List.cons.inj hrest).1]
    exact List.mem_cons_self
  obtain ⟨-, hc⟩ := encodeChar_of_mem (by decide) hmem
  have hquote : c = '"' := Char.toNat_inj.1 hc
  rw [hquote]
  exact ⟨cs, rfl⟩

end Reading

namespace Scanner

variable {text : String} {before after rest : List Char} {s : Scanner} {reader : Reader}
  {ps : List Piece}

/-- The scanner `s'` goes on as `s` did, from between two parts of the text. -/
structure Resumes (text : String) (before after : List Char) (s s' : Scanner) : Prop where
  /-- The scanner stands between the parts. -/
  between : Reading.Between text before after s'.reading
  /-- The scanner reads the same file in the same mode. -/
  goesOn : Reading.GoesOn s.reading s'.reading

/-- The next call asks for the string of the pieces in quotes, and goes on behind them. Lines are
all counted where the bytes of the text can be. -/
def AsksString (text : String) (s : Scanner) (before : List Char) (ps : List Piece)
    (rest : List Char) : Prop :=
  ∃ lines, ((ofString text).length ≤ Count.limit →
      lines = (encode (quoted ps)).count Byte.lineFeed) ∧
    ∀ ⦃σ α : Type⦄ (b : Builder σ α) (st : σ),
      s.Asks b st (Reading.stringRequest text s.reading before ps lines)
        (String.ofList (contents ps)) (0 < lines) ∧
      Resumes text (before ++ quoted ps) rest s (s.next b st).2.1

/-- The next call reports an error in place of a lexeme, and goes on between two parts of the
text. -/
def Rejects (text : String) (s : Scanner) (error : LexicalError) (lexeme : String)
    (before after : List Char) : Prop :=
  ∀ ⦃σ α : Type⦄ (b : Builder σ α) (st : σ),
    s.Reports b st error lexeme ∧ Resumes text before after s (s.next b st).2.1

/-- The next call for a token reads the string literal whose opening quote stands between `before`
and `after`, as its pieces say. One of the three is always the case (`pieces_cases`). -/
structure ReadsLiteral (text : String) (s : Scanner) (before after : List Char) : Prop where
  /-- Where all pieces mean something and a quote follows, the builder is asked for the string of
  what they stand for, and the scanner goes on behind the quote. -/
  string : ∀ ps rest, pieces after = (ps, '"' :: rest) → (∀ p ∈ ps, p.IsValid) →
    AsksString text s before ps rest
  /-- The first escape sequence that means nothing is reported at its backslash, and the scanner
  goes on behind the quote that ends the literal, or at the end of the source. -/
  invalid : ∀ good c more rest, pieces after = (good ++ .escape c :: more, rest) →
    (∀ p ∈ good, p.IsValid) → ¬(Piece.escape c).IsValid →
    Rejects text s
      ⟨.invalidEscape c, (Reading.trackerBehind text s.reading.tracker.filename
        (before ++ '"' :: Literal.text good)).locate (encode ['\\', c])⟩
      (String.ofList ['\\', c])
      (before ++ '"' :: (Literal.text (good ++ .escape c :: more) ++ rest.take 1)) (rest.drop 1)
  /-- Where all pieces mean something and the source ends, this is reported at the opening quote. -/
  unterminated : ∀ ps, pieces after = (ps, []) → (∀ p ∈ ps, p.IsValid) →
    Rejects text s
      ⟨.unterminatedString,
        (Reading.trackerBehind text s.reading.tracker.filename before).locate (encode ['"'])⟩
      (String.ofList ('"' :: after)) (before ++ '"' :: after) []

/-! ## Coming to a literal -/

/-- A reachable scanner of normal text comes to the characters `after`, with nothing but blanks to
pass over before them. -/
structure ComesTo (text : String) (s : Scanner) (before after : List Char) : Prop where
  reachable : s.Reachable text
  closed : s.reading.closed = false
  mode : s.reading.mode = .normal
  split : text.toList = before ++ after
  skips : ∃ reader, s.reading.reader.SkipsTo reader ∧ reader.pos = (encode before).length

/-- The next finding is that of a reading that stands where the scanner comes to. -/
theorem ComesTo.exists_next_eq (h : s.ComesTo text before after) :
    ∃ r, Reading.Between text before after r ∧ Reading.GoesOn s.reading r ∧
      s.reading.next = r.next := by
  obtain ⟨reader, hskip, hpos⟩ := h.skips
  obtain ⟨r, rfl, hplaced, hgoes, hnext⟩ :=
    Reading.next_of_skipsTo h.mode h.closed h.reachable.placed hskip
  exact ⟨r, ⟨hplaced, h.split, hpos⟩, hgoes, hnext⟩

/-- A scanner goes on from where the next finding leaves its reading, whatever the builder does. -/
theorem resumes_of_next {finding : Finding} {r : Reading} (h : s.reading.next = (finding, r))
    (hbetween : Reading.Between text before after r) (hgoes : Reading.GoesOn s.reading r)
    {σ α : Type} (b : Builder σ α) (st : σ) :
    Resumes text before after s (s.next b st).2.1 := by
  have hreading : (s.next b st).2.1.reading = r := by
    rw [reading_next, h]
  constructor
  · rwa [hreading]
  · rwa [hreading]

/-- A fault that is found is reported. -/
theorem rejects_of_next {fault : Fault} {lexeme : String} {location : Location} {r : Reading}
    (h : s.reading.next = (.fault fault lexeme location, r))
    (hbetween : Reading.Between text before after r) (hgoes : Reading.GoesOn s.reading r) :
    Rejects text s ⟨fault, location⟩ lexeme before after := by
  intro σ α b st
  constructor
  · exact reports_of_fault h b st
  · exact resumes_of_next h hbetween hgoes b st

/-! ## The three outcomes -/

/-- A string is asked for where the pieces behind a quote mean something up to another quote. -/
theorem ComesTo.asksString (h : s.ComesTo text before ('"' :: after))
    (hps : pieces after = (ps, '"' :: rest)) (hvalid : ∀ p ∈ ps, p.IsValid) :
    AsksString text s before ps rest := by
  obtain ⟨r, hbetween, hgoes, hnext⟩ := h.exists_next_eq
  have hmode : r.mode = .normal := hgoes.mode.trans h.mode
  obtain ⟨lines, r', hfound, hlines, hbetween', hgoes'⟩ :=
    Reading.next_string hmode (hgoes.closed.trans h.closed) hbetween hps hvalid
  -- The blanks before the quote change neither the file nor the encoding.
  have hrequest : Reading.stringRequest text r before ps lines =
      Reading.stringRequest text s.reading before ps lines := by
    rw [Reading.stringRequest, Reading.stringRequest, hgoes.filename, hgoes.encoding]
  rw [← hnext, hrequest] at hfound
  refine ⟨lines, hlines, fun σ α b st => ?_⟩
  constructor
  · exact asks_of_terminal hfound b st
  · exact resumes_of_next hfound hbetween' (hgoes.trans hgoes') b st

/-- An escape sequence that means nothing is reported. -/
theorem ComesTo.rejects_invalidEscape {good more : List Piece} {c : Char}
    (h : s.ComesTo text before ('"' :: after))
    (hps : pieces after = (good ++ .escape c :: more, rest)) (hgood : ∀ p ∈ good, p.IsValid)
    (hc : ¬(Piece.escape c).IsValid) :
    Rejects text s
      ⟨.invalidEscape c, (Reading.trackerBehind text s.reading.tracker.filename
        (before ++ '"' :: Literal.text good)).locate (encode ['\\', c])⟩
      (String.ofList ['\\', c])
      (before ++ '"' :: (Literal.text (good ++ .escape c :: more) ++ rest.take 1))
      (rest.drop 1) := by
  obtain ⟨r, hbetween, hgoes, hnext⟩ := h.exists_next_eq
  have hmode : r.mode = .normal := hgoes.mode.trans h.mode
  obtain ⟨r', hfound, hbetween', hgoes'⟩ :=
    Reading.next_invalidEscape hmode (hgoes.closed.trans h.closed) hbetween hps hgood hc
  rw [← hnext, hgoes.filename] at hfound
  exact rejects_of_next hfound hbetween' (hgoes.trans hgoes')

/-- A literal without an end is reported. -/
theorem ComesTo.rejects_unterminatedString (h : s.ComesTo text before ('"' :: after))
    (hps : pieces after = (ps, [])) (hvalid : ∀ p ∈ ps, p.IsValid) :
    Rejects text s
      ⟨.unterminatedString,
        (Reading.trackerBehind text s.reading.tracker.filename before).locate (encode ['"'])⟩
      (String.ofList ('"' :: after)) (before ++ '"' :: after) [] := by
  obtain ⟨r, hbetween, hgoes, hnext⟩ := h.exists_next_eq
  have hmode : r.mode = .normal := hgoes.mode.trans h.mode
  obtain ⟨r', hfound, hbetween', hgoes'⟩ :=
    Reading.next_unterminated hmode (hgoes.closed.trans h.closed) hbetween hps hvalid
  rw [← hnext, hgoes.filename] at hfound
  exact rejects_of_next hfound hbetween' (hgoes.trans hgoes')

/-- A reachable scanner of normal text that comes to an opening quote reads the literal behind it as
its pieces say. -/
theorem readsLiteral_of_openingQuote (hs : s.Reachable text) (hclosed : s.reading.closed = false)
    (hmode : s.reading.mode = .normal) (hskip : s.reading.reader.SkipsTo reader)
    (hq : (reader.lexeme .text).tag = .openingQuote) :
    ∃ before after, text.toList = before ++ '"' :: after ∧ reader.pos = (encode before).length ∧
      ReadsLiteral text s before after := by
  obtain ⟨r, rfl, hplaced, -, -⟩ := Reading.next_of_skipsTo hmode hclosed hs.placed hskip
  obtain ⟨before, rest, hbetween⟩ := hplaced.exists_between
  obtain ⟨after, rfl⟩ := Reading.exists_quote hbetween hq
  have hcomes : s.ComesTo text before ('"' :: after) :=
    ⟨hs, hclosed, hmode, hbetween.split, r.reader, hskip, hbetween.pos⟩
  exact ⟨before, after, hbetween.split, hbetween.pos,
    { string := fun _ _ hps hvalid => hcomes.asksString hps hvalid
      invalid := fun _ _ _ _ hps hgood hc => hcomes.rejects_invalidEscape hps hgood hc
      unterminated := fun _ hps hvalid => hcomes.rejects_unterminatedString hps hvalid }⟩

/-- Behind a carriage return a literal is read, of three pieces on two lines. -/
theorem readsLiteral_behind_blank :
    let s : Scanner := .start (ofString "\r\"a\\\nb\"c") "f" {}
    let reader := s.reading.reader.after .text
    s.Reachable "\r\"a\\\nb\"c" ∧ s.reading.closed = false ∧ s.reading.mode = .normal ∧
      s.reading.reader.SkipsTo reader ∧ (reader.lexeme .text).tag = .openingQuote ∧
      ∃ before after, "\r\"a\\\nb\"c".toList = before ++ '"' :: after ∧
        reader.pos = (encode before).length ∧ ReadsLiteral "\r\"a\\\nb\"c" s before after :=
  have hs : Reachable "\r\"a\\\nb\"c" (.start (ofString "\r\"a\\\nb\"c") "f" {}) := .start _ _
  have hskip : (Reader.start (ofString "\r\"a\\\nb\"c")).SkipsTo
      ((Reader.start (ofString "\r\"a\\\nb\"c")).after .text) := .blank (by decide) (.refl _)
  have hq : (((Reader.start (ofString "\r\"a\\\nb\"c")).after .text).lexeme .text).tag =
      .openingQuote := by decide
  ⟨hs, rfl, rfl, hskip, hq, readsLiteral_of_openingQuote hs rfl rfl hskip hq⟩

end Scanner

end LedgerText
