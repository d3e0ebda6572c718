import LedgerText.Proofs.Literal.Scanner
import LedgerText.Proofs.Scanner.End
import LedgerText.Tokenize

/-!
# Texts written as literals

A text that is escaped and quoted is read back as it was, wherever the literal stands. Every
character is written as one piece that stands for it, whatever is written behind it
(`pieces_encodeChar_append`), so neighbouring characters never make up another escape sequence, and
the pieces of the literal are those of its characters (`pieces_encode`).
-/

namespace LedgerText

open Utf8

namespace Literal

/-! ## Pieces of escaped texts -/

/-- A character is written as an escape sequence that stands for it and starts no continuation, or
it is plain. -/
theorem encodeChar_cases (c : Char) :
    (∃ d, Escape.encodeChar c = ['\\', d] ∧ d ≠ '\r' ∧ escapes.lookup d = some c) ∨
      Escape.encodeChar c = [c] ∧ c ≠ '"' ∧ c ≠ '\\' := by
  -- Six characters are escaped, and each by a letter or sign of its own.
  unfold Escape.encodeChar
  split
  · exact .inl ⟨_, rfl, by decide, rfl⟩
  · exact .inl ⟨_, rfl, by decide, rfl⟩
  · exact .inl ⟨_, rfl, by decide, rfl⟩
  · exact .inl ⟨_, rfl, by decide, rfl⟩
  · exact .inl ⟨_, rfl, by decide, rfl⟩
  · exact .inl ⟨_, rfl, by decide, rfl⟩
  · next hbackslash hquote _ _ _ _ => exact .inr ⟨rfl, hquote, hbackslash⟩

/-- A written character is one piece, which stands for it. -/
theorem pieces_encodeChar_append (c : Char) : ∃ p : Piece, p.text = Escape.encodeChar c ∧
    p.contents? = some c ∧
    ∀ cs, pieces (Escape.encodeChar c ++ cs) = (p :: (pieces cs).1, (pieces cs).2) := by
  rcases encodeChar_cases c with ⟨d, hd, hne, hlookup⟩ | ⟨hc, hquote, hbackslash⟩
  · refine ⟨.escape d, hd.symm, hlookup, fun cs => ?_⟩
    rw [hd]
    exact pieces_escape fun rest h => hne (List.cons.inj h).1
  · refine ⟨.plain c, hc.symm, rfl, fun cs => ?_⟩
    rw [hc, List.singleton_append, pieces]
    · exact hquote
    · intro _ h
      exact absurd h hbackslash
    · intro _ _ h
      exact absurd h hbackslash

/-- The pieces of an escaped text in quotes stand for its characters. -/
theorem pieces_encode (cs rest : List Char) : ∃ ps,
    pieces (Escape.encode cs ++ '"' :: rest) = (ps, '"' :: rest) ∧ (∀ p ∈ ps, p.IsValid) ∧
      text ps = Escape.encode cs ∧ contents ps = cs := by
  induction cs with
  | nil => exact ⟨[], rfl, fun p hp => absurd hp List.not_mem_nil, rfl, rfl⟩
  | cons c cs ih =>
    obtain ⟨ps, hpieces, hvalid, htext, hcontents⟩ := ih
    obtain ⟨p, hp, hstands, happend⟩ := pieces_encodeChar_append c
    have hcons : Escape.encode (c :: cs) = Escape.encodeChar c ++ Escape.encode cs := rfl
    refine ⟨p :: ps, ?_, ?_, ?_, ?_⟩
    · rw [hcons, List.append_assoc, happend, hpieces]
    · refine List.forall_mem_cons.2 ⟨fun hnone => ?_, hvalid⟩
      exact Option.some_ne_none c (hstands.symm.trans hnone)
    · rw [hcons, text_cons, hp, htext]
    · rw [contents, List.filterMap_cons, hstands]
      exact congrArg (c :: ·) hcontents

/-- Line feeds are written as they are, and nothing else is written with one. -/
theorem count_lineFeed_encode (cs : List Char) : (Escape.encode cs).count '\n' = cs.count '\n' := by
  have hchar : ∀ c, (Escape.encodeChar c).count '\n' = [c].count '\n' := by
    intro c
    unfold Escape.encodeChar
    split <;> rfl
  induction cs with
  | nil => rfl
  | cons c cs ih =>
    have hcons : Escape.encode (c :: cs) = Escape.encodeChar c ++ Escape.encode cs := rfl
    rw [hcons, List.count_append, hchar, ih, ← List.count_append, List.singleton_append]

/-- A text as a literal, with its quotes. -/
def ofContents (contents : String) : String := "\"" ++ Escape.encodeString contents ++ "\""

/-- The characters of a text as a literal. -/
theorem toList_ofContents (contents : String) :
    (ofContents contents).toList = '"' :: (Escape.encode contents.toList ++ ['"']) := by
  have hquote : "\"".toList = ['"'] := by decide
  unfold ofContents Escape.encodeString
  rw [String.toList_append, String.toList_append, hquote, String.toList_ofList]
  rfl

/-- A request is for the text `contents`, as written, in a source. Its lines are all counted where
the bytes of the source can be. -/
structure IsRequest (source contents : String) (lines : Nat) (request : Request) : Prop where
  kind : request.kind = .string
  lexeme : request.lexeme = ofContents contents
  args : ∃ encoding, request.args = .string contents lines encoding
  lines : (ofString source).length ≤ Count.limit → lines = contents.toList.count '\n'

end Literal

namespace Scanner

open Literal

variable {text contents : String} {before rest : List Char} {s : Scanner}

/-- A scanner that comes to a text as a literal asks for the text, and stands behind the literal. -/
theorem ComesTo.asks_contents (h : s.ComesTo text before ((ofContents contents).toList ++ rest)) :
    ∃ lines request, IsRequest text contents lines request ∧
      ∀ ⦃σ α : Type⦄ (b : Builder σ α) (st : σ), s.Asks b st request contents (0 < lines) ∧
        Resumes text (before ++ (ofContents contents).toList) rest s (s.next b st).2.1 := by
  obtain ⟨ps, hpieces, hvalid, htext, hcontents⟩ := pieces_encode contents.toList rest
  have hafter : (ofContents contents).toList ++ rest =
      '"' :: (Escape.encode contents.toList ++ '"' :: rest) := by
    rw [toList_ofContents, List.cons_append, List.append_assoc]
    rfl
  have hquoted : quoted ps = (ofContents contents).toList := by
    rw [quoted, htext, toList_ofContents]
    rfl
  rw [hafter] at h
  obtain ⟨lines, hlines, hasks⟩ := h.asksString hpieces hvalid
  rw [hcontents, hquoted, String.ofList_toList] at hasks
  refine ⟨lines, _, ⟨rfl, ?_, ?_, fun hsize => ?_⟩, hasks⟩
  · rw [Reading.stringRequest, hquoted, String.ofList_toList]
  · exact ⟨s.reading.encoding, by rw [Reading.stringRequest, hcontents, String.ofList_toList]⟩
  · calc lines
      _ = (encode (quoted ps)).count Byte.lineFeed := hlines hsize
      _ = (quoted ps).count '\n' := count_encode (by decide) rfl _
      _ = (Escape.encode contents.toList ++ ['"']).count '\n' := by
        rw [hquoted, toList_ofContents, List.count_cons_of_ne (by decide)]
      _ = (Escape.encode contents.toList).count '\n' := by
        rw [List.count_append]
        rfl
      _ = contents.toList.count '\n' := count_lineFeed_encode _

/-- From its start a scanner comes to a text as a literal that is the whole source. -/
theorem comesTo_start (contents filename : String) (options : Options) :
    (start (ofString (ofContents contents)) filename options).ComesTo (ofContents contents) []
      ((ofContents contents).toList ++ []) where
  reachable := .start _ _
  closed := rfl
  mode := rfl
  split := by rw [List.nil_append, List.append_nil]
  skips := by
    refine ⟨_, .refl _, ?_⟩
    -- The source starts with the quote, so no byte-order mark is passed over.
    have hmark : startsWithMark (ofString (ofContents contents)) = false := by
      rw [ofString, toList_ofContents]
      rfl
    show (Reader.start (ofString (ofContents contents))).pos = 0
    rw [Reader.start, Reader.startAt, hmark]
    rfl

/-- A text as a literal is read as that text, wherever the literal stands. A source that is nothing
but the literal becomes a string, a synthetic end of line and the end of file. -/
theorem string_of_contents (contents : String) :
    (∀ (before rest : String) (s : Scanner) (reader : Reader),
      s.Reachable (before ++ ofContents contents ++ rest) → s.reading.closed = false →
      s.reading.mode = .normal → s.reading.reader.SkipsTo reader →
      reader.pos = (ofString before).length →
      ∃ lines request, IsRequest (before ++ ofContents contents ++ rest) contents lines request ∧
        ∀ ⦃σ α : Type⦄ (b : Builder σ α) (st : σ), s.Asks b st request contents (0 < lines) ∧
          Resumes (before ++ ofContents contents ++ rest) (before ++ ofContents contents).toList
            rest.toList s (s.next b st).2.1) ∧
    ∀ filename, ∃ lines request, IsRequest (ofContents contents) contents lines request ∧
      ∀ ⦃σ α : Type⦄ (b : Builder σ α) (st st' : σ) (value : α),
        b.build request st = (.ok (some value), st') →
        ∃ string eol eof : Token α,
          tokenize b (ofContents contents) filename st = (.ok [string, eol, eof], st') ∧
          string.kind = .string ∧ string.text = contents ∧ string.value = some value ∧
          eol.kind = .endOfLine ∧ eol.flags.synthetic = true ∧ eof.kind = .endOfFile := by
  constructor
  · intro before rest s reader hs hclosed hmode hskip hpos
    have hcomes : s.ComesTo (before ++ ofContents contents ++ rest) before.toList
        ((ofContents contents).toList ++ rest.toList) := by
      refine ⟨hs, hclosed, hmode, ?_, reader, hskip, hpos⟩
      rw [String.toList_append, String.toList_append, List.append_assoc]
    have hasks := hcomes.asks_contents
    rwa [← String.toList_append] at hasks
  · intro filename
    obtain ⟨lines, request, hrequest, hasks⟩ := (comesTo_start contents filename {}).asks_contents
    refine ⟨lines, request, hrequest, fun σ α b st st' value hb => ?_⟩
    obtain ⟨hask, hresumes⟩ := hasks b st
    obtain ⟨-, hst, string, hok, hkind, htext, -, hvalue, -⟩ := hask.answered value st' hb
    -- Behind the literal nothing is left but the end.
    obtain ⟨eol, eof, htokens, heol, hsynthetic, heof⟩ := tokens_of_end hresumes.between
      hresumes.goesOn.mode hresumes.goesOn.closed hresumes.goesOn.endCount
      (congrArg Options.terminateLastLine hresumes.goesOn.options) b st'
    refine ⟨string, eol, eof, ?_, hkind.trans hrequest.kind, htext, hvalue, heol, hsynthetic, heof⟩
    have hne : string.kind ≠ .endOfFile := by
      rw [hkind, hrequest.kind]
      decide
    have hnext : (start (ofString (ofContents contents)) filename {}).next b st =
        (.ok string, ((start (ofString (ofContents contents)) filename {}).next b st).2.1, st') :=
      Prod.ext hok (Prod.ext rfl hst)
    rw [tokenize, tokens_of_next hnext hne, htokens]
    rfl

/-- A text of a backslash, both characters of a line end and a quote is read behind a blank and
before another quote, and on its own by a builder that accepts everything. -/
theorem string_of_contents_lineEnd :
    let text := "\r" ++ ofContents "\\\r\n\"" ++ "\""
    let s : Scanner := .start (ofString text) "f" {}
    let reader := s.reading.reader.after .text
    let b : Builder Unit Unit := ⟨fun _ _ => (.ok (some ()), ()), fun _ _ => (.ok (), ())⟩
    s.Reachable text ∧ s.reading.closed = false ∧ s.reading.mode = .normal ∧
      s.reading.reader.SkipsTo reader ∧ reader.pos = (ofString "\r").length ∧
      (∃ lines request, IsRequest text "\\\r\n\"" lines request ∧ ∀ ⦃σ α : Type⦄
        (b : Builder σ α) (st : σ), s.Asks b st request "\\\r\n\"" (0 < lines) ∧
          Resumes text ("\r" ++ ofContents "\\\r\n\"").toList "\"".toList s (s.next b st).2.1) ∧
      ∃ string eol eof : Token Unit,
        tokenize b (ofContents "\\\r\n\"") "f" () = (.ok [string, eol, eof], ()) ∧
          string.kind = .string ∧ string.text = "\\\r\n\"" ∧ string.value = some () ∧
          eol.kind = .endOfLine ∧ eol.flags.synthetic = true ∧ eof.kind = .endOfFile := by
  intro text s reader b
  have hskip : s.reading.reader.SkipsTo reader := .blank (by decide) (.refl _)
  have hpos : reader.pos = (ofString "\r").length := by decide
  obtain ⟨hinside, halone⟩ := string_of_contents "\\\r\n\""
  obtain ⟨_, _, -, htokens⟩ := halone "f"
  exact ⟨.start _ _, rfl, rfl, hskip, hpos,
    hinside "\r" "\"" s reader (.start _ _) rfl rfl hskip hpos, htokens b () () () rfl⟩

end Scanner

end LedgerText
