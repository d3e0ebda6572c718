import LedgerText.Proofs.Literal.Lexeme
import LedgerText.Proofs.Reading.Onward

/-!
# Readings of string literals

Every step in a literal reads pieces off the front of what is left and collects what they stand for
(`stepLiteral_cases`). So the pieces up to the first that means nothing are read one lexeme after
another, with nothing found (`next_of_pieces`). The reading that is left then differs from the one
at the start by where it stands and by what is in its buffer (`Collects`).
-/

namespace LedgerText

open Utf8

namespace Reader

variable {r : Reader} {m : Move} {front cs : List Char}

/-- A lexeme that is as long as the characters at the front is those characters. -/
theorem text_eq_encode (hrest : r.rest = encode (front ++ cs))
    (hlen : (r.lexeme m).length = (encode front).length) : r.text m = encode front := by
  rw [text, hlen, hrest, encode_append, List.take_left]

end Reader

namespace Reading

open Literal

variable {text : String} {before cs : List Char} {r r' : Reading} {ps qs : List Piece}

/-! ## Pieces that mean something -/

/-- The reading `r'` goes on from `r` in the same literal, and collected what the pieces stand
for. -/
structure Collects (r : Reading) (ps : List Piece) (r' : Reading) : Prop extends GoesOn r r' where
  opening : r'.opening = r.opening
  bytes : r'.buffer.bytes = r.buffer.bytes ++ encode (contents ps)

namespace Collects

/-- No pieces stand for nothing. -/
theorem refl (r : Reading) : Collects r [] r where
  toGoesOn := .refl r
  opening := rfl
  bytes := (List.append_nil _).symm

/-- Pieces are collected one after another. -/
theorem trans {r₁ r₂ : Reading} (h₁ : Collects r ps r₁) (h₂ : Collects r₁ qs r₂) :
    Collects r (ps ++ qs) r₂ where
  toGoesOn := h₁.toGoesOn.trans h₂.toGoesOn
  opening := h₂.opening.trans h₁.opening
  bytes := by rw [h₂.bytes, h₁.bytes, contents_append, encode_append, List.append_assoc]

/-- A lexeme that adds to the buffer what the pieces stand for collects it. -/
theorem move {buffer : TextBuffer} (h : buffer.bytes = r.buffer.bytes ++ encode (contents ps))
    (m : Move) : Collects r ps { r.move m with buffer } where
  toGoesOn := ⟨rfl, rfl, rfl, rfl, rfl, rfl⟩
  opening := rfl
  bytes := h

end Collects

/-- The next lexeme of a literal is told by the characters that are left. -/
theorem lexeme_literal (h : Between text before cs r) :
    r.reader.lexeme .literal = Literal.lexeme cs := by
  rw [Reader.lexeme, h.rest]
  rfl

/-- Plain text is collected as it is. -/
theorem stepLiteral_text (h : Between text before (Literal.text ps ++ cs) r)
    (hlex : Literal.lexeme (Literal.text ps ++ cs) =
      ⟨.literalText, (encode (Literal.text ps)).length⟩)
    (hcontents : contents ps = Literal.text ps) : ∃ r', r.stepLiteral = .onward r' ∧
      Between text (before ++ Literal.text ps) cs r' ∧ Collects r ps r' := by
  have hl := (lexeme_literal h).trans hlex
  have hlen := congrArg Lexeme.length hl
  have htext := Reader.text_eq_encode h.rest hlen
  refine ⟨{ r.move .literal with buffer := r.buffer.append (r.reader.text .literal) }, ?_,
    (h.move hlen).congr rfl rfl, .move ?_ _⟩
  · unfold stepLiteral
    dsimp only
    rw [hl]
  · rw [htext, hcontents]
    rfl

/-- A line feed is collected. -/
theorem stepLiteral_lineFeed (h : Between text before ('\n' :: cs) r) :
    ∃ r', r.stepLiteral = .onward r' ∧ Between text (before ++ ['\n']) cs r' ∧
      Collects r [.plain '\n'] r' := by
  have hl := (lexeme_literal h).trans (lexeme_lineFeed cs)
  have hfront : Between text before (['\n'] ++ cs) r := h
  have hlen : (r.reader.lexeme .literal).length = (encode ['\n']).length :=
    congrArg Lexeme.length hl
  refine ⟨{ r.move .literal with buffer := r.buffer.push Byte.lineFeed }, ?_,
    (hfront.move hlen).congr rfl rfl, .move rfl _⟩
  unfold stepLiteral
  dsimp only
  rw [hl]

/-- An escape sequence that means something is collected as what it stands for. -/
theorem stepLiteral_escape {p : Piece} {c d : Char} (h : Between text before (p.text ++ cs) r)
    (hlex : Literal.lexeme (p.text ++ cs) = ⟨.escape, (encode p.text).length⟩)
    (hchar : escapedChar (encode p.text) = c) (hdecode : Escape.decode c = some d)
    (hcontents : p.contents? = some d) : ∃ r', r.stepLiteral = .onward r' ∧
      Between text (before ++ p.text) cs r' ∧ Collects r [p] r' := by
  have hl := (lexeme_literal h).trans hlex
  have hlen := congrArg Lexeme.length hl
  have htext := Reader.text_eq_encode h.rest hlen
  have hone : contents [p] = [d] := by
    rw [contents, List.filterMap_cons, hcontents]
    rfl
  refine ⟨{ r.move .literal with buffer := r.buffer.pushChar d }, ?_,
    (h.move hlen).congr rfl rfl, .move ?_ _⟩
  · unfold stepLiteral
    dsimp only
    rw [hl, htext, hchar, hdecode]
  · rw [hone]
    rfl

/-- What one step in a literal does: nothing but a quote, or nothing at all, is left; or an escape
sequence that means nothing is next; or pieces that mean something are read. -/
theorem stepLiteral_cases (h : Between text before cs r) :
    (pieces cs).1 = [] ∨
      (∃ c ds, cs = '\\' :: c :: ds ∧ pieces cs = (.escape c :: (pieces ds).1, (pieces ds).2) ∧
        ¬(Piece.escape c).IsValid) ∨
      ∃ ps ds, ps ≠ [] ∧ (∀ p ∈ ps, p.IsValid) ∧ cs = Literal.text ps ++ ds ∧
        pieces cs = (ps ++ (pieces ds).1, (pieces ds).2) ∧
        ∃ r', r.stepLiteral = .onward r' ∧ Between text (before ++ Literal.text ps) ds r' ∧
          Collects r ps r' := by
  have hplain : ∀ c, (Piece.plain c).IsValid := fun c => Option.some_ne_none c
  -- One lexeme is read for each way in which the characters can begin.
  rcases front cs with - | cs | cs | - | cs | ⟨c, cs, hcrlf⟩ | ⟨run, cs, hne, hrun, hstop⟩
  · exact .inl rfl
  · exact .inl rfl
  · refine .inr (.inr ⟨[.plain '\n'], cs, List.cons_ne_nil _ _, ?_, rfl, pieces_lineFeed cs,
      stepLiteral_lineFeed h⟩)
    exact fun p hp => List.mem_singleton.1 hp ▸ hplain _
  · -- A backslash at the end is plain text.
    refine .inr (.inr ⟨[.plain '\\'], [], List.cons_ne_nil _ _, ?_, rfl, rfl, ?_⟩)
    · exact fun p hp => List.mem_singleton.1 hp ▸ hplain _
    · exact stepLiteral_text h lexeme_backslash rfl
  · have hp : Between text before (Piece.continuation.text ++ cs) r := h
    refine .inr (.inr ⟨[.continuation], cs, List.cons_ne_nil _ _, ?_, rfl, rfl, ?_⟩)
    · exact fun p hp => List.mem_singleton.1 hp ▸ Option.some_ne_none _
    · exact stepLiteral_escape hp (lexeme_continuation cs) escapedChar_continuation rfl rfl
  · have hpieces := pieces_escape hcrlf
    -- The table tells whether the escape sequence means something.
    rcases hlookup : escapes.lookup c with - | d
    · exact .inr (.inl ⟨c, cs, rfl, hpieces, fun hc => hc hlookup⟩)
    · have hp : Between text before ((Piece.escape c).text ++ cs) r := h
      refine .inr (.inr ⟨[.escape c], cs, List.cons_ne_nil _ _, ?_, rfl, hpieces, ?_⟩)
      · intro p hp hnone
        rw [List.mem_singleton.1 hp] at hnone
        exact Option.some_ne_none d (hlookup.symm.trans hnone)
      · exact stepLiteral_escape hp (lexeme_escape hcrlf) (escapedChar_encode c)
          ((decode_eq_lookup c).trans hlookup) hlookup
  · refine .inr (.inr ⟨run.map .plain, cs, ?_, ?_, ?_, pieces_run hrun cs, ?_⟩)
    · rwa [ne_eq, List.map_eq_nil_iff]
    · intro p hp
      obtain ⟨c, -, rfl⟩ := List.mem_map.1 hp
      exact hplain c
    · rw [text_map_plain]
    · have htext := text_map_plain run
      rw [← htext] at h
      refine stepLiteral_text h ?_ ?_
      · rw [htext]
        exact lexeme_run hne hrun hstop
      · rw [htext, contents_map_plain]

/-! ## Up to the first piece that means nothing -/

/-- Pieces that mean something come before the first that does not. -/
theorem exists_eq_append_of_valid {good more : List Piece} (h : good ++ more = ps ++ qs)
    (hps : ∀ p ∈ ps, p.IsValid) (hmore : ∀ p rest, more = p :: rest → ¬p.IsValid) :
    ∃ good', good = ps ++ good' ∧ good' ++ more = qs := by
  rcases List.append_eq_append_iff.1 h with ⟨mid, rfl, rfl⟩ | ⟨mid, rfl, rfl⟩
  · rcases mid with - | ⟨p, mid⟩
    · exact ⟨[], by simp, rfl⟩
    · exact absurd (hps p (by simp)) (hmore p _ rfl)
  · exact ⟨mid, rfl, rfl⟩

/-- The pieces up to the first that means nothing are read, with nothing found. -/
theorem next_of_pieces {good more : List Piece} {rest : List Char} (hmode : r.mode = .literal)
    (hclosed : r.closed = false) (h : Between text before cs r)
    (hps : pieces cs = (good ++ more, rest)) (hgood : ∀ p ∈ good, p.IsValid)
    (hmore : ∀ p ps, more = p :: ps → ¬p.IsValid) :
    ∃ r', Between text (before ++ Literal.text good) (Literal.text more ++ rest) r' ∧
      pieces (Literal.text more ++ rest) = (more, rest) ∧ Collects r good r' ∧
      r.next = r'.next := by
  -- A step may read many pieces at once, so the induction is on how much is left.
  induction hn : cs.length using Nat.strongRecOn generalizing r before cs good with
  | _ n ih =>
    subst hn
    have hall : Literal.text good ++ (Literal.text more ++ rest) = cs := by
      have htext := text_pieces cs
      rwa [hps, text_append, List.append_assoc] at htext
    rcases stepLiteral_cases h with hnil | ⟨c, ds, rfl, hpieces, hc⟩ | ⟨ps, ds, hne, hvalid, hcs,
      hpieces, r', hstep, hbetween, hcollects⟩
    · -- Nothing is read where there are no pieces, and nothing before a piece without meaning.
      obtain ⟨rfl, -⟩ := List.append_eq_nil_iff.1 ((congrArg Prod.fst hps).symm.trans hnil)
      rw [← hall, ← List.append_nil before] at h
      rw [← hall] at hps
      exact ⟨r, h, hps, .refl r, rfl⟩
    · -- The piece without meaning is next, so no piece comes before it.
      rcases good with - | ⟨p, good⟩
      · rw [← hall, ← List.append_nil before] at h
        rw [← hall] at hps
        exact ⟨r, h, hps, .refl r, rfl⟩
      · have hp := congrArg Prod.fst (hps.symm.trans hpieces)
        have hpc : p = .escape c := (List.cons.inj hp).1
        exact absurd (hpc ▸ hgood p List.mem_cons_self) hc
    · -- The pieces that are read come before the first without meaning.
      have hfst := congrArg Prod.fst (hps.symm.trans hpieces)
      obtain ⟨good', rfl, hgood'⟩ := exists_eq_append_of_valid hfst hvalid hmore
      have hlt : ds.length < cs.length := by
        rw [hcs, List.length_append]
        have hpos : 0 < (Literal.text ps).length := by
          obtain ⟨p, ps, rfl⟩ := List.exists_cons_of_ne_nil hne
          cases p <;> simp [Piece.text]
        omega
      have hstep' : r.step = .onward r' := by
        rw [step, hmode]
        exact hstep
      have hps' : pieces ds = (good' ++ more, rest) := by
        have hsnd := congrArg Prod.snd (hps.symm.trans hpieces)
        rw [hgood']
        exact Prod.ext rfl hsnd.symm
      obtain ⟨r'', hbetween', hmore', hcollects', hnext⟩ := ih ds.length hlt
        (hcollects.mode.trans hmode) (hcollects.closed.trans hclosed) hbetween hps'
        (fun p hp => hgood p (List.mem_append_right _ hp)) rfl
      refine ⟨r'', ?_, hmore', hcollects.trans hcollects',
        (next_of_onward hclosed hstep').trans hnext⟩
      rwa [List.append_assoc, ← text_append] at hbetween'

end Reading

end LedgerText
