import LedgerText.Proofs.Literal.Lexeme
import LedgerText.Proofs.Reader.Safety
import Mathlib.Algebra.GroupWithZero.Nat

/-!
# Literals that are thrown away

There are two ways to the end of a literal: to read its pieces up to the closing quote or the end of
the source (`Reader.readLiteral`), or to throw it away as a whole. They take different steps. A run
of plain text is one piece and is thrown away byte by byte; a backslash, a carriage return and a
line feed are one piece, but are thrown away as an escaped carriage return and a line feed; and a
backslash at the end of the source is a piece of text, but escapes nothing.

Still every piece is a front of what is thrown away, and what is thrown away behind it is the rest
(`literalLength_front`). So both ways come to the same place from every character boundary, and as
many bytes are thrown away as the pieces have (`discarded_eq_pieces`).
-/

namespace LedgerText

open Byte Lexeme Literal Utf8

/-- The lexeme ends a literal: as its closing quote, or as the end of the source. -/
def Lexeme.endsLiteral (l : Lexeme) : Bool := l.tag = .closingQuote || l.tag = .endOfFile

namespace Literal

/-! ## One piece -/

/-- Where no literal ends, its next piece is characters at the front, and they are thrown away
before all that is thrown away behind them. Where it ends, only the closing quote is thrown away. -/
theorem literalLength_front (cs : List Char) :
    (lexeme cs).endsLiteral = true ∧
        literalLength (encode cs).length (encode cs) = (lexeme cs).length ∨
      (lexeme cs).endsLiteral = false ∧ ∃ piece rest, cs = piece ++ rest ∧
        (lexeme cs).length = (encode piece).length ∧
        literalLength (encode cs).length (encode cs) =
          (encode piece).length + literalLength (encode rest).length (encode rest) := by
  rcases front cs with - | cs | cs | - | cs | ⟨c, cs, hcrlf⟩ | ⟨run, cs, hne, hrun, hstop⟩
  · exact .inl ⟨rfl, literalLength_nil _⟩
  · refine .inl ⟨rfl, ?_⟩
    rw [show encode ('"' :: cs) = quote :: encode cs from rfl, List.length_cons, literalLength,
      if_pos rfl, lexeme_quote]
  · exact .inr ⟨rfl, ['\n'], cs, rfl, rfl, literalLength_plain (by decide) (by decide) cs⟩
  · refine .inr ⟨rfl, ['\\'], [], rfl, rfl, ?_⟩
    rw [literalLength_backslash, encode_nil, literalLength_nil]
    rfl
  · refine .inr ⟨?_, ['\\', '\r', '\n'], cs, rfl, ?_, ?_⟩
    · rw [lexeme_continuation]
      rfl
    · rw [lexeme_continuation]
      rfl
    · -- The carriage return is thrown away as escaped, and the line feed by itself.
      rw [literalLength_escape, literalLength_plain (by decide) (by decide), ← Nat.add_assoc]
      rfl
  · refine .inr ⟨?_, ['\\', c], cs, rfl, ?_, literalLength_escape c cs⟩
    · rw [lexeme_escape hcrlf]
      rfl
    · rw [lexeme_escape hcrlf]
  · refine .inr ⟨?_, run, cs, rfl, ?_, ?_⟩
    · rw [lexeme_run hne hrun hstop]
      rfl
    · rw [lexeme_run hne hrun hstop]
    · rw [encode_append]
      refine literalLength_append (fun b hb => ?_) _
      have hdelimiter := isLiteralDelimiter_eq_false hrun hb
      simp only [isLiteralDelimiter, Bool.or_eq_false_iff, beq_eq_false_iff_ne] at hdelimiter
      exact hdelimiter.1

end Literal

namespace Reader

variable {r : Reader}

/-! ## Pieces up to the end of a literal -/

/-- Until a literal ends, its next piece leaves less to read. -/
theorem length_rest_after_piece_lt (h : (r.lexeme .literal).endsLiteral = false) :
    (r.after .literal).rest.length < r.rest.length := by
  refine length_rest_after_lt (.inr rfl) fun htag => ?_
  rw [Lexeme.endsLiteral, htag] at h
  cases h

/-- The pieces of a literal from the next one up to its closing quote or the end of the source, this
included, and the reader after them. -/
def readLiteral (r : Reader) : List Lexeme × Reader :=
  if (r.lexeme .literal).endsLiteral then ([r.lexeme .literal], r.after .literal)
  else
    let (pieces, last) := (r.after .literal).readLiteral
    (r.lexeme .literal :: pieces, last)
termination_by r.rest.length
decreasing_by exact length_rest_after_piece_lt (Bool.eq_false_iff.2 ‹_›)

/-- Throwing away a literal from a boundary goes on by the next piece, and then by what is thrown
away behind it. -/
theorem length_skipLiteral (h : IsBoundary r.source r.pos) :
    (r.lexeme .skipLiteral).length =
      if (r.lexeme .literal).endsLiteral then (r.lexeme .literal).length
      else (r.lexeme .literal).length + ((r.after .literal).lexeme .skipLiteral).length := by
  obtain ⟨cs, hcs⟩ := h.isText_drop
  have hrest : r.rest = encode cs := hcs
  have hpiece : r.lexeme .literal = Literal.lexeme cs := by
    rw [lexeme, hrest]
    rfl
  have hskip : (r.lexeme .skipLiteral).length = literalLength (encode cs).length (encode cs) := by
    rw [lexeme, hrest]
    rfl
  rcases literalLength_front cs with ⟨hends, hlen⟩ | ⟨hgoes, piece, rest, rfl, hfront, hlen⟩
  · rw [hskip, hpiece, if_pos hends, hlen]
  · have hafter : (r.after .literal).rest = encode rest := by
      have hdrop : (r.after .literal).rest = r.rest.drop (r.lexeme .literal).length :=
        (List.drop_drop ..).symm
      rw [hdrop, hrest, hpiece, hfront, encode_append, List.drop_left]
    have hbehind : ((r.after .literal).lexeme .skipLiteral).length =
        literalLength (encode rest).length (encode rest) := by
      rw [lexeme, hafter]
      rfl
    rw [hskip, hpiece, if_neg (Bool.eq_false_iff.1 hgoes), hbehind, hlen, hfront]

/-! ## Both ways come to the same place -/

/-- Throwing away a literal from a boundary comes to where throwing it away behind its next piece
does. -/
theorem after_skipLiteral (h : IsBoundary r.source r.pos) :
    r.after .skipLiteral =
      if (r.lexeme .literal).endsLiteral then r.after .literal
      else (r.after .literal).after .skipLiteral := by
  have hlen := length_skipLiteral h
  have hafter : r.after .skipLiteral =
      ⟨⟨r.source, r.pos + (r.lexeme .skipLiteral).length⟩, r.atLineStart⟩ := rfl
  rw [hafter, hlen]
  split
  · rfl
  · rw [← Nat.add_assoc]
    rfl

/-- As many bytes are thrown away as the pieces have. -/
theorem length_skipLiteral_eq_sum (h : IsBoundary r.source r.pos) :
    (r.lexeme .skipLiteral).length = (r.readLiteral.1.map Lexeme.length).sum := by
  fun_induction readLiteral r with
  | case1 r hends =>
    rw [length_skipLiteral h, if_pos hends]
    rfl
  | case2 r hgoes pieces last hread ih =>
    rw [length_skipLiteral h, if_neg hgoes, ih (isBoundary_after h .literal), hread]
    rfl

/-- Behind what is thrown away the reader stands where it stands behind the pieces. -/
theorem after_skipLiteral_eq_readLiteral (h : IsBoundary r.source r.pos) :
    r.after .skipLiteral = r.readLiteral.2 := by
  fun_induction readLiteral r with
  | case1 r hends => rw [after_skipLiteral h, if_pos hends]
  | case2 r hgoes pieces last hread ih =>
    rw [after_skipLiteral h, if_neg hgoes, ih (isBoundary_after h .literal), hread]

/-- From every boundary as many bytes of a literal are thrown away as its pieces have, and the
reader stands where it stands behind the last of them. -/
theorem discarded_eq_pieces (h : IsBoundary r.source r.pos) :
    r.lexeme .skipLiteral = ⟨.discarded, (r.readLiteral.1.map Lexeme.length).sum⟩ ∧
      r.after .skipLiteral = r.readLiteral.2 := by
  have hlexeme : r.lexeme .skipLiteral = ⟨.discarded, (r.lexeme .skipLiteral).length⟩ := rfl
  refine ⟨?_, after_skipLiteral_eq_readLiteral h⟩
  rw [hlexeme, length_skipLiteral_eq_sum h]

/-- Behind the letter in front of it a literal is thrown away with its escaped quote, its
continuation, an escaped letter outside ASCII, a zero byte and the backslash at its end. -/
theorem discarded_eq_pieces_zero :
    let r := startAt (ofString "ä\\\"\\\r\n\\é\x00\\") 2
    IsBoundary r.source r.pos ∧
      r.lexeme .skipLiteral = ⟨.discarded, (r.readLiteral.1.map Lexeme.length).sum⟩ ∧
      r.after .skipLiteral = r.readLiteral.2 := by
  intro r
  have h : IsBoundary r.source r.pos :=
    ⟨['ä'], "\\\"\\\r\n\\é\x00\\".toList, by decide, by decide⟩
  exact ⟨h, discarded_eq_pieces h⟩

end Reader

end LedgerText
