import LedgerText.Proofs.Literal
import LedgerText.Proofs.Returns.Text

/-!
# String literals without the carriage returns

A carriage return in a literal stands before a line feed, as a plain character or in a continuation.
Without it there is one plain character less, or an escaped line feed in place of the continuation
(`Piece.withoutReturn`). The pieces are otherwise the same, in number up to those characters and in
what they mean (`pieces_withoutReturns`).
-/

namespace LedgerText.Literal

variable {cs : List Char} {c : Char} {p q : Piece} {ps : List Piece}

/-- A piece without its carriage return: none is left of a carriage return by itself. -/
def Piece.withoutReturn : Piece → Option Piece
  | .plain c => if c = '\r' then none else some (.plain c)
  | .escape c => some (.escape c)
  | .continuation => some (.escape '\n')

/-- The pieces without their carriage returns. -/
def piecesWithoutReturns (ps : List Piece) : List Piece := ps.filterMap Piece.withoutReturn

/-- What is left of a piece that means something means something. -/
theorem Piece.IsValid.withoutReturn (h : p.IsValid) (hq : p.withoutReturn = some q) :
    q.IsValid := by
  cases p with
  | plain c =>
    rw [Piece.withoutReturn] at hq
    split at hq
    · cases hq
    · cases hq
      exact h
  | escape c =>
    cases hq
    exact h
  | continuation =>
    cases hq
    decide

/-- What is left of pieces that mean something means something. -/
theorem isValid_withoutReturns (h : ∀ p ∈ ps, p.IsValid) :
    ∀ p ∈ piecesWithoutReturns ps, p.IsValid := by
  intro q hq
  obtain ⟨p, hp, hpq⟩ := List.mem_filterMap.1 hq
  exact (h p hp).withoutReturn hpq

/-- What is escaped is no carriage return, unless a line feed stands behind it. -/
theorem ne_return_of_escape (h : ReturnsEndLines ('\\' :: c :: cs))
    (hcrlf : ∀ rest, c = '\r' → cs = '\n' :: rest → False) : c ≠ '\r' := by
  intro hc
  obtain ⟨rest, hrest⟩ :=
    List.head?_eq_some_iff.1 ((ReturnsEndLines.cons_iff.1 h.tail).1 hc)
  exact hcrlf rest hc hrest

/-- Without the carriage returns of the characters, their pieces are without theirs. -/
theorem pieces_withoutReturns (h : ReturnsEndLines cs) : pieces (withoutReturns cs) =
    (piecesWithoutReturns (pieces cs).1, withoutReturns (pieces cs).2) := by
  fun_induction pieces cs with
  | case1 => rfl
  | case2 cs =>
    rw [withoutReturns_cons (by decide), pieces]
    rfl
  | case3 cs ih =>
    -- A backslash before both characters of the end of a line is one before its line feed.
    have hline : ∀ rest, '\n' :: withoutReturns cs ≠ '\r' :: '\n' :: rest :=
      fun rest heq => absurd (List.cons.inj heq).1 (by decide)
    rw [withoutReturns_cons (by decide), withoutReturns_return, withoutReturns_cons (by decide),
      pieces_escape hline, ih h.tail.tail.tail]
    rfl
  | case4 c cs hcrlf ih =>
    -- No other backslash stands before a carriage return.
    have hc := ne_return_of_escape h hcrlf
    have hescape : ∀ rest, c :: withoutReturns cs ≠ '\r' :: '\n' :: rest :=
      fun rest heq => hc (List.cons.inj heq).1
    rw [withoutReturns_cons (by decide), withoutReturns_cons hc, pieces_escape hescape,
      ih h.tail.tail]
    rfl
  | case5 c cs hquote hcont hescape ih =>
    have hcs := h.tail
    by_cases hc : c = '\r'
    · subst hc
      rw [withoutReturns_return, ih hcs]
      rfl
    have hpiece : Piece.withoutReturn (.plain c) = some (.plain c) := if_neg hc
    rw [withoutReturns_cons hc, piecesWithoutReturns, List.filterMap_cons_some hpiece]
    by_cases hbackslash : c = '\\'
    · -- Nothing stands behind a backslash that is a plain character.
      subst hbackslash
      rcases cs with - | ⟨d, cs⟩
      · rfl
      · exact absurd rfl (hescape d cs rfl)
    · rw [pieces_plain hquote hbackslash, ih hcs]
      rfl

/-- No escape sequence holds a carriage return. -/
theorem escape_return_notMem (h : ReturnsEndLines cs) : .escape '\r' ∉ (pieces cs).1 := by
  fun_induction pieces cs with
  | case1 => exact List.not_mem_nil
  | case2 cs => exact List.not_mem_nil
  | case3 cs ih =>
    have hcs := ih h.tail.tail.tail
    exact List.not_mem_cons_of_ne_of_not_mem Piece.noConfusion hcs
  | case4 c cs hcrlf ih =>
    have hc := ne_return_of_escape h hcrlf
    have hcs := ih h.tail.tail
    exact List.not_mem_cons_of_ne_of_not_mem (fun heq => hc (Piece.escape.inj heq).symm) hcs
  | case5 c cs hquote hcont hescape ih =>
    have hcs := ih h.tail
    exact List.not_mem_cons_of_ne_of_not_mem Piece.noConfusion hcs

/-- The pieces without their carriage returns are written as before, without the carriage
returns. -/
theorem text_withoutReturns (h : .escape '\r' ∉ ps) :
    text (piecesWithoutReturns ps) = withoutReturns (text ps) := by
  induction ps with
  | nil => rfl
  | cons p ps ih =>
    rw [List.mem_cons, not_or] at h
    have hps := ih h.2
    rw [text_cons, withoutReturns_append, ← hps, piecesWithoutReturns]
    cases p with
    | plain c =>
      by_cases hc : c = '\r'
      · subst hc
        rfl
      · have hpiece : Piece.withoutReturn (.plain c) = some (.plain c) := if_neg hc
        rw [List.filterMap_cons_some hpiece, text_cons, Piece.text, withoutReturns_cons hc]
        rfl
    | escape c =>
      have hc : c ≠ '\r' := fun heq => h.1 (heq ▸ rfl)
      rw [Piece.text, withoutReturns_cons (by decide), withoutReturns_cons hc]
      rfl
    | continuation => rfl

end LedgerText.Literal
