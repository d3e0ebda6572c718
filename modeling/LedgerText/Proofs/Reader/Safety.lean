import LedgerText.Proofs.Lexeme.Sentinel
import LedgerText.Reader

/-!
# A reader stays in its text

Whatever the ways to read and their order, a reader that starts on a character boundary of a text
stays on the boundaries of that text, reads whole characters, looks at no byte behind the zero that
ends its store, and finds the end exactly where the text ends (`safe_afterAll`).

One call keeps the reader on a boundary because a lexeme at the front of a text ends at a boundary
of it (`isBoundary_after`); a sequence of calls does by induction (`isBoundary_afterAll`). All that
is said of a call then follows from the boundary before it (`safe_of_isBoundary`).
-/

namespace LedgerText

open Utf8

namespace Lexeme

/-! ## Only the end has the tag of the end -/

variable {tape : Bytes}

/-- Blanks are not the end. -/
theorem tag_blanks (lineStart : Bool) (left : Nat) (tape : Bytes) :
    (blanks lineStart left tape).tag ≠ .endOfFile := by
  unfold blanks
  dsimp only
  split <;> simp

/-- A date or a number is not the end. -/
theorem tag_dateOrNumber (tape : Bytes) : (dateOrNumber tape).tag ≠ .endOfFile := by
  unfold dateOrNumber
  dsimp only
  split
  · split <;> simp
  · simp

/-- A word in small letters is not the end. -/
theorem tag_smallWord (tape : Bytes) : (smallWord tape).tag ≠ .endOfFile := by
  unfold smallWord
  dsimp only
  split <;> simp

/-- A word that starts with a capital letter is not the end. -/
theorem tag_capitalWord (tape : Bytes) : (capitalWord tape).tag ≠ .endOfFile := by
  unfold capitalWord invalid
  split
  · split <;> simp
  · simp
  · simp
  · split <;> simp

/-- A word that starts outside ASCII is not the end. -/
theorem tag_foreignWord (tape : Bytes) : (foreignWord tape).tag ≠ .endOfFile := by
  unfold foreignWord invalid
  split <;> simp

/-- A lexeme that starts with a sign is not the end. -/
theorem tag_sign (tape : Bytes) : (sign tape).tag ≠ .endOfFile := by
  unfold sign invalid
  dsimp only
  split
  · simp
  split
  · simp
  split
  · simp
  split
  · simp
  split
  · simp
  · simp
  · split <;> simp

/-- Where source is left, a lexeme of normal text is not the end. -/
theorem tag_inText (lineStart : Bool) {left : Nat} (h : left ≠ 0) (tape : Bytes) :
    (inText lineStart left tape).tag ≠ .endOfFile := by
  unfold inText
  dsimp only
  rw [if_neg h]
  split
  · simp
  split
  · exact tag_blanks lineStart left tape
  split
  · simp
  split
  · simp
  split
  · exact tag_dateOrNumber tape
  split
  · exact tag_smallWord tape
  split
  · exact tag_capitalWord tape
  split
  · exact tag_foreignWord tape
  · exact tag_sign tape

/-- Where source is left, a piece of a literal is not the end. -/
theorem tag_inLiteral {left : Nat} (h : left ≠ 0) (tape : Bytes) :
    (inLiteral left tape).tag ≠ .endOfFile := by
  unfold inLiteral escapeSequence
  dsimp only
  rw [if_neg h]
  split
  · simp
  split
  · simp
  split
  · split
    · simp
    · split <;> simp
  · simp

end Lexeme

namespace Reader

/-! ## What a call may do -/

/-- The next lexeme, where the source stands at the front of a longer store. -/
def lexemeIn (r : Reader) (store : Bytes) : Move → Lexeme
  | .text => .inText r.atLineStart r.rest.length (store.drop r.pos)
  | .literal => .inLiteral r.rest.length (store.drop r.pos)
  | .skipLine => .restOfLine r.rest.length (store.drop r.pos)
  | .skipLiteral => .restOfLiteral r.rest.length (store.drop r.pos)

/-- The reader after several lexemes. -/
def afterAll (r : Reader) (moves : List Move) : Reader := moves.foldl after r

/-- What is safe about the next lexeme of a reader. -/
structure Safe (r : Reader) (m : Move) : Prop where
  /-- The reader keeps its source. -/
  source : (r.after m).source = r.source
  /-- It stays in the source. -/
  within : (r.after m).pos ≤ r.source.length
  /-- It stays on a boundary. -/
  boundary : IsBoundary r.source (r.after m).pos
  /-- It goes on by the length of the lexeme. -/
  length : (r.after m).pos = r.pos + (r.lexeme m).length
  /-- The bytes it went over are whole characters, and as many as the lexeme has. -/
  whole : ∃ cs, r.slice r.pos (r.after m).pos = encode cs ∧
    (encode cs).length = (r.lexeme m).length
  /-- Where a zero stands behind the source, nothing behind that zero has any effect. -/
  store : ∀ slack, r.lexemeIn (r.source ++ 0 :: slack) m = r.lexeme m
  /-- At the end, normal text and literals find the end, which has no bytes. -/
  atEnd : m = .text ∨ m = .literal → r.pos = r.source.length → r.lexeme m = ⟨.endOfFile, 0⟩
  /-- Before the end they find something else, which has bytes. -/
  beforeEnd : m = .text ∨ m = .literal → r.pos ≠ r.source.length →
    (r.lexeme m).tag ≠ .endOfFile ∧ 0 < (r.lexeme m).length

variable {r : Reader}

/-! ## One call -/

/-- A lexeme at a boundary ends at a boundary of what is left. -/
theorem isBoundary_lexeme (h : IsText r.rest) (m : Move) :
    IsBoundary r.rest (r.lexeme m).length := by
  cases m with
  | text => exact Lexeme.isBoundary_inText _ h
  | literal => exact Lexeme.isBoundary_inLiteral h
  | skipLine => exact Lexeme.isBoundary_lineLength h
  | skipLiteral => exact Lexeme.isBoundary_literalLength h

/-- One call leaves a reader on a boundary. -/
theorem isBoundary_after (h : IsBoundary r.source r.pos) (m : Move) :
    IsBoundary (r.after m).source (r.after m).pos :=
  h.add (isBoundary_lexeme h.isText_drop m)

/-- What stands behind the sentinel has no effect on the next lexeme. -/
theorem lexemeIn_sentinel (h : r.pos ≤ r.source.length) (slack : Bytes) (m : Move) :
    r.lexemeIn (r.source ++ 0 :: slack) m = r.lexeme m := by
  have hdrop : (r.source ++ 0 :: slack).drop r.pos = r.rest ++ 0 :: slack :=
    Byte.drop_sentinel _ slack h
  cases m with
  | text => rw [lexemeIn, hdrop, Lexeme.inText_sentinel, lexeme]
  | literal => rw [lexemeIn, hdrop, Lexeme.inLiteral_sentinel, lexeme]
  | skipLine => rw [lexemeIn, hdrop, Lexeme.restOfLine, Lexeme.lineLength_append, lexeme,
      Lexeme.restOfLine]
  | skipLiteral => rw [lexemeIn, hdrop, Lexeme.restOfLiteral,
      Lexeme.literalLength_sentinel _ _ (Nat.le_refl _), lexeme, Lexeme.restOfLiteral]

/-- Every call from a boundary is safe. -/
theorem safe_of_isBoundary (h : IsBoundary r.source r.pos) (m : Move) : r.Safe m where
  source := rfl
  within := (isBoundary_after h m).le_length
  boundary := isBoundary_after h m
  length := rfl
  whole := by
    have hb := isBoundary_lexeme h.isText_drop m
    obtain ⟨cs, hcs⟩ := hb.isText_take
    have hslice : r.slice r.pos (r.after m).pos = r.rest.take (r.lexeme m).length := by
      rw [Cursor.slice, show (r.after m).pos = r.pos + (r.lexeme m).length from rfl,
        Nat.add_sub_cancel_left]
      rfl
    refine ⟨cs, hslice.trans hcs, ?_⟩
    rw [← hcs, List.length_take, Nat.min_eq_left hb.le_length]
  store := fun slack => lexemeIn_sentinel h.le_length slack m
  atEnd := by
    intro hm hend
    have hz : r.rest.length = 0 := by rw [Cursor.length_rest, hend, Nat.sub_self]
    rcases hm with rfl | rfl
    · rw [lexeme, Lexeme.inText, if_pos hz]
    · rw [lexeme, Lexeme.inLiteral, if_pos hz]
  beforeEnd := by
    intro hm hend
    have hle := h.le_length
    have hz : r.rest.length ≠ 0 := by
      rw [Cursor.length_rest]
      omega
    rcases hm with rfl | rfl
    · exact ⟨Lexeme.tag_inText _ hz _, Lexeme.inText_length_pos hz (Nat.le_refl _)⟩
    · exact ⟨Lexeme.tag_inLiteral hz _, Lexeme.inLiteral_length_pos hz (Nat.le_refl _)⟩

/-! ## Any sequence of calls -/

/-- A reader that is started on a boundary is on one, also after it passed over a byte-order
mark. -/
theorem isBoundary_startAt {source : Bytes} {offset : Nat} (h : IsBoundary source offset) :
    IsBoundary (startAt source offset).source (startAt source offset).pos := by
  unfold startAt
  dsimp only
  split
  · next hmark =>
    simp only [Bool.and_eq_true, decide_eq_true_eq] at hmark
    obtain ⟨rest, rfl⟩ := List.isPrefixOf_iff_prefix.1 hmark.2
    -- The mark is one character, and its lead byte tells so.
    exact h.isText.isBoundary_zero.add_width (Nat.zero_lt_succ _)
  · exact h

/-- Any calls in any order leave a reader on a boundary. -/
theorem isBoundary_afterAll (h : IsBoundary r.source r.pos) (moves : List Move) :
    IsBoundary (r.afterAll moves).source (r.afterAll moves).pos := by
  induction moves generalizing r with
  | nil => exact h
  | cons m moves ih => exact ih (isBoundary_after h m)

/-- Every call in every sequence of calls is safe, from every boundary of every text. -/
theorem safe_afterAll (text : String) {offset : Nat} (h : IsBoundary (ofString text) offset)
    (moves : List Move) (m : Move) :
    ((startAt (ofString text) offset).afterAll moves).Safe m :=
  safe_of_isBoundary (isBoundary_afterAll (isBoundary_startAt h) moves) m

/-- From inside a text, after an escaped letter and an indent, an account is read safely. -/
theorem safe_afterAll_account :
    IsBoundary (ofString "Ä\\é É:Öl") 2 ∧
      ((startAt (ofString "Ä\\é É:Öl") 2).afterAll [.literal, .text]).Safe .text :=
  have h : IsBoundary (ofString "Ä\\é É:Öl") 2 :=
    ⟨['Ä'], "\\é É:Öl".toList, by decide, by decide⟩
  ⟨h, safe_afterAll _ h _ _⟩

end Reader

end LedgerText
