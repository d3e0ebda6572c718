import LedgerText.Proofs.Lexeme.Boundary
import LedgerText.Proofs.Literal
import LedgerText.Reading

/-!
# Lexemes of string literals

The lexemes of a literal follow its pieces, but that plain characters up to the next quote,
backslash or line feed are one lexeme. What is thrown away of a literal is all that the pieces and
the closing quote would have taken (`literalLength_encode`).
-/

namespace LedgerText.Literal

open Byte Lexeme Utf8

/-- The next lexeme of a literal, where the given characters are left. -/
def lexeme (cs : List Char) : Lexeme := .inLiteral (encode cs).length (encode cs)

/-! ## Bytes of plain characters -/

/-- Plain characters hold no delimiter. -/
theorem isLiteralDelimiter_eq_false {run : List Char} (h : ∀ c ∈ run, isPlain c = true) {b : UInt8}
    (hb : b ∈ encode run) : isLiteralDelimiter b = false := by
  obtain ⟨c, hc, hbc⟩ := List.mem_flatMap.1 hb
  have hplain := h c hc
  simp only [isPlain, Bool.and_eq_true, bne_iff_ne, ne_eq] at hplain
  obtain ⟨⟨hq, hs⟩, hl⟩ := hplain
  simp only [isLiteralDelimiter, Bool.or_eq_false_iff, beq_eq_false_iff_ne]
  -- A delimiter is of ASCII, so its byte stands in no other character.
  refine ⟨⟨?_, ?_⟩, ?_⟩
  · rintro rfl
    exact notMem_encodeChar (by decide) (by decide) hq hbc
  · rintro rfl
    exact notMem_encodeChar (by decide) (by decide) hs hbc
  · rintro rfl
    exact notMem_encodeChar (by decide) (by decide) hl hbc

/-- A character that is not plain is a delimiter. -/
theorem isLiteralDelimiter_headD {c : Char} (h : isPlain c = false) (cs : List Char) :
    isLiteralDelimiter ((encode (c :: cs)).headD 0) = true := by
  have hc : c = '"' ∨ c = '\\' ∨ c = '\n' := by
    simp only [isPlain, Bool.and_eq_false_iff, bne_eq_false_iff_eq] at h
    tauto
  rcases hc with rfl | rfl | rfl <;> rfl

/-- A run of plain text is all of the plain characters. -/
theorem run_encode {run cs : List Char} (hrun : ∀ c ∈ run, isPlain c = true)
    (hstop : ∀ c rest, cs = c :: rest → isPlain c = false) :
    Byte.run (!isLiteralDelimiter ·) (encode (run ++ cs)) = (encode run).length := by
  rw [encode_append]
  rw [run_append, run_eq_zero, Nat.add_zero]
  -- The run stops at the end, or at the first character that is not plain.
  · rcases cs with - | ⟨c, cs⟩
    · exact .inl rfl
    · rw [isLiteralDelimiter_headD (hstop c cs rfl)]
      exact .inr rfl
  · intro b hb
    rw [isLiteralDelimiter_eq_false hrun hb]
    rfl

/-! ## The next lexeme -/

theorem lexeme_nil : lexeme [] = ⟨.endOfFile, 0⟩ := rfl

theorem lexeme_quote (cs : List Char) : lexeme ('"' :: cs) = ⟨.closingQuote, 1⟩ := rfl

theorem lexeme_lineFeed (cs : List Char) : lexeme ('\n' :: cs) = ⟨.literalLineFeed, 1⟩ := rfl

theorem lexeme_backslash : lexeme ['\\'] = ⟨.literalText, 1⟩ := rfl

/-- Behind a backslash an escape sequence is read. -/
theorem lexeme_backslash_cons {cs : List Char} (h : cs ≠ []) :
    lexeme ('\\' :: cs) =
      if (encode cs).take 2 = [carriageReturn, lineFeed] then ⟨.escape, 3⟩
      else ⟨.escape, 1 + width ((encode cs).headD 0)⟩ := by
  have hbytes : encode ('\\' :: cs) = backslash :: encode cs := rfl
  have hescape : lexeme ('\\' :: cs) =
      escapeSequence (encode ('\\' :: cs)).length (encode ('\\' :: cs)) := rfl
  have hne : encode cs ≠ [] := fun he => h (encode_eq_nil.1 he)
  rw [hescape, hbytes, escapeSequence, List.take_length, List.tail_cons]
  exact if_neg hne

theorem lexeme_continuation (cs : List Char) :
    lexeme ('\\' :: '\r' :: '\n' :: cs) = ⟨.escape, 3⟩ := by
  rw [lexeme_backslash_cons (List.cons_ne_nil _ _)]
  rfl

/-- Of a character's bytes only those of a carriage return and a line feed are both. -/
theorem take_encode_ne {c : Char} {cs : List Char} (h : ∀ rest, c :: cs ≠ '\r' :: '\n' :: rest) :
    (encode (c :: cs)).take 2 ≠ [carriageReturn, lineFeed] := by
  intro htake
  obtain ⟨b, bs, he, hf⟩ := exists_forms c
  rw [encode_cons, he, List.cons_append, List.take_succ_cons, List.cons.injEq] at htake
  obtain ⟨rfl, hrest⟩ := htake
  -- The first byte is of ASCII, so it is the whole character, and so is the second.
  obtain ⟨rfl, hc⟩ := hf.ascii (.inl (by decide))
  have hcr : c = '\r' := Char.toNat_inj.1 hc.symm
  rcases cs with - | ⟨d, cs⟩
  · simp at hrest
  obtain ⟨b', bs', he', hf'⟩ := exists_forms d
  rw [List.nil_append, encode_cons, he', List.cons_append, List.take_succ_cons,
    List.cons.injEq] at hrest
  obtain ⟨rfl, -⟩ := hrest
  obtain ⟨-, hd⟩ := hf'.ascii (.inl (by decide))
  have hlf : d = '\n' := Char.toNat_inj.1 hd.symm
  exact h cs (by rw [hcr, hlf])

/-- A backslash is one byte before those of the escaped character. -/
theorem length_encode_escape (c : Char) :
    (encode ['\\', c]).length = 1 + (String.utf8EncodeChar c).length := by
  rw [encode_cons, encode_cons, encode_nil, List.append_nil, List.length_append]
  rfl

/-- The lead byte tells how many bytes a character has. -/
theorem width_headD_encode (c : Char) (cs : List Char) :
    width ((encode (c :: cs)).headD 0) = (String.utf8EncodeChar c).length := by
  obtain ⟨b, bs, he, hf⟩ := exists_forms c
  rw [encode_cons, he, List.cons_append, List.headD_cons, hf.width, List.length_cons]

theorem lexeme_escape {c : Char} {cs : List Char} (h : ∀ rest, c :: cs ≠ '\r' :: '\n' :: rest) :
    lexeme ('\\' :: c :: cs) = ⟨.escape, (encode ['\\', c]).length⟩ := by
  rw [lexeme_backslash_cons (List.cons_ne_nil _ _), if_neg (take_encode_ne h), width_headD_encode,
    length_encode_escape]

theorem lexeme_run {run cs : List Char} (hne : run ≠ []) (hrun : ∀ c ∈ run, isPlain c = true)
    (hstop : ∀ c rest, cs = c :: rest → isPlain c = false) :
    lexeme (run ++ cs) = ⟨.literalText, (encode run).length⟩ := by
  obtain ⟨c, run, rfl⟩ := List.exists_cons_of_ne_nil hne
  obtain ⟨b, bs, he, -⟩ := exists_forms c
  have hbytes : encode (c :: run ++ cs) = b :: (bs ++ encode (run ++ cs)) := by
    rw [List.cons_append, encode_cons, he, List.cons_append]
  have hmem : b ∈ encode (c :: run) := by
    rw [encode_cons, he]
    exact List.mem_cons_self
  -- The first byte is no delimiter, so no other lexeme is read.
  have hdelim := isLiteralDelimiter_eq_false hrun hmem
  simp only [isLiteralDelimiter, Bool.or_eq_false_iff, beq_eq_false_iff_ne] at hdelim
  obtain ⟨⟨hq, hs⟩, hl⟩ := hdelim
  have hnz : (encode (c :: run ++ cs)).length ≠ 0 := by
    rw [hbytes]
    exact Nat.succ_ne_zero _
  have hb : (encode (c :: run ++ cs)).headD 0 = b := by rw [hbytes, List.headD_cons]
  unfold lexeme inLiteral
  dsimp only
  rw [hb, if_neg hnz, if_neg hq, if_neg hl, if_neg hs, List.take_length, run_encode hrun hstop]

/-! ## The characters that are escaped -/

/-- The character behind a backslash is read off its bytes. -/
theorem escapedChar_encode (c : Char) : Reading.escapedChar (encode ['\\', c]) = c := by
  have hdrop : (encode ['\\', c]).drop 1 = encode [c] := rfl
  -- No character is written as a carriage return and a line feed.
  have hne : encode [c] ≠ [carriageReturn, lineFeed] := by
    intro h
    have hcs : [c] = ['\r', '\n'] := encode_inj.1 h
    simp at hcs
  unfold Reading.escapedChar
  rw [hdrop, if_neg hne, decode_encode]
  rfl

/-- Behind a backslash a carriage return and a line feed count as the line feed. -/
theorem escapedChar_continuation : Reading.escapedChar (encode ['\\', '\r', '\n']) = '\n' := rfl

/-- An escape sequence means what the table says. -/
theorem decode_eq_lookup (c : Char) : Escape.decode c = escapes.lookup c := by
  unfold Escape.decode
  split
  any_goals rfl
  · next h1 h2 h3 h4 h5 h6 h7 h8 =>
    symm
    rw [List.lookup_eq_none_iff]
    simp only [escapes, List.forall_mem_cons, List.not_mem_nil, bne_iff_ne]
    exact ⟨h1, h3, h4, h5, h6, h7, h8, h2, fun _ h => h.elim⟩

/-! ## What is thrown away -/

theorem literalLength_nil (left : Nat) : literalLength left [] = 0 := by
  rw [literalLength]
  simp

/-- Bytes that are neither a quote nor a backslash are thrown away one by one. -/
theorem literalLength_append {front : Bytes} (h : ∀ b ∈ front, b ≠ quote ∧ b ≠ backslash)
    (rest : Bytes) : literalLength (front ++ rest).length (front ++ rest) =
      front.length + literalLength rest.length rest := by
  induction front with
  | nil => rw [List.nil_append, List.length_nil, Nat.zero_add]
  | cons b front ih =>
    rw [List.forall_mem_cons] at h
    obtain ⟨⟨hq, hs⟩, hfront⟩ := h
    rw [List.cons_append, List.length_cons, literalLength, if_neg hq, ih hfront, List.length_cons]
    simp only [hs, decide_false, Bool.false_and]
    rw [if_neg Bool.false_ne_true]
    omega

/-- A backslash is thrown away with the character behind it. -/
theorem literalLength_escape (c : Char) (cs : List Char) :
    literalLength (encode ('\\' :: c :: cs)).length (encode ('\\' :: c :: cs)) =
      (encode ['\\', c]).length + literalLength (encode cs).length (encode cs) := by
  have hbytes : encode ('\\' :: c :: cs) = backslash :: encode (c :: cs) := rfl
  have hlen : (encode (c :: cs)).length =
      (String.utf8EncodeChar c).length + (encode cs).length := by
    rw [encode_cons, List.length_append]
  have hpos : 0 < (String.utf8EncodeChar c).length := by
    rw [String.length_utf8EncodeChar]
    exact c.utf8Size_pos
  have hleft : (decide (backslash = backslash) && (encode (c :: cs)).length != 0) = true := by
    rw [decide_eq_true rfl, Bool.true_and, bne_iff_ne]
    omega
  rw [hbytes, List.length_cons, literalLength, if_neg (by decide), if_pos hleft]
  dsimp only
  rw [width_headD_encode, hlen, Nat.add_sub_cancel_left, encode_cons, List.drop_left,
    length_encode_escape]

/-- A character that is neither a quote nor a backslash is thrown away whole. -/
theorem literalLength_plain {c : Char} (hq : c ≠ '"') (hs : c ≠ '\\') (cs : List Char) :
    literalLength (encode (c :: cs)).length (encode (c :: cs)) =
      (encode [c]).length + literalLength (encode cs).length (encode cs) := by
  have hfront : ∀ b ∈ encode [c], b ≠ quote ∧ b ≠ backslash := by
    intro b hb
    rw [encode_cons, encode_nil, List.append_nil] at hb
    constructor
    · rintro rfl
      exact notMem_encodeChar (by decide) (by decide) hq hb
    · rintro rfl
      exact notMem_encodeChar (by decide) (by decide) hs hb
  rw [← List.singleton_append, encode_append]
  exact literalLength_append hfront _

/-- A backslash that is the last character is thrown away by itself. -/
theorem literalLength_backslash :
    literalLength (encode ['\\']).length (encode ['\\']) = 1 := by
  have hone : literalLength 1 [backslash] = 1 := by
    rw [literalLength, if_neg (by decide), if_neg (by decide), literalLength_nil]
  exact hone

/-- A piece before others adds its bytes to theirs. -/
theorem length_encode_text_cons (p : Piece) (ps : List Piece) (cs : List Char) :
    (encode (text (p :: ps) ++ cs)).length =
      (encode p.text).length + (encode (text ps ++ cs)).length := by
  rw [text_cons, List.append_assoc, encode_append, List.length_append]

/-- What is thrown away of a literal is its pieces and its closing quote. -/
theorem literalLength_encode (cs : List Char) : literalLength (encode cs).length (encode cs) =
    (encode (text (pieces cs).1 ++ (pieces cs).2.take 1)).length := by
  fun_induction pieces cs with
  | case1 => exact literalLength_nil _
  | case2 cs =>
    rw [show encode ('"' :: cs) = quote :: encode cs from rfl, List.length_cons, literalLength,
      if_pos rfl]
    rfl
  | case3 cs ih =>
    -- The carriage return is thrown away as escaped, and the line feed by itself.
    rw [literalLength_escape, literalLength_plain (by decide) (by decide), ih,
      length_encode_text_cons, ← Nat.add_assoc]
    rfl
  | case4 c cs _ ih =>
    rw [literalLength_escape, ih, length_encode_text_cons]
    rfl
  | case5 c cs hq _ hs ih =>
    rw [length_encode_text_cons]
    by_cases hb : c = '\\'
    · -- A backslash that escapes nothing is the last character.
      subst hb
      rcases cs with - | ⟨d, cs⟩
      · exact literalLength_backslash
      · exact absurd rfl (hs d cs rfl)
    · rw [literalLength_plain hq hb, ih]
      rfl

end LedgerText.Literal
