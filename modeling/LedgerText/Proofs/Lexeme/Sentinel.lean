import LedgerText.Proofs.Lexeme.Boundary

/-!
# Nothing behind the source is read

A source may stand in a longer store, with a zero byte behind it and anything behind that. Whatever
that is, the lexemes are those of the source on its own (`inText_sentinel`, `inLiteral_sentinel`,
`literalLength_sentinel`, `lineLength_append`): looking ahead never goes past the zero, which is of
no class and means nothing to any rule. An interior zero is a byte like any other, since the end is
told by how many bytes are left.

Every pattern looks ahead on a tape of which it knows no end, so each has a lemma of its own. All of
them rest on one: a run is not lengthened by a zero (`run_sentinel`).
-/

namespace LedgerText

open Byte

attribute [local grind =] isDigit isUpper isLower isAlphanumeric isNonAscii isIndent isBlank
  isKeyPart isAccountStart isComponentStart isAccountPart isCurrencyEnd isCurrencyPart isNamePart
  isDateSeparator

/-! ## Looking ahead -/

variable {p : UInt8 → Bool} (source slack : Bytes)

namespace Byte

/-- A class without zero has the same bytes at the front. -/
theorem takeWhile_sentinel (hp : p 0 = false) :
    (source ++ 0 :: slack).takeWhile p = source.takeWhile p := by
  induction source with
  | nil => rw [List.nil_append, List.takeWhile_cons, hp]; rfl
  | cons b source ih =>
    rw [List.cons_append, List.takeWhile_cons, List.takeWhile_cons, ih]

/-- A run of a class without zero stops at the sentinel. -/
theorem run_sentinel (hp : p 0 = false) : run p (source ++ 0 :: slack) = run p source := by
  rw [run, takeWhile_sentinel source slack hp, run]

/-- The next byte is that of the source, or the zero that is read at its end. -/
theorem headD_sentinel : (source ++ 0 :: slack).headD 0 = source.headD 0 := by
  cases source <;> rfl

/-- The byte after the next is that of the source, or the zero that is read at its end. -/
theorem headD_tail_sentinel (h : source ≠ []) :
    (source ++ 0 :: slack).tail.headD 0 = source.tail.headD 0 := by
  cases source with
  | nil => exact absurd rfl h
  | cons b source => exact headD_sentinel source slack

/-- Going on within the source leaves the sentinel where it is. -/
theorem drop_sentinel {n : Nat} (h : n ≤ source.length) :
    (source ++ 0 :: slack).drop n = source.drop n ++ 0 :: slack :=
  List.drop_append_of_le_length h

end Byte

namespace Pattern

/-! ## Patterns -/

/-- The whole part of a number is in the source. -/
theorem wholeLength_sentinel : wholeLength (source ++ 0 :: slack) = wholeLength source := by
  rw [wholeLength, takeWhile_sentinel source slack (by decide), wholeLength]

/-- A number is in the source. -/
theorem numberLength_sentinel : numberLength (source ++ 0 :: slack) = numberLength source := by
  unfold numberLength
  dsimp only
  rw [wholeLength_sentinel, drop_sentinel source slack (wholeLength_le source)]
  cases source.drop (wholeLength source) with
  | nil => rfl
  | cons b fraction =>
    dsimp only [List.cons_append]
    rw [run_sentinel fraction slack (by decide)]

/-- A field of a date is in the source. -/
theorem dateFieldLength?_sentinel :
    dateFieldLength? (source ++ 0 :: slack) = dateFieldLength? source := by
  cases source with
  | nil => rfl
  | cons b source =>
    rw [List.cons_append, dateFieldLength?, dateFieldLength?, run_sentinel source slack (by decide)]

/-- A date is in the source. -/
theorem dateLength?_sentinel : dateLength? (source ++ 0 :: slack) = dateLength? source := by
  have hyear := run_le isDigit source
  unfold dateLength?
  dsimp only
  rw [run_sentinel source slack (by decide), drop_sentinel source slack hyear,
    dateFieldLength?_sentinel]
  cases hm : dateFieldLength? (source.drop (run isDigit source)) with
  | none => rfl
  | some month =>
    have hmonth := dateFieldLength?_le hm
    rw [List.length_drop] at hmonth
    simp only [Option.bind_eq_bind, Option.bind_some]
    rw [drop_sentinel source slack (by omega), dateFieldLength?_sentinel]

/-- The components of an account are in the source. -/
theorem componentsLength_sentinel :
    componentsLength (source ++ 0 :: slack) = componentsLength source := by
  fun_induction componentsLength source with
  | case1 a b bytes hab n ih =>
    rw [List.cons_append, List.cons_append, componentsLength, if_pos hab]
    dsimp only
    rw [run_sentinel bytes slack (by decide), drop_sentinel bytes slack (run_le _ _), ih]
  | case2 a b bytes hab => rw [List.cons_append, List.cons_append, componentsLength, if_neg hab]
  | case3 bytes hb =>
    have h0 : isComponentStart 0 = false := by decide
    -- The sentinel takes the place of a colon, or of the byte behind it, and is neither.
    match bytes with
    | [] => cases slack <;> simp [componentsLength, colon]
    | [a] =>
      rw [List.singleton_append, componentsLength, h0]
      simp
    | a :: b :: bytes => exact absurd rfl (hb a b bytes)

/-- An account is in the source. -/
theorem accountLength?_sentinel :
    accountLength? (source ++ 0 :: slack) = accountLength? source := by
  cases source with
  | nil =>
    have h0 : isAccountStart 0 = false := by decide
    simp [accountLength?, h0]
  | cons b source =>
    rw [List.cons_append, accountLength?, accountLength?, run_sentinel source slack (by decide),
      drop_sentinel source slack (run_le _ _), componentsLength_sentinel]

/-- A currency is in the source. -/
theorem currencyLength?_sentinel :
    currencyLength? (source ++ 0 :: slack) = currencyLength? source := by
  cases source with
  | nil =>
    have h0 : isUpper 0 = false := by decide
    simp [currencyLength?, h0]
  | cons b source =>
    -- The limit may cut the tape before the sentinel or behind it.
    have hparts : ((source ++ 0 :: slack).take (currencyLimit - 1)).takeWhile isCurrencyPart =
        (source.take (currencyLimit - 1)).takeWhile isCurrencyPart := by
      rw [List.take_append]
      cases currencyLimit - 1 - source.length with
      | zero => rw [List.take_zero, List.append_nil]
      | succ n =>
        rw [List.take_succ_cons, takeWhile_sentinel _ _ (by decide)]
    rw [List.cons_append, currencyLength?, currencyLength?, hparts]

end Pattern

namespace Lexeme

variable {source}

/-! ## Lexemes of normal text -/

/-- The bytes before the end of a line are in the source. -/
theorem lineLength_append (behind : Bytes) :
    lineLength source.length (source ++ behind) = lineLength source.length source := by
  rw [lineLength, lineLength, List.take_left, List.take_length]

/-- Blanks are in the source. -/
theorem blanks_sentinel (lineStart : Bool) (left : Nat) :
    blanks lineStart left (source ++ 0 :: slack) = blanks lineStart left source := by
  unfold blanks
  dsimp only
  rw [run_sentinel source slack (by decide), run_sentinel source slack (by decide),
    drop_sentinel source slack (run_le _ _), headD_sentinel]

/-- A date or a number is in the source. -/
theorem dateOrNumber_sentinel : dateOrNumber (source ++ 0 :: slack) = dateOrNumber source := by
  unfold dateOrNumber
  rw [Pattern.numberLength_sentinel, Pattern.dateLength?_sentinel]

/-- A word in small letters is in the source. -/
theorem smallWord_sentinel (h : source ≠ []) :
    smallWord (source ++ 0 :: slack) = smallWord source := by
  have hrun : run isKeyPart (source ++ 0 :: slack).tail = run isKeyPart source.tail := by
    rw [List.tail_append_of_ne_nil h, run_sentinel _ _ (by decide)]
  have hle : 1 + run isKeyPart source.tail ≤ source.length := by
    have := run_le isKeyPart source.tail
    have := List.length_pos_iff.2 h
    rw [List.length_tail] at *
    omega
  have hnext : ((source ++ 0 :: slack).drop (1 + run isKeyPart source.tail)).headD 0 =
      (source.drop (1 + run isKeyPart source.tail)).headD 0 := by
    rw [drop_sentinel source slack hle, headD_sentinel]
  simp only [smallWord, hrun, hnext]

/-- The lead byte of an invalid character is in the source. -/
theorem invalid_sentinel : invalid (source ++ 0 :: slack) = invalid source := by
  rw [invalid, headD_sentinel, invalid]

/-- A word that starts with a capital letter is in the source. -/
theorem capitalWord_sentinel : capitalWord (source ++ 0 :: slack) = capitalWord source := by
  unfold capitalWord
  rw [Pattern.accountLength?_sentinel, Pattern.currencyLength?_sentinel, headD_sentinel,
    invalid_sentinel]

/-- A word that starts outside ASCII is in the source. -/
theorem foreignWord_sentinel : foreignWord (source ++ 0 :: slack) = foreignWord source := by
  unfold foreignWord
  rw [Pattern.accountLength?_sentinel, invalid_sentinel]

/-- The name of a tag or a link is in the source. -/
theorem nameLength_sentinel (h : source ≠ []) :
    Pattern.nameLength (source ++ 0 :: slack) = Pattern.nameLength source := by
  rw [Pattern.nameLength, List.tail_append_of_ne_nil h, run_sentinel _ _ (by decide),
    Pattern.nameLength]

/-- A lexeme that starts with a sign is in the source. -/
theorem sign_sentinel (h : source ≠ []) : sign (source ++ 0 :: slack) = sign source := by
  unfold sign
  rw [headD_sentinel, headD_tail_sentinel source slack h, Pattern.numberLength_sentinel,
    nameLength_sentinel slack h, invalid_sentinel]

/-- Lexemes of normal text are in the source. -/
theorem inText_sentinel (lineStart : Bool) :
    inText lineStart source.length (source ++ 0 :: slack) =
      inText lineStart source.length source := by
  unfold inText
  by_cases h : source = []
  · subst h
    rfl
  · rw [headD_sentinel, blanks_sentinel, lineLength_append, dateOrNumber_sentinel,
      smallWord_sentinel slack h, capitalWord_sentinel, foreignWord_sentinel,
      sign_sentinel slack h]

/-! ## Pieces of string literals -/

/-- A piece of a literal is in the source. -/
theorem inLiteral_sentinel :
    inLiteral source.length (source ++ 0 :: slack) = inLiteral source.length source := by
  unfold inLiteral escapeSequence
  rw [headD_sentinel, List.take_left, List.take_length]

/-- Where nothing is left, a literal has no bytes. -/
theorem literalLength_zero (tape : Bytes) : literalLength 0 tape = 0 := by
  rw [literalLength]
  simp

/-- The end of a literal is in the source. -/
theorem literalLength_sentinel (left : Nat) (h : left ≤ source.length) :
    literalLength left (source ++ 0 :: slack) = literalLength left source := by
  fun_induction literalLength left source with
  | case1 left tape => rw [List.cons_append, literalLength, if_pos rfl]
  | case2 left b tape hb hs n =>
    rename_i ih
    have hleft : left ≤ tape.length := by simpa using h
    rw [List.cons_append, literalLength, if_neg hb, if_pos hs]
    dsimp only
    rw [headD_sentinel]
    -- What is escaped may be cut off, and then nothing is left on either tape.
    by_cases hn : n ≤ tape.length
    · rw [drop_sentinel tape slack hn, ih (by rw [List.length_drop]; omega)]
    · have hz : left - n = 0 := by omega
      rw [hz, literalLength_zero, literalLength_zero]
  | case3 left b tape hb hs ih =>
    rw [List.cons_append, literalLength, if_neg hb, if_neg hs, ih (by simpa using h)]
  | case4 left tape hend =>
    cases left with
    | zero => rw [literalLength_zero]
    | succ left =>
      cases tape with
      | nil => simp at h
      | cons b tape => exact absurd rfl (hend left b tape rfl)

end Lexeme

end LedgerText
