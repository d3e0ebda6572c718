import LedgerText.Lexeme.Literal
import LedgerText.Proofs.Lexeme.Pattern
import LedgerText.Proofs.Utf8.Boundary

/-!
# Lexemes are whole characters

A lexeme that starts a text ends at a boundary of it, under each way to read: a reader on a boundary
stays on one (`isBoundary_inText`, `isBoundary_inLiteral`, `isBoundary_lineLength`,
`isBoundary_literalLength`).

There are three reasons. Where all bytes of a lexeme are of ASCII, each is a character of its own.
Where a lexeme goes on over every byte outside ASCII, as accounts, comments and plain text do, it
stops before a byte of ASCII or at the end. And what is escaped or not recognized is measured by its
lead byte.
-/

namespace LedgerText

open Byte Utf8

attribute [local grind =] isDigit isUpper isLower isAlphanumeric isNonAscii isIndent isBlank
  isKeyPart isAccountStart isComponentStart isAccountPart isCurrencyEnd isCurrencyPart isNamePart
  isDateSeparator isLineMarker isFlagSign isFlagLetter isLiteralDelimiter

variable {tape : Bytes} {n : Nat}

/-- A byte that is left is behind the offset, and the others are left after it. -/
theorem drop_eq_cons {source : Bytes} {b : UInt8} (h : source.drop n = b :: tape) :
    n < source.length ∧ source.drop (n + 1) = tape := by
  constructor
  · have hlength := congrArg List.length h
    rw [List.length_drop, List.length_cons] at hlength
    omega
  · rw [← List.drop_drop, h]
    rfl

/-! ## Runs -/

namespace Utf8

/-- From a boundary, a run of ASCII ends at a boundary. -/
theorem IsBoundary.add_run {p : UInt8 → Bool} (hp : ∀ b, p b = true → isNonAscii b = false)
    (h : IsBoundary tape n) : IsBoundary tape (n + run p (tape.drop n)) :=
  h.add <| h.isText_drop.isBoundary_of_forall_ascii (run_le ..) fun b hb =>
    hp b (of_mem_take_run hb)

/-- From anywhere, a run that goes on over every byte outside ASCII ends at a boundary. -/
theorem IsText.isBoundary_add_run {p : UInt8 → Bool}
    (hp : ∀ b, isNonAscii b = true → p b = true) (h : IsText tape) (hn : n ≤ tape.length) :
    IsBoundary tape (n + run p (tape.drop n)) := by
  refine h.isBoundary_of_ascii ?_ ?_
  · have := run_le p (tape.drop n)
    rw [List.length_drop] at this
    omega
  · rw [← List.drop_drop]
    exact isNonAscii_headD_drop_run hp _

end Utf8

namespace Pattern

/-! ## Patterns -/

/-- The whole part of a number ends at a boundary. -/
theorem isBoundary_wholeLength (h : IsText tape) : IsBoundary tape (wholeLength tape) := by
  refine h.isBoundary_of_forall_ascii ?_ fun b hb => ?_
  · exact wholeLength_le tape
  · -- Trimming leaves digits and commas, which are of ASCII.
    rw [take_wholeLength] at hb
    have := List.mem_takeWhile_imp ((trimEnd_isPrefix _ _).subset hb)
    grind

/-- A number ends at a boundary. -/
theorem isBoundary_numberLength (h : IsText tape) : IsBoundary tape (numberLength tape) := by
  have hw := isBoundary_wholeLength h
  unfold numberLength
  dsimp only
  split
  · next b fraction hd =>
    split
    · next hb =>
      obtain ⟨hlt, hf⟩ := drop_eq_cons hd
      rw [← hf]
      exact (hw.succ hlt (by rw [hd, hb]; rfl)).add_run (by grind)
    · exact hw
  · exact hw

/-- A separator and digits end at a boundary. -/
theorem isBoundary_dateFieldLength? (h : IsBoundary tape n) {k : Nat}
    (hk : dateFieldLength? (tape.drop n) = some k) : IsBoundary tape (n + k) := by
  cases hd : tape.drop n with
  | nil => simp [hd, dateFieldLength?] at hk
  | cons b bytes =>
    rw [hd, dateFieldLength?] at hk
    split at hk
    · next hb =>
      obtain rfl : 1 + run isDigit bytes = k := by simpa using hk
      obtain ⟨hlt, hf⟩ := drop_eq_cons hd
      rw [← hf, ← Nat.add_assoc]
      exact (h.succ hlt (by rw [hd, List.headD_cons]; grind)).add_run (by grind)
    · simp at hk

/-- A date ends at a boundary. -/
theorem isBoundary_dateLength? (h : IsText tape) (hn : dateLength? tape = some n) :
    IsBoundary tape n := by
  unfold dateLength? at hn
  dsimp only at hn
  split at hn
  · simp at hn
  · simp only [Option.bind_eq_bind, Option.bind_eq_some_iff, Option.pure_def,
      Option.some.injEq] at hn
    obtain ⟨month, hm, day, hd, rfl⟩ := hn
    -- Each of the three parts starts where the one before it ends.
    have hy := h.isBoundary_zero.add_run (p := isDigit) (by grind)
    rw [Nat.zero_add, List.drop_zero] at hy
    exact isBoundary_dateFieldLength? (isBoundary_dateFieldLength? hy hm) hd

/-- The components of an account lie within the bytes, and stop before a byte of ASCII or at the
end. -/
theorem componentsLength_stop {bytes : Bytes} (h : isNonAscii (bytes.headD 0) = false) :
    componentsLength bytes ≤ bytes.length ∧
      isNonAscii ((bytes.drop (componentsLength bytes)).headD 0) = false := by
  fun_induction componentsLength bytes with
  | case1 a b bytes hab n ih =>
    obtain ⟨hle, hstop⟩ := ih (isNonAscii_headD_drop_run (by grind) bytes)
    have hn : n ≤ bytes.length := run_le isAccountPart bytes
    rw [List.length_drop] at hle
    refine ⟨by simp only [List.length_cons]; omega, ?_⟩
    rwa [show 2 + n + componentsLength (bytes.drop n) = n + componentsLength (bytes.drop n) + 2 by
      omega, List.drop_succ_cons, List.drop_succ_cons, ← List.drop_drop]
  | case2 a b bytes hab => exact ⟨Nat.zero_le _, h⟩
  | case3 bytes hb => exact ⟨Nat.zero_le _, h⟩

/-- An account ends at a boundary. -/
theorem isBoundary_accountLength? (h : IsText tape) (hn : accountLength? tape = some n) :
    IsBoundary tape n := by
  cases tape with
  | nil => simp [accountLength?] at hn
  | cons b bytes =>
    simp only [accountLength?] at hn
    split at hn
    · obtain rfl : 1 + run isAccountPart bytes +
        componentsLength (bytes.drop (run isAccountPart bytes)) = n := by simpa using hn
      obtain ⟨hle, hstop⟩ := componentsLength_stop
        (isNonAscii_headD_drop_run (p := isAccountPart) (by grind) bytes)
      have hrun := run_le isAccountPart bytes
      rw [List.length_drop] at hle
      -- The last component goes on over all that is not of ASCII.
      refine h.isBoundary_of_ascii (by simp only [List.length_cons]; omega) ?_
      rwa [Nat.add_assoc, Nat.add_comm 1, List.drop_succ_cons, ← List.drop_drop]
    · simp at hn

/-- A currency ends at a boundary. -/
theorem isBoundary_currencyLength? (h : IsText tape) (hn : currencyLength? tape = some n) :
    IsBoundary tape n := by
  cases tape with
  | nil => simp [currencyLength?] at hn
  | cons b bytes =>
    simp only [currencyLength?] at hn
    split at hn
    · next hb =>
      have hpre : trimEnd (!isCurrencyEnd ·)
          ((bytes.take (currencyLimit - 1)).takeWhile isCurrencyPart) <+: bytes :=
        ((trimEnd_isPrefix _ _).trans (List.takeWhile_prefix _)).trans (List.take_prefix _ _)
      simp only [Option.some.injEq] at hn
      subst hn
      -- All that is trimmed from are bytes of ASCII, and so is the capital letter.
      refine h.isBoundary_of_forall_ascii ?_ fun c hc => ?_
      · have := hpre.length_le
        simp only [List.length_cons]
        omega
      · rw [Nat.add_comm, List.take_succ_cons, ← List.prefix_iff_eq_take.1 hpre] at hc
        rcases List.mem_cons.1 hc with rfl | hc
        · grind
        · have := List.mem_takeWhile_imp ((trimEnd_isPrefix _ _).subset hc)
          grind
    · simp at hn

end Pattern

namespace Lexeme

/-! ## Lexemes of normal text -/

/-- A line ends at a boundary. -/
theorem isBoundary_lineLength (h : IsText tape) :
    IsBoundary tape (lineLength tape.length tape) := by
  have hr := h.isBoundary_add_run (p := (· != lineFeed)) (by grind) (Nat.zero_le _)
  rw [Nat.zero_add, List.drop_zero] at hr
  rwa [lineLength, List.take_length]

/-- Blanks end at a boundary. -/
theorem isBoundary_blanks (lineStart : Bool) (left : Nat) (h : IsText tape) :
    IsBoundary tape (blanks lineStart left tape).length := by
  have hi := h.isBoundary_zero.add_run (p := isIndent) (by grind)
  have hb := h.isBoundary_zero.add_run (p := isBlank) (by grind)
  rw [Nat.zero_add, List.drop_zero] at hi hb
  unfold blanks
  dsimp only
  split
  · exact hi
  · exact hb

/-- A first byte of ASCII is a character. -/
theorem isBoundary_one (h : IsText tape) (hne : tape ≠ [])
    (hb : isNonAscii (tape.headD 0) = false) : IsBoundary tape 1 := by
  have hs := h.isBoundary_zero.succ (List.length_pos_iff.2 hne) (by rwa [List.drop_zero])
  rwa [Nat.zero_add] at hs

/-- A first byte of ASCII and a run of ASCII end at a boundary. -/
theorem isBoundary_one_add_run {p : UInt8 → Bool} (hp : ∀ b, p b = true → isNonAscii b = false)
    (h : IsText tape) (hne : tape ≠ []) (hb : isNonAscii (tape.headD 0) = false) :
    IsBoundary tape (1 + run p tape.tail) := by
  rw [← List.drop_one]
  exact (isBoundary_one h hne hb).add_run hp

/-- The character with which no rule starts ends at a boundary. -/
theorem isBoundary_invalid (h : IsText tape) (hne : tape ≠ []) :
    IsBoundary tape (invalid tape).length := by
  have hw := h.isBoundary_zero.add_width (List.length_pos_iff.2 hne)
  rwa [Nat.zero_add, List.drop_zero] at hw

/-- A date or a number ends at a boundary. -/
theorem isBoundary_dateOrNumber (h : IsText tape) :
    IsBoundary tape (dateOrNumber tape).length := by
  have hn := Pattern.isBoundary_numberLength h
  unfold dateOrNumber
  dsimp only
  split
  · next date hd =>
    split
    · exact Pattern.isBoundary_dateLength? h hd
    · exact hn
  · exact hn

/-- A word that starts with a capital letter ends at a boundary. -/
theorem isBoundary_capitalWord (h : IsText tape) (hne : tape ≠ [])
    (hb : isNonAscii (tape.headD 0) = false) : IsBoundary tape (capitalWord tape).length := by
  unfold capitalWord
  split
  · next ha hc =>
    split
    · exact Pattern.isBoundary_accountLength? h ha
    · exact Pattern.isBoundary_currencyLength? h hc
  · next ha _ => exact Pattern.isBoundary_accountLength? h ha
  · next _ hc => exact Pattern.isBoundary_currencyLength? h hc
  · split
    · exact isBoundary_one h hne hb
    · exact isBoundary_invalid h hne

/-- A word that starts outside ASCII ends at a boundary. -/
theorem isBoundary_foreignWord (h : IsText tape) (hne : tape ≠ []) :
    IsBoundary tape (foreignWord tape).length := by
  unfold foreignWord
  split
  · next ha => exact Pattern.isBoundary_accountLength? h ha
  · exact isBoundary_invalid h hne

/-- Two equal bytes at the front, of ASCII and not zero, are two characters. -/
theorem isBoundary_two (h : IsText tape) (hb : isNonAscii (tape.headD 0) = false)
    (hnext : tape.tail.headD 0 = tape.headD 0) (h0 : tape.headD 0 ≠ 0) : IsBoundary tape 2 := by
  match tape with
  | [] => exact absurd rfl h0
  | [b] => exact absurd hnext.symm h0
  | b :: c :: rest =>
    obtain rfl : c = b := hnext
    exact (isBoundary_one h (List.cons_ne_nil _ _) hb).succ (by simp) hb

/-- No mark is spelled with zeros. -/
theorem ne_zero_of_ofTwice? {b : UInt8} {m : Mark} (h : Mark.ofTwice? b = some m) : b ≠ 0 := by
  rintro rfl
  have hz : Mark.ofTwice? 0 = none := by decide
  rw [hz] at h
  contradiction

/-- A lexeme that starts with a sign ends at a boundary. -/
theorem isBoundary_sign (h : IsText tape) (hne : tape ≠ [])
    (hb : isNonAscii (tape.headD 0) = false) : IsBoundary tape (sign tape).length := by
  have hone := isBoundary_one h hne hb
  have hname := isBoundary_one_add_run (p := isNamePart) (by grind) h hne hb
  unfold sign
  dsimp only
  split
  · exact Pattern.isBoundary_numberLength h
  split
  · exact hone
  split
  · exact hname
  split
  · exact hname
  split
  · next m _ hm =>
    split at hm
    · next hnext => exact isBoundary_two h hb hnext (ne_zero_of_ofTwice? hm)
    · simp at hm
  · exact hone
  · split
    · exact hone
    · exact isBoundary_invalid h hne

/-- A lexeme of normal text ends at a boundary. -/
theorem isBoundary_inText (lineStart : Bool) (h : IsText tape) :
    IsBoundary tape (inText lineStart tape.length tape).length := by
  unfold inText
  dsimp only
  split
  · exact h.isBoundary_zero
  next hl =>
  have hne : tape ≠ [] := fun he => hl (List.length_eq_zero_iff.2 he)
  split
  · next hb => exact isBoundary_one h hne (by rw [hb]; rfl)
  split
  · exact isBoundary_blanks lineStart _ h
  split
  · exact isBoundary_lineLength h
  split
  · exact isBoundary_lineLength h
  split
  · exact isBoundary_dateOrNumber h
  split
  · next hb => exact isBoundary_one_add_run (by grind) h hne (by grind)
  split
  · next hb => exact isBoundary_capitalWord h hne (by grind)
  split
  · exact isBoundary_foreignWord h hne
  · next hb => exact isBoundary_sign h hne (Bool.eq_false_iff.2 hb)

/-! ## Pieces of string literals -/

/-- A backslash and what it escapes end at a boundary. -/
theorem isBoundary_escapeSequence (h : IsText tape) (hne : tape ≠ [])
    (hb : isNonAscii (tape.headD 0) = false) :
    IsBoundary tape (escapeSequence tape.length tape).length := by
  have hone := isBoundary_one h hne hb
  unfold escapeSequence
  rw [List.take_length]
  dsimp only
  split
  · exact hone
  next hescaped =>
  have hlt : 1 < tape.length := by
    have := List.length_pos_iff.2 hescaped
    rw [List.length_tail] at this
    omega
  split
  · next hcrlf =>
    -- Both escaped bytes are of ASCII.
    have htail : IsBoundary tape.tail 2 := by
      rw [← List.drop_one] at hcrlf ⊢
      refine hone.isText_drop.isBoundary_of_forall_ascii ?_ fun b hm => ?_
      · have := congrArg List.length hcrlf
        rw [List.length_take, List.length_cons, List.length_singleton] at this
        omega
      · rw [hcrlf] at hm
        simp only [List.mem_cons, List.not_mem_nil, or_false] at hm
        rcases hm with rfl | rfl <;> rfl
    exact hone.add (by rwa [List.drop_one])
  · rw [← List.drop_one]
    exact hone.add_width hlt

/-- A piece of a string literal ends at a boundary. -/
theorem isBoundary_inLiteral (h : IsText tape) :
    IsBoundary tape (inLiteral tape.length tape).length := by
  unfold inLiteral
  dsimp only
  split
  · exact h.isBoundary_zero
  next hl =>
  have hne : tape ≠ [] := fun he => hl (List.length_eq_zero_iff.2 he)
  split
  · next hb => exact isBoundary_one h hne (by rw [hb]; rfl)
  split
  · next hb => exact isBoundary_one h hne (by rw [hb]; rfl)
  split
  · next hb => exact isBoundary_escapeSequence h hne (by rw [hb]; rfl)
  · have hr := h.isBoundary_add_run (p := (!isLiteralDelimiter ·)) (by grind) (Nat.zero_le _)
    rw [Nat.zero_add, List.drop_zero] at hr
    rwa [List.take_length]

/-- A byte of ASCII in a text is a character of its own. -/
theorem isBoundary_succ_of_drop {source : Bytes} {k : Nat} {b : UInt8} (h : IsText source)
    (hd : source.drop k = b :: tape) (hb : isNonAscii b = false) : IsBoundary source (k + 1) := by
  have hlt := (drop_eq_cons hd).1
  have hhead : isNonAscii ((source.drop k).headD 0) = false := by rwa [hd]
  exact (h.isBoundary_of_ascii (Nat.le_of_lt hlt) hhead).succ hlt hhead

/-- From anywhere in a text, the end of a literal is at a boundary. The bytes are passed over one by
one, but a quote and a backslash are characters of their own, so what a backslash escapes is
measured from a boundary. -/
theorem isBoundary_add_literalLength {source : Bytes} {k left : Nat} (h : IsText source)
    (hk : k ≤ source.length) (htape : source.drop k = tape) (hleft : left = tape.length) :
    IsBoundary source (k + literalLength left tape) := by
  fun_induction literalLength left tape generalizing k with
  | case1 left tape => exact isBoundary_succ_of_drop h htape rfl
  | case2 left b tape hb hs n =>
    rename_i ih
    simp only [Bool.and_eq_true, decide_eq_true_eq, bne_iff_ne, ne_eq] at hs
    obtain ⟨hlt, hd⟩ := drop_eq_cons htape
    have hlength := congrArg List.length hd
    rw [List.length_drop] at hlength
    simp only [Nat.succ_eq_add_one, List.length_cons, Nat.add_right_cancel_iff] at hleft
    -- Behind the backslash is a boundary, and behind the character that it escapes another.
    have hescaped := (isBoundary_succ_of_drop h htape (by rw [hs.1]; rfl)).add_width (by omega)
    rw [hd] at hescaped
    rw [show k + (1 + n + literalLength (left - n) (tape.drop n)) =
      k + 1 + n + literalLength (left - n) (tape.drop n) by omega]
    refine ih hescaped.le_length ?_ ?_
    · rw [← List.drop_drop, hd]
    · rw [List.length_drop, hleft]
  | case3 left b tape hb hs ih =>
    obtain ⟨hlt, hd⟩ := drop_eq_cons htape
    rw [← Nat.add_assoc]
    exact ih hlt hd (by simpa using hleft)
  | case4 left tape hend =>
    -- No byte is left, so the offset is the end.
    cases tape with
    | nil =>
      have hlength := congrArg List.length htape
      rw [List.length_drop, List.length_nil] at hlength
      obtain rfl : k = source.length := by omega
      exact h.isBoundary_length
    | cons b tape => exact absurd rfl (hend _ b tape hleft)

/-- The rest of a literal ends at a boundary. -/
theorem isBoundary_literalLength (h : IsText tape) :
    IsBoundary tape (literalLength tape.length tape) := by
  have hr := isBoundary_add_literalLength h (Nat.zero_le _) List.drop_zero rfl
  rwa [Nat.zero_add] at hr

end Lexeme

end LedgerText
