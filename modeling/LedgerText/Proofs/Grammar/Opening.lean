import LedgerText.Proofs.Grammar.Reach
import LedgerText.Proofs.Mark

/-!
# The byte that opens a lexeme

Which rules can match is settled by the first byte, up to a few. `opens` gives the bytes with which
the words of a rule begin (`exists_cons_of_mem`), and for each class of first bytes the rules that
begin with one of them are listed.
-/

namespace LedgerText.Grammar

open Byte
open scoped Computability

variable {lineStart : Bool} {t : Tag} {b : UInt8} {w after rest : Bytes}

/-- Whether a word of the rule may begin with a byte. -/
def opens : Tag → UInt8 → Bool
  | .newline, b => b == lineFeed
  | .indent, b => isIndent b
  | .blank, b => isBlank b
  | .comment, b => b == semicolon
  | .skippedLine, b => isLineMarker b
  | .mark m, b => m.spelling.head? == some b
  | .openingQuote, b => b == quote
  | .flag, b => isFlagSign b || isFlagLetter b
  | .date, b => isDigit b
  | .number, b => isDigit b || b == dot
  | .account, b => isAccountStart b
  | .currency, b => isUpper b
  | .tag, b => b == hash
  | .link, b => b == caret
  | .key, b | .word, b => isLower b
  | _, _ => false

/-- A word of a rule begins with one of its opening bytes. -/
theorem exists_cons_of_mem (h : w ∈ pattern t) : ∃ b v, w = b :: v ∧ opens t b = true := by
  have hplus : ∀ {p : UInt8 → Bool}, w ∈ plus (ofClass p) → ∃ b v, w = b :: v ∧ p b = true :=
    fun h => by
      obtain ⟨b, v, rfl, hb, -⟩ := mem_ofClass_mul.1 h
      exact ⟨b, v, rfl, hb⟩
  have hmul : ∀ {p : UInt8 → Bool} {L}, w ∈ ofClass p * L → ∃ b v, w = b :: v ∧ p b = true :=
    fun h => by
      obtain ⟨b, v, rfl, hb, -⟩ := mem_ofClass_mul.1 h
      exact ⟨b, v, rfl, hb⟩
  have hone : ∀ {p : UInt8 → Bool}, w ∈ ofClass p → ∃ b v, w = b :: v ∧ p b = true :=
    fun h => by
      obtain ⟨b, hb, rfl⟩ := h
      exact ⟨b, [], rfl, hb⟩
  cases t with
  | newline => exact hone h
  | indent => exact hplus (pattern_indent ▸ h)
  | blank => exact hplus (pattern_blank ▸ h)
  | comment => exact hmul h
  | skippedLine => exact hmul (pattern_skippedLine ▸ h)
  | mark m =>
    obtain rfl : w = m.spelling := h
    cases m <;> exact ⟨_, _, rfl, beq_self_eq_true _⟩
  | openingQuote => exact hone h
  | flag => exact hone (pattern_flag ▸ h)
  | date =>
    obtain ⟨year, month, day, rfl, hlen, hyear, -⟩ := mem_date_iff.1 h
    obtain ⟨b, v, rfl⟩ := List.exists_cons_of_length_pos (show 0 < year.length by omega)
    exact ⟨b, _, rfl, hyear b List.mem_cons_self⟩
  | number =>
    rcases mem_number_iff.1 h with ⟨u, v, rfl, hu, -⟩ | ⟨ds, rfl, -⟩
    · obtain ⟨-, hhead, front, z, rfl, hz⟩ := mem_whole_iff.1 hu
      rcases front with - | ⟨b, front⟩
      · exact ⟨z, v, rfl, by simp [opens, hz]⟩
      · have hb : isDigit b = true := hhead
        exact ⟨b, _, rfl, by simp [opens, hb]⟩
    · exact ⟨dot, ds, rfl, rfl⟩
  | account =>
    obtain ⟨b, u, v, rfl, hb, -⟩ := mem_account_iff.1 h
    exact ⟨b, _, rfl, hb⟩
  | currency =>
    obtain ⟨b, v, z, rfl, hb, -⟩ := mem_currency_iff.1 h
    exact ⟨b, _, rfl, hb⟩
  | tag => exact hmul h
  | link => exact hmul h
  | key => exact hmul h
  | word => exact hmul h
  | literalText | escape | literalLineFeed | closingQuote | discarded | invalid | endOfFile =>
    exact absurd h (Language.notMem_zero w)

/-- A rule that matches where the byte `b` is first has `b` among its opening bytes. -/
theorem opens_of_matches (hs : w ++ after = b :: rest) (h : Matches lineStart t w after) :
    opens t b = true := by
  obtain ⟨c, v, rfl, hc⟩ := exists_cons_of_mem h.1
  rw [List.cons_append, List.cons.injEq] at hs
  rwa [hs.1] at hc

/-! ## The rules for each class of first bytes -/

/-- A letter that is a flag is a capital letter. -/
theorem isUpper_of_isFlagLetter (h : isFlagLetter b = true) : isUpper b = true := by
  simp only [isFlagLetter, Bool.or_eq_true, beq_iff_eq] at h
  rcases h with (((((rfl | rfl) | rfl) | rfl) | rfl) | rfl) | rfl <;> rfl

attribute [local grind =] isDigit isUpper isLower isAlphanumeric isNonAscii isIndent isBlank
  isAccountStart isLineMarker isFlagSign

attribute [local grind →] isUpper_of_isFlagLetter

/-- No mark is spelled with a digit, a letter or a byte outside ASCII. -/
theorem class_of_opens_mark {m : Mark} (h : opens (.mark m) b = true) :
    isDigit b = false ∧ isLower b = false ∧ isUpper b = false ∧ isNonAscii b = false := by
  have hhead : m.spelling.head? = some b := eq_of_beq h
  cases m <;> cases hhead <;> decide

/-- There is no other tag. -/
theorem mem_all (t : Tag) : t ∈ Tag.all := by
  cases t with
  | mark m => cases m <;> decide
  | _ => decide

theorem eq_of_opens_lineFeed (h : opens t lineFeed = true) : t = .newline := by
  have hall : ∀ t ∈ Tag.all, opens t lineFeed = true → t = .newline := by decide
  exact hall t (mem_all t) h

theorem eq_of_opens_semicolon (h : opens t semicolon = true) : t = .comment := by
  have hall : ∀ t ∈ Tag.all, opens t semicolon = true → t = .comment := by decide
  exact hall t (mem_all t) h

theorem eq_of_opens_dot (h : opens t dot = true) : t = .number := by
  have hall : ∀ t ∈ Tag.all, opens t dot = true → t = .number := by decide
  exact hall t (mem_all t) h

theorem eq_of_opens_quote (h : opens t quote = true) : t = .openingQuote := by
  have hall : ∀ t ∈ Tag.all, opens t quote = true → t = .openingQuote := by decide
  exact hall t (mem_all t) h

theorem eq_of_opens_blank (h : opens t b = true) (hb : isBlank b = true) :
    t = .indent ∨ t = .blank := by
  have hspace : ∀ t ∈ Tag.all, opens t space = true → t = .indent ∨ t = .blank := by decide
  have htab : ∀ t ∈ Tag.all, opens t tab = true → t = .indent ∨ t = .blank := by decide
  have hreturn : ∀ t ∈ Tag.all, opens t carriageReturn = true → t = .indent ∨ t = .blank := by
    decide
  simp only [isBlank, isIndent, Bool.or_eq_true, beq_iff_eq] at hb
  rcases hb with (rfl | rfl) | rfl
  · exact hspace t (mem_all t) h
  · exact htab t (mem_all t) h
  · exact hreturn t (mem_all t) h

theorem eq_of_opens_marker (h : opens t b = true) (hb : isLineMarker b = true) :
    t = .skippedLine ∨ (∃ m, t = .mark m) ∨ t = .flag ∨ t = .tag ∨ t = .link := by
  cases t with
  | mark m => exact .inr (.inl ⟨m, rfl⟩)
  | _ => grind [opens]

theorem eq_of_opens_digit (h : opens t b = true) (hb : isDigit b = true) :
    t = .date ∨ t = .number := by
  cases t with
  | mark m =>
    rw [(class_of_opens_mark h).1] at hb
    cases hb
  | _ => grind [opens]

theorem eq_of_opens_lower (h : opens t b = true) (hb : isLower b = true) :
    t = .key ∨ t = .word := by
  cases t with
  | mark m =>
    rw [(class_of_opens_mark h).2.1] at hb
    cases hb
  | _ => grind [opens]

theorem eq_of_opens_upper (h : opens t b = true) (hb : isUpper b = true) :
    t = .account ∨ t = .currency ∨ t = .flag ∧ isFlagLetter b = true := by
  cases t with
  | mark m =>
    rw [(class_of_opens_mark h).2.2.1] at hb
    cases hb
  | _ => grind [opens]

theorem eq_of_opens_foreign (h : opens t b = true) (hb : isNonAscii b = true) : t = .account := by
  cases t with
  | mark m =>
    rw [(class_of_opens_mark h).2.2.2] at hb
    cases hb
  | _ => grind [opens]

/-- Where the first byte is in none of the classes above, it tells the rule, or the rule is one of
the marks. -/
theorem eq_of_opens_sign (h : opens t b = true) (hlf : b ≠ lineFeed) (hb : isBlank b = false)
    (hs : b ≠ semicolon) (hd : isDigit b = false) (hl : isLower b = false) (hu : isUpper b = false)
    (hn : isNonAscii b = false) : t = .skippedLine ∧ isLineMarker b = true ∨ (∃ m, t = .mark m) ∨
      t = .openingQuote ∧ b = quote ∨ t = .flag ∧ isFlagSign b = true ∨ t = .number ∧ b = dot ∨
      t = .tag ∧ b = hash ∨ t = .link ∧ b = caret := by
  cases t with
  | mark m => exact .inr (.inl ⟨m, rfl⟩)
  | skippedLine => exact .inl ⟨rfl, h⟩
  | _ => grind [opens]

end LedgerText.Grammar
