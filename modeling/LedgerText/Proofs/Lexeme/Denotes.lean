import LedgerText.Lexeme.Sense
import LedgerText.Proofs.Date.Written
import LedgerText.Proofs.Grammar.Longest
import LedgerText.Proofs.Literal
import LedgerText.Proofs.Utf8.Ascii

/-!
# What lexemes denote

What a builder is given of a lexeme is what the lexeme denotes (`Denotes`): the lexeme is a word of
the language of its kind, the characters behind it are such that the rule may end there, and the
arguments are its decoding. For a string literal this is told by its pieces, and for every other
kind it follows from the rule that the lexeme obeys (`denotes_of_sense`), since the sense of a
lexeme looks at nothing but its rule and its text.
-/

namespace LedgerText

open Grammar Literal Utf8
open scoped Computability

/-- The arguments that a lexeme of a kind denotes, where the characters `after` stand behind it in
the text. Strings are of the encoding of the given name. -/
inductive Denotes (text encoding : String) (lexeme after : List Char) : Kind → Args → Prop
  /-- A directive is written in small letters, and goes as far as a word may go. -/
  | directive (d : Directive) (hlexeme : String.ofList lexeme = (Kind.directive d).name.toLower)
    (hafter : ∀ b rest, encode after = b :: rest → [b] ∉ keyPart ∧ b ≠ ':'.toUInt8) :
    Denotes text encoding lexeme after (.directive d) (.text (String.ofList lexeme))
  | mark (m : Mark) (hlexeme : encode lexeme = m.spelling) :
    Denotes text encoding lexeme after (.mark m) (.text (String.ofList lexeme))
  | bool (value : Bool) (hlexeme : String.ofList lexeme = if value then "TRUE" else "FALSE") :
    Denotes text encoding lexeme after .bool (.bool value)
  | null (hlexeme : String.ofList lexeme = "NULL") :
    Denotes text encoding lexeme after .null (.text (String.ofList lexeme))
  | currency (hlexeme : encode lexeme ∈ currency)
    (hword : String.ofList lexeme ∉ ["TRUE", "FALSE", "NULL"]) :
    Denotes text encoding lexeme after .currency (.text (String.ofList lexeme))
  | flag (c : Char) (hlexeme : lexeme = [c])
    (hflag : c ∈ ['!', '&', '?', '%', 'P', 'S', 'T', 'C', 'U', 'R', 'M']) :
    Denotes text encoding lexeme after .flag (.flag c)
  | tag (name : List Char) (hlexeme : lexeme = '#' :: name) (hname : encode name ∈ plus namePart) :
    Denotes text encoding lexeme after .tag (.text (String.ofList name))
  | link (name : List Char) (hlexeme : lexeme = '^' :: name) (hname : encode name ∈ plus namePart) :
    Denotes text encoding lexeme after .link (.text (String.ofList name))
  | key (hlexeme : encode lexeme ∈ lower * keyPart∗)
    (hafter : ∃ rest, encode after = ':'.toUInt8 :: rest) :
    Denotes text encoding lexeme after .key (.text (String.ofList lexeme))
  | number (hlexeme : encode lexeme ∈ number) :
    Denotes text encoding lexeme after .number (.text (String.ofList lexeme))
  | account (hlexeme : encode lexeme ∈ account) :
    Denotes text encoding lexeme after .account (.text (String.ofList lexeme))
  /-- A date has four, one or two, and one or two digits. -/
  | date (year month day : List Char) (s t : Char)
    (hlexeme : lexeme = year ++ s :: (month ++ t :: day)) (hs : s ∈ ['-', '/'])
    (ht : t ∈ ['-', '/']) (hyear : year.length = 4) (hmonth : month.length ∈ [1, 2])
    (hday : day.length ∈ [1, 2]) (hdigits : ∀ c ∈ year ++ month ++ day, c.isDigit = true) :
    Denotes text encoding lexeme after .date (.date
      ⟨Nat.ofDigitChars 10 year 0, Nat.ofDigitChars 10 month 0, Nat.ofDigitChars 10 day 0⟩)
  /-- A string ends at the first quote that is in none of its pieces, and has its pieces for its
  contents. Its line feeds are counted, unless the text is too long for that. -/
  | string (ps : List Piece) (lines : Nat) (hlexeme : lexeme = quoted ps)
    (hps : pieces (Literal.text ps ++ '"' :: after) = (ps, '"' :: after))
    (hvalid : ∀ p ∈ ps, p.IsValid)
    (hlines : (ofString text).length ≤ Count.limit → lines = lexeme.count '\n') :
    Denotes text encoding lexeme after .string
      (.string (String.ofList (contents ps)) lines encoding)

/-- A directive's word is its name in small letters. -/
theorem Directive.toLower_name (d : Directive) : d.name.toLower = d.word := by
  cases d <;> decide +kernel

namespace Sense

open Byte

variable {text encoding : String} {lexeme after : List Char} {lineStart : Bool} {kind : Kind}
  {args : Args} {t : Tag}

/-! ## Words -/

/-- A word that is a directive. -/
theorem denotes_word (h : Matches lineStart .word (encode lexeme) (encode after))
    (hsense : ofWord (String.ofList lexeme) = .terminal kind args) :
    Denotes text encoding lexeme after kind args := by
  unfold ofWord at hsense
  split at hsense
  · next d hd =>
    cases hsense
    unfold Directive.ofWord? at hd
    have hword := List.find?_some hd
    rw [beq_iff_eq] at hword
    exact .directive d (hword.symm.trans d.toLower_name.symm) h.2
  · cases hsense

/-- A currency, or one of the three words that are none. -/
theorem denotes_currency (h : Matches lineStart .currency (encode lexeme) (encode after))
    (hsense : ofCurrency (String.ofList lexeme) = .terminal kind args) :
    Denotes text encoding lexeme after kind args := by
  unfold ofCurrency at hsense
  split_ifs at hsense with htrue hfalse hnull
  · cases hsense
    exact .bool true htrue
  · cases hsense
    exact .bool false hfalse
  · cases hsense
    exact .null hnull
  · cases hsense
    exact .currency h.1 (by simp [htrue, hfalse, hnull])

/-! ## Signs -/

attribute [local grind =] isDigit isUpper isLower isAlphanumeric isNonAscii isNamePart isFlagSign
  isFlagLetter

/-- A lexeme of a sign and a name of ASCII. -/
theorem exists_name {c : Char} {sign : UInt8} (hsign : c.toNat = sign.toNat)
    (hascii : sign.toNat ≤ 0x7F)
    (h : encode lexeme ∈ ofClass (· == sign) * plus (ofClass isNamePart)) :
    ∃ name, lexeme = c :: name ∧ encode name ∈ plus namePart := by
  obtain ⟨b, v, hbytes, hb, hv⟩ := mem_ofClass_mul.1 h
  obtain rfl := eq_of_beq hb
  have hname : ∀ d ∈ v, isNonAscii d = false := fun d hd => by
    have hpart := (mem_plus_ofClass.1 hv).2 d hd
    grind
  refine ⟨ascii v, encode_inj.1 ?_, ?_⟩
  · rw [hbytes, encode_cons, encodeChar_of_ascii hascii hsign, encode_ascii hname]
    rfl
  · rwa [encode_ascii hname, namePart_eq]

/-- A flag is one of its characters. -/
theorem exists_flag (h : encode lexeme ∈ pattern .flag) :
    ∃ c, lexeme = [c] ∧ c ∈ ['!', '&', '?', '%', 'P', 'S', 'T', 'C', 'U', 'R', 'M'] := by
  obtain ⟨b, hb, hbytes⟩ := h
  have hascii : isNonAscii b = false := by
    have hflag : [b] ∈ pattern .flag := ⟨b, hb, rfl⟩
    rw [pattern_flag, singleton_mem_ofClass] at hflag
    grind
  have hlexeme : lexeme = ascii [b] := eq_ascii_of_encode hbytes (by simpa using hascii)
  obtain ⟨c, hc, hbc⟩ := List.any_eq_true.1 hb
  refine ⟨c, ?_, hc⟩
  obtain rfl := eq_of_beq hbc
  rw [hlexeme]
  simp only [List.mem_cons, List.not_mem_nil, or_false] at hc
  rcases hc with rfl | rfl | rfl | rfl | rfl | rfl | rfl | rfl | rfl | rfl | rfl <;> rfl

/-! ## Dates -/

/-- There are two lengths that a month or a day may have. -/
theorem mem_one_two {n : Nat} (hpos : 0 < n) (hle : n ≤ Date.monthDayWidth) : n ∈ [1, 2] := by
  unfold Date.monthDayWidth at hle
  simp only [List.mem_cons, List.not_mem_nil, or_false]
  omega

/-- A date whose fields fit. -/
theorem denotes_date (h : encode lexeme ∈ Grammar.date)
    (hsense : ofDate (String.ofList lexeme) = .terminal kind args) :
    Denotes text encoding lexeme after kind args := by
  obtain ⟨w, hlexeme⟩ := Date.exists_written h
  obtain rfl := encode_inj.1 hlexeme
  unfold ofDate at hsense
  rw [w.decode_chars] at hsense
  cases hfits : w.overflow? with
  | some overflow =>
    rw [hfits] at hsense
    cases hsense
  | none =>
    rw [hfits] at hsense
    cases hsense
    obtain ⟨hyear, hmonth, hday⟩ := w.overflow?_eq_none_iff.1 hfits
    have hdigits : ∀ c ∈ w.year ++ w.month ++ w.day, c.isDigit = true := by
      simp only [List.forall_mem_append]
      exact ⟨⟨w.isDigit_year, w.isDigit_month⟩, w.isDigit_day⟩
    exact .date _ _ _ _ _ rfl w.first_mem w.second_mem hyear (mem_one_two w.length_month hmonth)
      (mem_one_two w.length_day hday) hdigits

/-! ## Every rule -/

/-- A lexeme of normal text whose value is asked for denotes the arguments that are given of it. -/
theorem denotes_of_sense (h : Matches lineStart t (encode lexeme) (encode after))
    (hsense : ofLexeme t (String.ofList lexeme) = .terminal kind args) :
    Denotes text encoding lexeme after kind args := by
  cases t with
  | word => exact denotes_word h hsense
  | date => exact denotes_date h.1 hsense
  | currency => exact denotes_currency h hsense
  | key =>
    cases hsense
    exact .key h.1 h.2
  | number =>
    cases hsense
    exact .number h.1
  | account =>
    cases hsense
    exact .account h.1
  | tag =>
    cases hsense
    obtain ⟨name, rfl, hname⟩ := exists_name (c := '#') rfl (by decide) (pattern_tag ▸ h.1)
    rw [nameOf, String.toList_ofList]
    exact .tag name rfl hname
  | link =>
    cases hsense
    obtain ⟨name, rfl, hname⟩ := exists_name (c := '^') rfl (by decide) (pattern_link ▸ h.1)
    rw [nameOf, String.toList_ofList]
    exact .link name rfl hname
  | flag =>
    cases hsense
    obtain ⟨c, rfl, hc⟩ := exists_flag h.1
    rw [flagOf, String.toList_ofList]
    exact .flag c rfl hc
  | mark m =>
    cases hsense
    exact .mark m h.1
  | blank | endOfFile | newline | indent | comment | skippedLine | openingQuote | invalid |
    discarded | literalText | escape | literalLineFeed | closingQuote => cases hsense

end Sense

end LedgerText
