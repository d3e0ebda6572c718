import LedgerText.Proofs.Date
import LedgerText.Proofs.Grammar.Reach
import LedgerText.Proofs.Utf8.Ascii

/-!
# Dates as they are written

The rule for dates takes three runs of digits with a separator before the second and the third, and
bounds the runs only from below (`exists_written`). The fields of a date bound them from above, so
the date is decoded exactly if no run is too long, and if one is, the first such run is refused
(`Written.decode_chars`). A run that is not too long is never refused for its value, since a number
of as many digits fits in 32 bits (`Field.decode_digits`).
-/

namespace LedgerText

open Grammar Utf8

/-! ## Written dates -/

namespace Date

/-- No digit separates fields. -/
theorem isSeparator_of_isDigit {c : Char} (h : c.isDigit = true) : isSeparator c = false := by
  unfold isSeparator
  rw [Bool.or_eq_false_iff, beq_eq_false_iff_ne, beq_eq_false_iff_ne]
  constructor <;> rintro rfl <;> cases h

/-- Two characters separate fields. -/
theorem isSeparator_of_mem {c : Char} (h : c ∈ ['-', '/']) : isSeparator c = true := by
  simpa [isSeparator] using h

/-- A date as the rule for dates takes it. -/
structure Written where
  year : List Char
  month : List Char
  day : List Char
  /-- What separates the year from the month. -/
  first : Char
  /-- What separates the month from the day. -/
  second : Char
  isDigit_year : ∀ c ∈ year, c.isDigit = true
  isDigit_month : ∀ c ∈ month, c.isDigit = true
  isDigit_day : ∀ c ∈ day, c.isDigit = true
  length_year : 4 ≤ year.length
  length_month : 1 ≤ month.length
  length_day : 1 ≤ day.length
  first_mem : first ∈ ['-', '/']
  second_mem : second ∈ ['-', '/']

namespace Written

/-- The characters of a date. -/
def chars (w : Written) : List Char := w.year ++ w.first :: (w.month ++ w.second :: w.day)

/-- The numbers that a date writes. -/
def value (w : Written) : Date :=
  ⟨Nat.ofDigitChars 10 w.year 0, Nat.ofDigitChars 10 w.month 0, Nat.ofDigitChars 10 w.day 0⟩

/-- The runs of digits from left to right, each with the number of digits that its field holds. -/
def fields (w : Written) : List (List Char × Nat) := [(w.year, 4), (w.month, 2), (w.day, 2)]

/-- The first run that is too long for its field. -/
def overflow? (w : Written) : Option Field.Overflow :=
  (w.fields.find? fun field => field.2 < field.1.length).map fun field =>
    ⟨String.ofList field.1, field.2⟩

/-- No run is too long if the year has no more than its four digits, and the month and the day have
two at most. -/
theorem overflow?_eq_none_iff (w : Written) :
    w.overflow? = none ↔ w.year.length = 4 ∧ w.month.length ≤ 2 ∧ w.day.length ≤ 2 := by
  have hyear := w.length_year
  simp only [overflow?, fields, Option.map_eq_none_iff, List.find?_eq_none, List.forall_mem_cons,
    List.not_mem_nil, decide_eq_true_eq, Nat.not_lt, false_imp_iff, implies_true, and_true]
  omega

/-- The numbers of a date have no more digits than its fields hold. -/
theorem value_lt {w : Written} (h : w.overflow? = none) :
    w.value.year < 10000 ∧ w.value.month < 100 ∧ w.value.day < 100 := by
  obtain ⟨hyear, hmonth, hday⟩ := w.overflow?_eq_none_iff.1 h
  exact ⟨Field.ofDigitChars_zero_lt w.isDigit_year (Nat.le_of_eq hyear),
    Field.ofDigitChars_zero_lt w.isDigit_month hmonth,
    Field.ofDigitChars_zero_lt w.isDigit_day hday⟩

/-- A date is decoded to its numbers, unless a run is too long. Then the first such run is
refused. -/
theorem decode_chars (w : Written) :
    decode (String.ofList w.chars) =
      match w.overflow? with
      | some overflow => .error overflow
      | none => .ok w.value := by
  have hnone {cs : List Char} (h : ∀ c ∈ cs, c.isDigit = true) :
      ∀ c ∈ cs, isSeparator c = false := fun c hc => isSeparator_of_isDigit (h c hc)
  have hyear : w.year ≠ [] := List.length_pos_iff.1 (Nat.lt_of_lt_of_le (by decide) w.length_year)
  have hmonth : w.month ≠ [] := List.length_pos_iff.1 w.length_month
  have hday : w.day ≠ [] := List.length_pos_iff.1 w.length_day
  rw [chars, decode_eq (hnone w.isDigit_year) (isSeparator_of_mem w.first_mem)
    (hnone w.isDigit_month) (isSeparator_of_mem w.second_mem) (hnone w.isDigit_day),
    Field.decode_digits hyear w.isDigit_year (by decide),
    Field.decode_digits hmonth w.isDigit_month (by decide),
    Field.decode_digits hday w.isDigit_day (by decide), overflow?, fields, yearWidth, monthDayWidth]
  -- The fields are decoded in the order of the list, up to the first that is too long.
  by_cases hlong : 4 < w.year.length
  · rw [if_pos hlong, List.find?_cons_of_pos (by simpa using hlong)]
    rfl
  rw [if_neg hlong, List.find?_cons_of_neg (by simpa using hlong)]
  by_cases hlong : 2 < w.month.length
  · rw [if_pos hlong, List.find?_cons_of_pos (by simpa using hlong)]
    rfl
  rw [if_neg hlong, List.find?_cons_of_neg (by simpa using hlong)]
  by_cases hlong : 2 < w.day.length
  · rw [if_pos hlong, List.find?_cons_of_pos (by simpa using hlong)]
    rfl
  rw [if_neg hlong, List.find?_cons_of_neg (by simpa using hlong)]
  rfl

/-- A date is decoded if no run is too long. -/
theorem decode_eq_ok_iff (w : Written) {date : Date} :
    decode (String.ofList w.chars) = .ok date ↔ w.overflow? = none ∧ date = w.value := by
  rw [w.decode_chars]
  cases w.overflow? with
  | none => simp [eq_comm]
  | some overflow => simp

/-- A date is refused for the first run that is too long. -/
theorem decode_eq_error_iff (w : Written) {overflow : Field.Overflow} :
    decode (String.ofList w.chars) = .error overflow ↔ w.overflow? = some overflow := by
  rw [w.decode_chars]
  cases w.overflow? with
  | none => simp
  | some overflow => simp

end Written

/-! ## The rule for dates -/

/-- A separator is one of two characters. -/
theorem separator_cases {b : UInt8} (h : Byte.isDateSeparator b = true) :
    Char.ofNat b.toNat ∈ ['-', '/'] := by
  simp only [Byte.isDateSeparator, Bool.or_eq_true, beq_iff_eq] at h
  rcases h with rfl | rfl
  · exact List.mem_cons_self
  · exact List.mem_cons_of_mem _ List.mem_cons_self

attribute [local grind =] Byte.isDigit Byte.isNonAscii Byte.isDateSeparator

/-- What the rule for dates takes is a date as it is written. -/
theorem exists_written {bytes : Bytes} (h : bytes ∈ Grammar.date) :
    ∃ w : Written, bytes = encode w.chars := by
  obtain ⟨year, month, day, rfl, hyear, hys, hmonth, hday⟩ := mem_date_iff.1 h
  obtain ⟨s, ms, rfl, hs, hmonth, hms⟩ := mem_field_iff.1 hmonth
  obtain ⟨t, ds, rfl, ht, hday, hds⟩ := mem_field_iff.1 hday
  -- Digits and separators are ASCII, so every byte of the date is a character of it.
  have hascii : ∀ b ∈ year ++ (s :: ms ++ t :: ds), Byte.isNonAscii b = false := by
    have hdigit : ∀ b, Byte.isDigit b = true → Byte.isNonAscii b = false := by grind
    have hseparator : ∀ b, Byte.isDateSeparator b = true → Byte.isNonAscii b = false := by grind
    simp only [List.forall_mem_append, List.forall_mem_cons]
    exact ⟨fun b hb => hdigit b (hys b hb), ⟨hseparator s hs, fun b hb => hdigit b (hms b hb)⟩,
      hseparator t ht, fun b hb => hdigit b (hds b hb)⟩
  let w : Written :=
    { year := ascii year
      month := ascii ms
      day := ascii ds
      first := Char.ofNat s.toNat
      second := Char.ofNat t.toNat
      isDigit_year := fun c => Field.isDigit_of_mem_ascii hys
      isDigit_month := fun c => Field.isDigit_of_mem_ascii hms
      isDigit_day := fun c => Field.isDigit_of_mem_ascii hds
      length_year := by rwa [length_ascii]
      length_month := by rwa [length_ascii, Nat.one_le_iff_ne_zero, ne_eq, List.length_eq_zero_iff]
      length_day := by rwa [length_ascii, Nat.one_le_iff_ne_zero, ne_eq, List.length_eq_zero_iff]
      first_mem := separator_cases hs
      second_mem := separator_cases ht }
  have hchars : w.chars = ascii (year ++ (s :: ms ++ t :: ds)) := by simp [w, Written.chars, ascii]
  exact ⟨w, by rw [hchars, encode_ascii hascii]⟩

end Date

end LedgerText
