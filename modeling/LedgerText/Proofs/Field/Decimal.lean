import LedgerText.Proofs.Field
import Mathlib.Data.Nat.Digits.Defs
import Mathlib.Tactic.Ring

/-!
# Decimal fields are exact

What a field holds is told by the bytes of the run: one digit at least, no more than the width, and
a number in base ten that fits in 32 bits (`Fits`). Such a run is decoded to its number, and every
other run is refused as it is written (`decode_exact`). The value is checked at every digit, when a
place is made for it and when it is added, but no value on the way is greater than the last one. So
a run of digits is refused for its number alone, and zeros in front make no difference.
-/

namespace LedgerText.Field

open Utf8

variable {cs : List Char} {run : Bytes} {width n : Nat}

/-- The number that digits write in base ten. The last of them counts ones. -/
def decimal (run : Bytes) : Nat := Nat.ofDigits 10 (run.map fun b => b.toNat - 0x30).reverse

/-- A run of bytes that a field of some width holds. -/
def Fits (run : Bytes) (width : Nat) : Prop :=
  1 ≤ run.length ∧ run.length ≤ width ∧ (∀ b ∈ run, Byte.isDigit b = true) ∧
    decimal run ≤ 2 ^ 32 - 1

instance (run : Bytes) (width : Nat) : Decidable (Fits run width) :=
  inferInstanceAs (Decidable (_ ∧ _ ∧ _ ∧ _))

/-! ## Bytes of digits -/

/-- In front of `b`, the digits behind it have the value that they have alone. -/
theorem decimal_cons (b : UInt8) (run : Bytes) :
    decimal (b :: run) = decimal run + 10 ^ run.length * (b.toNat - 0x30) := by
  rw [decimal, List.map_cons, Nat.ofDigits_reverse_cons, List.length_map, decimal]

/-- The characters of a text are digits exactly if its bytes are. -/
theorem isDigit_encode_iff :
    (∀ b ∈ encode cs, Byte.isDigit b = true) ↔ ∀ c ∈ cs, c.isDigit = true := by
  constructor
  · intro h
    have hascii : ∀ b ∈ encode cs, Byte.isNonAscii b = false := by
      intro b hb
      have hdigit := h b hb
      grind [Byte.isDigit, Byte.isNonAscii]
    intro c hc
    rw [eq_ascii_of_encode rfl hascii] at hc
    exact isDigit_of_mem_ascii h hc
  · intro h b hb
    obtain ⟨c, hc, hbc⟩ := List.mem_flatMap.1 hb
    obtain ⟨b', hchar, hdigit, -⟩ := exists_encodeChar_of_isDigit (h c hc)
    rw [hchar, List.mem_singleton] at hbc
    rwa [hbc]

/-- Read from the left on, digits have the value that they have from the right on. -/
theorem ofDigitChars_eq_decimal (h : ∀ c ∈ cs, c.isDigit = true) (n : Nat) :
    Nat.ofDigitChars 10 cs n = n * 10 ^ cs.length + decimal (encode cs) := by
  induction cs generalizing n with
  | nil => simp [decimal]
  | cons c cs ih =>
    obtain ⟨hc, hcs⟩ := List.forall_mem_cons.1 h
    obtain ⟨b, hchar, -, hb⟩ := exists_encodeChar_of_isDigit hc
    have hzero : '0'.toNat = 0x30 := rfl
    rw [Nat.ofDigitChars_cons, ih hcs, encode_cons, hchar, List.singleton_append, decimal_cons,
      length_encode_digits hcs, hb, hzero, List.length_cons]
    ring

/-- All in all a run of digits writes the decimal number of its bytes. -/
theorem ofDigitChars_zero_eq_decimal (h : ∀ c ∈ cs, c.isDigit = true) :
    Nat.ofDigitChars 10 cs 0 = decimal (encode cs) := by
  rw [ofDigitChars_eq_decimal h, Nat.zero_mul, Nat.zero_add]

/-! ## Decoding -/

/-- The checks at the digits of a run refuse it exactly if its number is too great. -/
theorem foldlM_appendDigit_eq_none_iff (h : ∀ c ∈ cs, c.isDigit = true) :
    cs.foldlM appendDigit 0 = none ↔ 2 ^ 32 ≤ decimal (encode cs) := by
  have hsome (m : Nat) : cs.foldlM appendDigit 0 = some m ↔
      decimal (encode cs) = m ∧ m ≤ maximum := by
    rw [foldlM_appendDigit_eq_some_iff (Nat.zero_le maximum), ofDigitChars_zero_eq_decimal h,
      and_iff_right h]
  have hmaximum : maximum = 2 ^ 32 - 1 := rfl
  constructor
  · intro hnone
    by_contra hlt
    have hkept := (hsome _).2 ⟨rfl, by omega⟩
    rw [hnone] at hkept
    cases hkept
  · intro hle
    cases hvalue : cs.foldlM appendDigit 0 with
    | none => rfl
    | some m =>
      obtain ⟨hm, hmax⟩ := (hsome m).1 hvalue
      omega

/-- A run is decoded exactly if the field holds it, and then to its number. -/
theorem decode_eq_ok_iff_fits (digits : String) :
    decode digits width = .ok n ↔ Fits (ofString digits) width ∧ decimal (ofString digits) = n := by
  have hlist : decode digits width = decode (String.ofList digits.toList) width := by
    rw [String.ofList_toList]
  have hne : digits.toList ≠ [] ↔ 1 ≤ (encode digits.toList).length := by
    rw [Nat.one_le_iff_ne_zero, ne_eq, ne_eq, List.length_eq_zero_iff, encode_eq_nil]
  have hmaximum : maximum = 2 ^ 32 - 1 := rfl
  rw [hlist, decode_eq_ok_iff, hne, ofString, Fits, isDigit_encode_iff, hmaximum]
  constructor
  · rintro ⟨hpos, hle, hdigits, rfl, hmax⟩
    rw [ofDigitChars_zero_eq_decimal hdigits] at hmax ⊢
    exact ⟨⟨hpos, hle, hdigits, hmax⟩, rfl⟩
  · rintro ⟨⟨hpos, hle, hdigits, hmax⟩, rfl⟩
    exact ⟨hpos, hle, hdigits, ofDigitChars_zero_eq_decimal hdigits, hmax⟩

/-- A run that is not decoded is refused as it is written. -/
theorem decode_eq_ok_or_error (digits : String) (width : Nat) :
    (∃ n, decode digits width = .ok n) ∨ decode digits width = .error ⟨digits, width⟩ := by
  unfold decode
  split
  · exact .inr rfl
  · split
    · next n _ => exact .inl ⟨n, rfl⟩
    · exact .inr rfl

/-! ## Zeros in front -/

/-- A text with zeros in front is its bytes with zeros in front. -/
theorem ofString_zeros_append (k : Nat) (digits : String) :
    ofString (String.ofList (List.replicate k '0') ++ digits) =
      List.replicate k 0x30 ++ ofString digits := by
  have hzeros : encode (List.replicate k '0') = List.replicate k 0x30 := by
    induction k with
    | zero => rfl
    | succ k ih =>
      rw [List.replicate_succ, encode_cons, ih]
      rfl
  rw [ofString, String.toList_append, String.toList_ofList, encode_append, hzeros, ofString]

/-- Zeros in front are worth nothing. -/
theorem decimal_zeros_append (k : Nat) (run : Bytes) :
    decimal (List.replicate k 0x30 ++ run) = decimal run := by
  have hzero : (0x30 : UInt8).toNat - 0x30 = 0 := rfl
  rw [decimal, List.map_append, List.map_replicate, hzero, List.reverse_append,
    List.reverse_replicate, Nat.ofDigits_append_replicate_zero, decimal]

/-- Where there is space for zeros, a field holds a run with them if it holds it without. -/
theorem fits_zeros_append {k : Nat} (hpos : 1 ≤ run.length) (hle : k + run.length ≤ width) :
    Fits (List.replicate k 0x30 ++ run) width ↔ Fits run width := by
  have hzeros : ∀ b ∈ List.replicate k (0x30 : UInt8), Byte.isDigit b = true := by
    intro b hb
    rw [List.eq_of_mem_replicate hb]
    rfl
  unfold Fits
  rw [decimal_zeros_append, List.forall_mem_append, and_iff_right hzeros, List.length_append,
    List.length_replicate]
  constructor
  · rintro ⟨-, -, hdigits, hmax⟩
    exact ⟨hpos, by omega, hdigits, hmax⟩
  · rintro ⟨-, -, hdigits, hmax⟩
    exact ⟨by omega, hle, hdigits, hmax⟩

/-- A run is decoded to its number in base ten if it has a byte and no more of them than the field,
is nothing but digits, and fits in 32 bits. Every other run is refused as it is written, with the
width of the field. The checks on the way refuse digits exactly if their whole number is too great,
and a number with zeros in front is the same number as long as there is space for them. -/
theorem decode_exact (digits : String) (width : Nat) :
    (∀ n, decode digits width = .ok n ↔
        Fits (ofString digits) width ∧ decimal (ofString digits) = n) ∧
      (¬Fits (ofString digits) width → decode digits width = .error ⟨digits, width⟩) ∧
      ((∀ b ∈ ofString digits, Byte.isDigit b = true) →
        (digits.toList.foldlM appendDigit 0 = none ↔ 2 ^ 32 ≤ decimal (ofString digits))) ∧
      ∀ k, digits ≠ "" → k + (ofString digits).length ≤ width →
        ∀ n, decode (String.ofList (List.replicate k '0') ++ digits) width = .ok n ↔
          decode digits width = .ok n := by
  refine ⟨fun n => decode_eq_ok_iff_fits digits, fun hfits => ?_, fun hdigits => ?_,
    fun k hne hle n => ?_⟩
  · rcases decode_eq_ok_or_error digits width with ⟨n, hok⟩ | herror
    · exact absurd ((decode_eq_ok_iff_fits digits).1 hok).1 hfits
    · exact herror
  · exact foldlM_appendDigit_eq_none_iff (isDigit_encode_iff.1 hdigits)
  · have hpos : 1 ≤ (ofString digits).length := by
      rw [Nat.one_le_iff_ne_zero, ne_eq, List.length_eq_zero_iff, ofString, encode_eq_nil,
        String.toList_eq_nil_iff]
      exact hne
    rw [decode_eq_ok_iff_fits, decode_eq_ok_iff_fits, ofString_zeros_append, decimal_zeros_append,
      fits_zeros_append hpos hle]

/-- The least number that does not fit in 32 bits is refused in a field of twelve digits, with a
zero in front and without. -/
theorem decode_exact_beyond :
    let digits := "4294967296"
    let padded := String.ofList (List.replicate 1 '0') ++ digits
    ¬Fits (ofString digits) 12 ∧ decode digits 12 = .error ⟨digits, 12⟩ ∧
      (∀ b ∈ ofString digits, Byte.isDigit b = true) ∧ 2 ^ 32 ≤ decimal (ofString digits) ∧
      digits.toList.foldlM appendDigit 0 = none ∧
      digits ≠ "" ∧ 1 + (ofString digits).length ≤ 12 ∧
      ∀ n, decode padded 12 = .ok n ↔ decode digits 12 = .ok n := by
  intro digits padded
  have hfits : ¬Fits (ofString digits) 12 := by decide +kernel
  have hdigits : ∀ b ∈ ofString digits, Byte.isDigit b = true := by decide +kernel
  have hvalue : 2 ^ 32 ≤ decimal (ofString digits) := by decide +kernel
  have hne : digits ≠ "" := by decide +kernel
  have hle : 1 + (ofString digits).length ≤ 12 := by decide +kernel
  obtain ⟨-, herror, hnone, hzeros⟩ := decode_exact digits 12
  exact ⟨hfits, herror hfits, hdigits, hvalue, (hnone hdigits).2 hvalue, hne, hle, hzeros 1 hne hle⟩

end LedgerText.Field
