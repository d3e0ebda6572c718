import LedgerText.Field
import LedgerText.Proofs.Utf8.Ascii
import Mathlib.Algebra.Ring.Nat

/-!
# Fields of digits

A field is decoded digit by digit. The value only grows on the way, so a run is refused for its
value exactly if the number that it writes is too great (`foldlM_appendDigit_eq_some_iff`), and what
a field holds is the decimal value of its digits (`decode_eq_ok_iff`). A run that is not too long is
not refused for its value, where a number of as many digits always fits in 32 bits
(`decode_digits`).
-/

namespace LedgerText.Field

open Utf8

/-! ## Digits -/

/-- The character of a digit is a byte, of a digit too. -/
theorem exists_encodeChar_of_isDigit {c : Char} (hc : c.isDigit = true) :
    ∃ b : UInt8, String.utf8EncodeChar c = [b] ∧ Byte.isDigit b = true ∧ b.toNat = c.toNat := by
  simp only [Char.isDigit, Bool.and_eq_true, decide_eq_true_eq, UInt32.le_iff_toNat_le] at hc
  have hval : c.toNat = c.val.toNat := rfl
  have hzero : '0'.val.toNat = 48 := rfl
  have hnine : '9'.val.toNat = 57 := rfl
  have hsize : UInt8.size = 256 := rfl
  have hbyte : (UInt8.ofNat c.toNat).toNat = c.toNat := UInt8.toNat_ofNat_of_lt (by omega)
  refine ⟨UInt8.ofNat c.toNat, encodeChar_of_ascii (by omega) hbyte.symm, ?_, hbyte⟩
  simp only [Byte.isDigit, Bool.and_eq_true, decide_eq_true_eq, UInt8.le_iff_toNat_le,
    UInt8.reduceToNat]
  omega

/-- A digit is the character of a digit. -/
theorem isDigit_of_mem_ascii {w : Bytes} (h : ∀ b ∈ w, Byte.isDigit b = true) {c : Char}
    (hc : c ∈ ascii w) : c.isDigit = true := by
  obtain ⟨b, hb, rfl⟩ := List.mem_map.1 hc
  have hdigit := h b hb
  simp only [Byte.isDigit, Bool.and_eq_true, decide_eq_true_eq, UInt8.le_iff_toNat_le,
    UInt8.reduceToNat] at hdigit
  have hnat := toNat_ofNat_toNat (b := b) (by omega)
  have hval : (Char.ofNat b.toNat).val.toNat = b.toNat := hnat
  simp only [Char.isDigit, Bool.and_eq_true, decide_eq_true_eq, UInt32.le_iff_toNat_le, hval]
  exact hdigit

/-- Digits are one byte each. -/
theorem length_encode_digits {cs : List Char} (h : ∀ c ∈ cs, c.isDigit = true) :
    (encode cs).length = cs.length := by
  induction cs with
  | nil => rfl
  | cons c cs ih =>
    obtain ⟨hc, hcs⟩ := List.forall_mem_cons.1 h
    obtain ⟨b, hchar, -⟩ := exists_encodeChar_of_isDigit hc
    rw [encode_cons, hchar, List.singleton_append, List.length_cons, List.length_cons, ih hcs]

/-- The value of a digit is less than ten. -/
theorem toNat_sub_lt_ten {c : Char} (h : c.isDigit = true) : c.toNat - '0'.toNat < 10 := by
  simp only [Char.isDigit, Bool.and_eq_true, decide_eq_true_eq, UInt32.le_iff_toNat_le] at h
  have hval : c.toNat = c.val.toNat := rfl
  have hnine : '9'.val.toNat = 57 := rfl
  have hzero : '0'.toNat = 48 := rfl
  omega

/-- As many digits more make a number that is less than the next one with as many zeros. -/
theorem ofDigitChars_lt {cs : List Char} (h : ∀ c ∈ cs, c.isDigit = true) (n : Nat) :
    Nat.ofDigitChars 10 cs n < (n + 1) * 10 ^ cs.length := by
  induction cs generalizing n with
  | nil => simp
  | cons c cs ih =>
    obtain ⟨hc, hcs⟩ := List.forall_mem_cons.1 h
    have hdigit := toNat_sub_lt_ten hc
    rw [Nat.ofDigitChars_cons, List.length_cons, Nat.pow_succ']
    calc Nat.ofDigitChars 10 cs (10 * n + (c.toNat - '0'.toNat))
      _ < (10 * n + (c.toNat - '0'.toNat) + 1) * 10 ^ cs.length := ih hcs _
      _ ≤ (n + 1) * 10 * 10 ^ cs.length := Nat.mul_le_mul_right _ (by omega)
      _ = (n + 1) * (10 * 10 ^ cs.length) := Nat.mul_assoc _ _ _

/-- Digits write a number that is less than the power of ten of their number. -/
theorem ofDigitChars_zero_lt {cs : List Char} (h : ∀ c ∈ cs, c.isDigit = true) {width : Nat}
    (hle : cs.length ≤ width) : Nat.ofDigitChars 10 cs 0 < 10 ^ width :=
  calc Nat.ofDigitChars 10 cs 0
    _ < (0 + 1) * 10 ^ cs.length := ofDigitChars_lt h 0
    _ = 10 ^ cs.length := by rw [Nat.zero_add, Nat.one_mul]
    _ ≤ 10 ^ width := Nat.pow_le_pow_right (by decide) hle

/-! ## The value of a run -/

/-- A value is kept if it is not beyond the greatest one. -/
theorem checked_eq_some_iff {n m : Nat} : checked n = some m ↔ n = m ∧ m ≤ maximum := by
  unfold checked
  constructor
  · intro h
    split_ifs at h with hle
    cases h
    exact ⟨rfl, hle⟩
  · rintro ⟨rfl, hle⟩
    rw [if_pos hle]

/-- One digit more is accepted if it is a digit and the value stays within the greatest one. -/
theorem appendDigit_eq_some_iff {n m : Nat} {c : Char} :
    appendDigit n c = some m ↔
      c.isDigit = true ∧ 10 * n + (c.toNat - '0'.toNat) = m ∧ m ≤ maximum := by
  unfold appendDigit
  rw [Nat.mul_comm n 10]
  constructor
  · intro h
    split_ifs at h with hdigit
    obtain ⟨tens, htens, hm⟩ := Option.bind_eq_some_iff.1 h
    obtain ⟨rfl, -⟩ := checked_eq_some_iff.1 htens
    obtain ⟨rfl, hle⟩ := checked_eq_some_iff.1 hm
    exact ⟨hdigit, rfl, hle⟩
  · rintro ⟨hdigit, rfl, hle⟩
    -- The place for the digit is no greater than the value with the digit in it.
    have htens : checked (10 * n) = some (10 * n) :=
      checked_eq_some_iff.2 ⟨rfl, Nat.le_trans (Nat.le_add_right _ _) hle⟩
    rw [if_pos hdigit, htens]
    exact checked_eq_some_iff.2 ⟨rfl, hle⟩

/-- More digits never make the value smaller. -/
theorem le_ofDigitChars (cs : List Char) (n : Nat) : n ≤ Nat.ofDigitChars 10 cs n := by
  induction cs generalizing n with
  | nil => exact Nat.le_refl n
  | cons c cs ih =>
    rw [Nat.ofDigitChars_cons]
    exact Nat.le_trans (by omega) (ih _)

/-- A run is accepted if it is all digits and its decimal value is not too great. That no value on
the way is too great need not be asked, since the last value is the greatest. -/
theorem foldlM_appendDigit_eq_some_iff {cs : List Char} {n m : Nat} (hn : n ≤ maximum) :
    cs.foldlM appendDigit n = some m ↔
      (∀ c ∈ cs, c.isDigit = true) ∧ Nat.ofDigitChars 10 cs n = m ∧ m ≤ maximum := by
  induction cs generalizing n with
  | nil =>
    constructor
    · rintro ⟨⟩
      exact ⟨fun c hc => absurd hc List.not_mem_nil, rfl, hn⟩
    · rintro ⟨-, rfl, -⟩
      rfl
  | cons c cs ih =>
    rw [List.foldlM_cons, Option.bind_eq_bind, Option.bind_eq_some_iff, List.forall_mem_cons,
      Nat.ofDigitChars_cons]
    constructor
    · rintro ⟨k, hk, hrest⟩
      obtain ⟨hdigit, rfl, hle⟩ := appendDigit_eq_some_iff.1 hk
      obtain ⟨hdigits, hvalue, hm⟩ := (ih hle).1 hrest
      exact ⟨⟨hdigit, hdigits⟩, hvalue, hm⟩
    · rintro ⟨⟨hdigit, hdigits⟩, hvalue, hm⟩
      -- The value so far is no greater than the whole value.
      have hle : 10 * n + (c.toNat - '0'.toNat) ≤ maximum :=
        Nat.le_trans (le_ofDigitChars cs _) (hvalue ▸ hm)
      exact ⟨_, appendDigit_eq_some_iff.2 ⟨hdigit, rfl, hle⟩, (ih hle).2 ⟨hdigits, hvalue, hm⟩⟩

/-! ## Decoding -/

/-- A text has as many bytes as its encoding. -/
theorem utf8ByteSize_ofList (cs : List Char) :
    (String.ofList cs).utf8ByteSize = (encode cs).length := by
  rw [String.utf8ByteSize, String.toByteArray_ofList, List.utf8Encode, List.size_toByteArray]
  rfl

/-- What a field holds: as many digits as fit in it, one at least, and their decimal value. -/
theorem decode_eq_ok_iff {cs : List Char} {width n : Nat} :
    decode (String.ofList cs) width = .ok n ↔
      cs ≠ [] ∧ (encode cs).length ≤ width ∧ (∀ c ∈ cs, c.isDigit = true) ∧
        Nat.ofDigitChars 10 cs 0 = n ∧ n ≤ maximum := by
  have hfold (m : Nat) : cs.foldlM appendDigit 0 = some m ↔ (∀ c ∈ cs, c.isDigit = true) ∧
      Nat.ofDigitChars 10 cs 0 = m ∧ m ≤ maximum :=
    foldlM_appendDigit_eq_some_iff (Nat.zero_le maximum)
  -- A run of the wrong size is refused before any digit is read.
  have hrefused : ((String.ofList cs).isEmpty ||
      decide (width < (String.ofList cs).utf8ByteSize)) = true ↔
      cs = [] ∨ width < (encode cs).length := by
    rw [utf8ByteSize_ofList]
    simp
  unfold decode
  rw [String.toList_ofList]
  split_ifs with hsize
  · have hor := hrefused.1 hsize
    refine iff_of_false (fun h => by cases h) fun ⟨hne, hle, _⟩ => ?_
    rcases hor with hnil | hlt
    · exact hne hnil
    · omega
  · have hor := not_or.1 (mt hrefused.2 hsize)
    rw [Nat.not_lt] at hor
    cases hvalue : cs.foldlM appendDigit 0 with
    | none =>
      refine iff_of_false (fun h => by cases h) fun ⟨_, _, hdigits, hn, hle⟩ => ?_
      rw [(hfold n).2 ⟨hdigits, hn, hle⟩] at hvalue
      cases hvalue
    | some m =>
      obtain ⟨hdigits, hm, hle⟩ := (hfold m).1 hvalue
      constructor
      · rintro ⟨⟩
        exact ⟨hor.1, hor.2, hdigits, hm, hle⟩
      · rintro ⟨-, -, -, hn, -⟩
        rw [← hm, hn]

/-- Digits are refused exactly if there are too many of them, in fields whose values all fit in 32
bits. -/
theorem decode_digits {cs : List Char} (hne : cs ≠ []) (h : ∀ c ∈ cs, c.isDigit = true)
    {width : Nat} (hwidth : 10 ^ width ≤ maximum) :
    decode (String.ofList cs) width =
      if width < cs.length then .error ⟨String.ofList cs, width⟩
      else .ok (Nat.ofDigitChars 10 cs 0) := by
  split_ifs with hlong
  · unfold decode
    rw [if_pos]
    rw [utf8ByteSize_ofList, length_encode_digits h, decide_eq_true hlong, Bool.or_true]
  · have hle : cs.length ≤ width := Nat.not_lt.1 hlong
    have hvalue := ofDigitChars_zero_lt h hle
    refine decode_eq_ok_iff.2 ⟨hne, ?_, h, rfl, by omega⟩
    rwa [length_encode_digits h]

end LedgerText.Field
