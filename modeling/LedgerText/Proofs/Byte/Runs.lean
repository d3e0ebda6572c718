import LedgerText.Byte
import Mathlib.Data.List.DropRight
import Mathlib.Data.List.TakeWhile

/-!
# Runs of bytes

A run is the longest front part whose bytes are all of one class: what stands in it is of the class
(`of_mem_take_run`), what comes next is not (`headD_drop_run`), and bytes of the class in front of
others lengthen the run of those (`run_append`). The same for the bytes that are left when those of
a class are cut off at the end: they are a front part (`trimEnd_isPrefix`) whose last byte stays
(`getLast_trimEnd`), and no longer front part ends in such a byte (`le_length_trimEnd`).
-/

namespace LedgerText.Byte

variable {p : UInt8 → Bool}

/-! ## The longest front part of a class -/

@[simp]
theorem run_nil (p : UInt8 → Bool) : run p [] = 0 := rfl

/-- A run goes on as long as the bytes are of its class. -/
theorem run_cons (p : UInt8 → Bool) (b : UInt8) (bytes : Bytes) :
    run p (b :: bytes) = if p b then run p bytes + 1 else 0 := by
  unfold run
  rw [List.takeWhile_cons]
  cases p b <;> rfl

/-- A run as a list. -/
theorem take_run (p : UInt8 → Bool) (bytes : Bytes) :
    bytes.take (run p bytes) = bytes.takeWhile p := by
  have h : (bytes.takeWhile p ++ bytes.dropWhile p).take (run p bytes) = bytes.takeWhile p :=
    List.take_left
  rwa [List.takeWhile_append_dropWhile] at h

/-- The bytes of a run are of its class. -/
theorem of_mem_take_run {bytes : Bytes} {b : UInt8} (h : b ∈ bytes.take (run p bytes)) :
    p b = true := by
  rw [take_run] at h
  exact List.mem_takeWhile_imp h

/-- Either a run goes to the end, or the next byte is not of its class. -/
theorem headD_drop_run (p : UInt8 → Bool) (bytes : Bytes) :
    bytes.drop (run p bytes) = [] ∨ p ((bytes.drop (run p bytes)).headD 0) = false := by
  induction bytes with
  | nil => exact .inl rfl
  | cons b bytes ih =>
    rw [run_cons]
    by_cases hb : p b = true
    · rw [if_pos hb, List.drop_succ_cons]
      exact ih
    · rw [if_neg hb]
      exact .inr (Bool.eq_false_iff.2 hb)

/-- Where a class holds all bytes outside ASCII, a run of it stops before a byte of ASCII or at the
end. -/
theorem isNonAscii_headD_drop_run (hp : ∀ b, isNonAscii b = true → p b = true) (bytes : Bytes) :
    isNonAscii ((bytes.drop (run p bytes)).headD 0) = false := by
  rcases headD_drop_run p bytes with h | h
  · rw [h]
    rfl
  · exact Bool.eq_false_iff.2 fun hn => Bool.eq_false_iff.1 h (hp _ hn)

/-- Bytes of a class lengthen the run of what follows them. -/
theorem run_append {front : Bytes} (h : ∀ b ∈ front, p b = true) (rest : Bytes) :
    run p (front ++ rest) = front.length + run p rest := by
  unfold run
  rw [List.takeWhile_append_of_pos h, List.length_append]

/-- A front part of one class lies within the run. -/
theorem le_run {front : Bytes} (h : ∀ b ∈ front, p b = true) (rest : Bytes) :
    front.length ≤ run p (front ++ rest) := by
  rw [run_append h]
  exact Nat.le_add_right _ _

/-- A run is empty where the first byte is not of its class. -/
theorem run_eq_zero {bytes : Bytes} (h : bytes = [] ∨ p (bytes.headD 0) = false) :
    run p bytes = 0 := by
  cases bytes with
  | nil => rfl
  | cons b bytes =>
    have hb : p b = false := by simpa using h
    rw [run_cons, if_neg (Bool.eq_false_iff.1 hb)]

/-! ## What is left when a class is cut off at the end -/

/-- What is left is a front part. -/
theorem trimEnd_isPrefix (p : UInt8 → Bool) (bytes : Bytes) : trimEnd p bytes <+: bytes :=
  List.rdropWhile_prefix p bytes

/-- The last byte that is left is not of the class. -/
theorem getLast_trimEnd {bytes : Bytes} (h : trimEnd p bytes ≠ []) :
    p ((trimEnd p bytes).getLast h) = false :=
  Bool.eq_false_iff.2 (List.rdropWhile_last_not p bytes h)

/-- A front part whose last byte is not of the class is left. -/
theorem le_length_trimEnd {front : Bytes} {b : UInt8} (h : p b = false) (rest : Bytes) :
    (front ++ [b]).length ≤ (trimEnd p (front ++ [b] ++ rest)).length := by
  induction rest using List.reverseRecOn with
  | nil =>
    rw [List.append_nil, show trimEnd p (front ++ [b]) = front ++ [b] from
      List.rdropWhile_concat_neg p front b (Bool.eq_false_iff.1 h)]
  | append_singleton rest c ih =>
    rw [← List.append_assoc]
    by_cases hc : p c = true
    · rwa [show trimEnd p (front ++ [b] ++ rest ++ [c]) = trimEnd p (front ++ [b] ++ rest) from
        List.rdropWhile_concat_pos p _ c hc]
    · rw [show trimEnd p (front ++ [b] ++ rest ++ [c]) = front ++ [b] ++ rest ++ [c] from
        List.rdropWhile_concat_neg p _ c hc]
      simp only [List.length_append]
      omega

end LedgerText.Byte
