import LedgerText.Lexeme.Pattern
import LedgerText.Proofs.Byte.Runs

/-!
# Patterns lie within the bytes
-/

namespace LedgerText.Pattern

open Byte

/-- The whole part of a number, as a list. -/
theorem take_wholeLength (bytes : Bytes) :
    bytes.take (wholeLength bytes) =
      trimEnd (· == comma) (bytes.takeWhile fun b => isDigit b || b == comma) :=
  (List.prefix_iff_eq_take.1
    ((trimEnd_isPrefix _ _).trans (List.takeWhile_prefix _))).symm

/-- The whole part of a number is no longer than the bytes. -/
theorem wholeLength_le (bytes : Bytes) : wholeLength bytes ≤ bytes.length :=
  ((trimEnd_isPrefix _ _).trans (List.takeWhile_prefix _)).length_le

/-- A field of a date is no longer than the bytes. -/
theorem dateFieldLength?_le {bytes : Bytes} {n : Nat} (h : dateFieldLength? bytes = some n) :
    n ≤ bytes.length := by
  cases bytes with
  | nil => simp [dateFieldLength?] at h
  | cons b bytes =>
    rw [dateFieldLength?] at h
    split at h
    · have := run_le isDigit bytes
      simp only [Option.some.injEq] at h
      simp only [List.length_cons]
      omega
    · simp at h

end LedgerText.Pattern
