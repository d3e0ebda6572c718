import LedgerText.Date
import LedgerText.Proofs.Field
import Mathlib.Data.List.TakeWhile

/-!
# Dates and their fields

A date is split at its separators, and each part is decoded as a field of its own, from left to
right (`Date.decode_eq`).
-/

namespace LedgerText.Date

/-- A field ends before the next separator. -/
theorem splitField_append {cs rest : List Char} {s : Char}
    (hcs : ∀ c ∈ cs, isSeparator c = false) (hs : isSeparator s = true) :
    splitField (cs ++ s :: rest) = (String.ofList cs, rest) := by
  have hall : ∀ c ∈ cs, (!isSeparator c) = true := fun c hc => by rw [hcs c hc]; rfl
  rw [splitField, List.takeWhile_append_of_pos hall, List.dropWhile_append_of_pos hall]
  simp [hs]

/-- Without a separator all is one field. -/
theorem splitField_of_notMem {cs : List Char} (hcs : ∀ c ∈ cs, isSeparator c = false) :
    splitField cs = (String.ofList cs, []) := by
  have hall : ∀ c ∈ cs, (!isSeparator c) = true := fun c hc => by rw [hcs c hc]; rfl
  rw [splitField, List.takeWhile_eq_self_iff.2 hall, List.dropWhile_eq_nil_iff.2 hall]
  rfl

/-- A date is decoded by its three fields, from left to right. -/
theorem decode_eq {year month day : List Char} {s t : Char}
    (hyear : ∀ c ∈ year, isSeparator c = false) (hs : isSeparator s = true)
    (hmonth : ∀ c ∈ month, isSeparator c = false) (ht : isSeparator t = true)
    (hday : ∀ c ∈ day, isSeparator c = false) :
    decode (String.ofList (year ++ s :: (month ++ t :: day))) = do
      let y ← Field.decode (String.ofList year) yearWidth
      let m ← Field.decode (String.ofList month) monthDayWidth
      let d ← Field.decode (String.ofList day) monthDayWidth
      return ⟨y, m, d⟩ := by
  unfold decode
  rw [String.toList_ofList, splitField_append hyear hs]
  dsimp only
  rw [splitField_append hmonth ht]
  dsimp only
  rw [splitField_of_notMem hday]

end LedgerText.Date
