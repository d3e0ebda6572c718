import LedgerText.Mark
import Mathlib.Data.List.Basic

/-!
# Marks and their spellings

A mark is told by its spelling (`spelling_inj`), which is a byte or that byte twice. So the look-ups
by a byte find the mark that is spelled so, if there is one.
-/

namespace LedgerText.Mark

variable {m n : Mark} {b : UInt8}

/-- A spelling finds its own mark. -/
theorem find?_spelling (m : Mark) : all.find? (·.spelling == m.spelling) = some m := by
  cases m <;> rfl

/-- Different marks are spelled differently. -/
theorem spelling_inj (h : m.spelling = n.spelling) : m = n := by
  have hm := find?_spelling m
  rw [h, find?_spelling n] at hm
  exact (Option.some.inj hm).symm

/-- The mark of one byte. -/
theorem ofByte?_eq_some_iff : ofByte? b = some m ↔ m.spelling = [b] := by
  constructor
  · intro h
    have hm := List.find?_some h
    exact eq_of_beq hm
  · intro h
    rw [ofByte?, ← h, find?_spelling]

/-- The mark of two bytes. -/
theorem ofTwice?_eq_some_iff : ofTwice? b = some m ↔ m.spelling = [b, b] := by
  constructor
  · intro h
    have hm := List.find?_some h
    exact eq_of_beq hm
  · intro h
    rw [ofTwice?, ← h, find?_spelling]

/-- A mark is spelled as a byte, or as that byte twice. -/
theorem spelling_eq (h : m.spelling.head? = some b) : m.spelling = [b] ∨ m.spelling = [b, b] := by
  cases m <;> simp_all [spelling]

end LedgerText.Mark
