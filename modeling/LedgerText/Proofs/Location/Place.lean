import LedgerText.Location.Tracker
import Mathlib.Data.List.TakeWhile

/-!
# Places in a file

The line and column behind given bytes, and the tracker there: one line more than the bytes hold
line feeds, and one column more than they hold bytes after the last of them (`place`). A tracker
that starts at the place behind some bytes and goes on by others is at the place behind all of them
(`advance_place`), so it does not matter in which pieces a file is read.
-/

namespace LedgerText

/-- Both locations start at the same place of their files. -/
structure Location.SameStart (l l' : Location) : Prop where
  line : l.line = l'.line
  firstColumn : l.firstColumn = l'.firstColumn

namespace Count

/-- Counts below the limit are as they are. -/
theorem clamp_of_le {n : Nat} (h : n ≤ limit) : clamp n = n := Nat.min_eq_left h

/-- Going on from a bounded count is bounding the sum. -/
theorem clamp_clamp_add (m n : Nat) : clamp (clamp m + n) = clamp (m + n) := by
  unfold clamp
  omega

/-- What is counted does not start over. -/
theorem clamp_succ_ne_zero (n : Nat) : clamp (n + 1) ≠ 0 := by
  unfold clamp limit
  omega

end Count

namespace Tracker

open LedgerText.Count

/-- The tracker at the place behind the given bytes of a file. -/
def place (filename : String) (before : Bytes) : Tracker where
  filename
  line := clamp (1 + before.count Byte.lineFeed)
  column := clamp (1 + lastLineLength before)

@[simp]
theorem filename_place (filename : String) (before : Bytes) :
    (place filename before).filename = filename := rfl

/-- A file starts at the place behind nothing. -/
theorem place_nil (filename : String) : place filename [] = { filename } := rfl

/-- A last line is no longer than the bytes. -/
theorem lastLineLength_le (bytes : Bytes) : lastLineLength bytes ≤ bytes.length := by
  rw [lastLineLength, ← bytes.length_reverse]
  exact (List.takeWhile_prefix _).length_le

/-- Behind a line feed the last line is that of the later bytes. -/
theorem lastLineLength_append_of_mem {b : Bytes} (h : Byte.lineFeed ∈ b) (a : Bytes) :
    lastLineLength (a ++ b) = lastLineLength b := by
  have hany : ¬∀ c ∈ b.reverse, (c != Byte.lineFeed) = true := by
    intro hall
    exact absurd (hall _ (List.mem_reverse.2 h)) (by decide)
  unfold lastLineLength
  rw [List.reverse_append, List.takeWhile_append, if_neg]
  intro hlen
  apply hany
  rw [← List.takeWhile_eq_self_iff]
  exact (List.takeWhile_prefix _).eq_of_length hlen

/-- Without a line feed the later bytes lengthen the last line. -/
theorem lastLineLength_append_of_notMem {b : Bytes} (h : Byte.lineFeed ∉ b) (a : Bytes) :
    lastLineLength (a ++ b) = lastLineLength a + b.length := by
  have hall : ∀ c ∈ b.reverse, (c != Byte.lineFeed) = true := by
    intro c hc
    rw [bne_iff_ne]
    rintro rfl
    exact h (List.mem_reverse.1 hc)
  unfold lastLineLength
  rw [List.reverse_append, List.takeWhile_append_of_pos hall, List.length_append,
    List.length_reverse, Nat.add_comm]

/-- A line feed starts a new line. -/
theorem lastLineLength_append_lineFeed (a b : Bytes) :
    lastLineLength (a ++ Byte.lineFeed :: b) = lastLineLength b := by
  rw [lastLineLength_append_of_mem List.mem_cons_self]
  by_cases h : Byte.lineFeed ∈ b
  · exact lastLineLength_append_of_mem h [Byte.lineFeed]
  · have hcons := lastLineLength_append_of_notMem h [Byte.lineFeed]
    have hnil := lastLineLength_append_of_notMem h []
    exact hcons.trans hnil.symm

/-- From the place behind some bytes, other bytes lead to the place behind both. -/
theorem advance_place (filename : String) (a b : Bytes) :
    (place filename a).advance b = place filename (a ++ b) := by
  have hline : clamp (clamp (1 + a.count Byte.lineFeed) + b.count Byte.lineFeed) =
      clamp (1 + (a ++ b).count Byte.lineFeed) := by
    rw [clamp_clamp_add, List.count_append, Nat.add_assoc]
  unfold advance place
  rw [hline]
  congr 1
  split
  · next h =>
    have hmem : Byte.lineFeed ∈ b := List.contains_iff_mem.1 h
    rw [lastLineLength_append_of_mem hmem, Nat.add_comm]
  · next h =>
    have hmem : Byte.lineFeed ∉ b := fun hm => h (List.contains_iff_mem.2 hm)
    rw [clamp_clamp_add, lastLineLength_append_of_notMem hmem, Nat.add_assoc]

/-- A place is a single column. -/
theorem locate_nil (filename : String) (before : Bytes) :
    (place filename before).locate [] = (place filename before).point := by
  have hcolumn : clamp ((place filename before).column + 0) = (place filename before).column :=
    clamp_clamp_add _ 0
  unfold locate point Location.spanning
  rw [show max ([] : Bytes).length 1 - 1 = 0 from rfl, hcolumn]

/-- Up to the limit all lines are counted. -/
theorem line_place {before : Bytes} (h : 1 + before.count Byte.lineFeed ≤ limit)
    (filename : String) : (place filename before).line = 1 + before.count Byte.lineFeed :=
  clamp_of_le h

end Tracker

end LedgerText
