import LedgerText.Proofs.Reading.Placed
import Mathlib.Data.Nat.Find

/-!
# Lines and columns of offsets

The line and column of an offset, told by the bytes of the source alone: lines are counted by the
line feeds before the offset (`lineAt`), and columns from the start of its line (`columnAt`). The
byte-order mark belongs to no line. Both are the line and column of the place behind the bytes
before the offset (`place_eq`), and later offsets are not at earlier lines and columns
(`le_of_offset_le`).
-/

namespace LedgerText.Location

open Utf8

variable {source before lexeme after : Bytes} {offset later : Nat}

/-! ## Definitions -/

/-- The line of an offset: one more than the line feeds before it. -/
def lineAt (source : Bytes) (offset : Nat) : Nat :=
  1 + ((source.take offset).drop (Reader.origin source)).count Byte.lineFeed

/-- Lines start where the source does and behind line feeds. -/
def StartsLine (source : Bytes) (offset : Nat) : Prop :=
  offset = Reader.origin source ∨ 0 < offset ∧ source[offset - 1]? = some Byte.lineFeed

instance (source : Bytes) : DecidablePred (StartsLine source) := fun _ =>
  inferInstanceAs (Decidable (_ ∨ _))

/-- Where the line of an offset starts: the last start of a line up to there. -/
def lineStartAt (source : Bytes) (offset : Nat) : Nat :=
  Nat.findGreatest (StartsLine source) offset

/-- The column of an offset: one more than the bytes before it on its line. -/
def columnAt (source : Bytes) (offset : Nat) : Nat := 1 + (offset - lineStartAt source offset)

/-- The location of a lexeme of `length` bytes at an offset: its columns are counted as if it stood
on one line, and are one at least. -/
def atOffset (source : Bytes) (filename : String) (offset length : Nat) : Location where
  filename
  line := lineAt source offset
  firstColumn := columnAt source offset
  lastColumn := columnAt source offset + max 1 length - 1

/-- A location is on an earlier line than another, or on the same line and in no later column. -/
def NotAfter (l l' : Location) : Prop :=
  l.line < l'.line ∨ l.line = l'.line ∧ l.firstColumn ≤ l'.firstColumn

/-- A location has the line and column of an offset from `start` on. -/
def IsFrom (source : Bytes) (start : Nat) (l : Location) : Prop :=
  ∃ offset, start ≤ offset ∧ offset ≤ source.length ∧
    l.line = lineAt source offset ∧ l.firstColumn = columnAt source offset

/-! ## Lines and columns of places -/

/-- Every start of a line behind `front` is behind its last line feed. -/
theorem lineStartAt_append {mark : Bytes} (hmark : Reader.origin source = mark.length)
    (front : Bytes) : ∀ after, source = mark ++ front ++ after →
      lineStartAt source (mark ++ front).length =
        (mark ++ front).length - Tracker.lastLineLength front := by
  induction front using List.reverseRecOn with
  | nil =>
    intro after _
    rw [List.append_nil, lineStartAt, Nat.findGreatest_eq (.inl hmark.symm)]
    rfl
  | append_singleton front b ih =>
    intro after hsource
    have hinit := ih (b :: after) (by rw [hsource]; simp only [List.append_assoc, List.cons_append,
      List.nil_append])
    have hlength : (mark ++ (front ++ [b])).length = (mark ++ front).length + 1 := by
      rw [← List.append_assoc, List.length_append]
      rfl
    have hbyte : source[(mark ++ front).length]? = some b := by
      rw [hsource, ← List.append_assoc, List.append_assoc (mark ++ front),
        List.getElem?_append_right (Nat.le_refl _), Nat.sub_self]
      rfl
    -- Behind the mark only a line feed makes the next offset the start of a line.
    have hstarts : StartsLine source ((mark ++ front).length + 1) ↔ b = Byte.lineFeed := by
      unfold StartsLine
      rw [Nat.add_sub_cancel, hbyte, hmark, List.length_append]
      constructor
      · rintro (hlen | ⟨-, hb⟩)
        · omega
        · exact Option.some.inj hb
      · rintro rfl
        exact .inr ⟨Nat.succ_pos _, rfl⟩
    rw [lineStartAt, hlength, Nat.findGreatest_succ]
    by_cases hb : b = Byte.lineFeed
    · rw [if_pos (hstarts.2 hb), hb,
        Tracker.lastLineLength_append_of_mem (List.mem_singleton_self _)]
      rfl
    · have hmem : Byte.lineFeed ∉ [b] := fun h => hb (List.mem_singleton.1 h).symm
      rw [if_neg fun h => hb (hstarts.1 h), Tracker.lastLineLength_append_of_notMem hmem]
      show lineStartAt source (mark ++ front).length = _
      rw [hinit, List.length_singleton]
      omega

/-- The column behind bytes is the length of their last line, and one. -/
theorem columnAt_length (horigin : Reader.origin source ≤ before.length)
    (hsource : source = before ++ after) : columnAt source before.length =
      1 + Tracker.lastLineLength (before.drop (Reader.origin source)) := by
  have hmark : Reader.origin source = (before.take (Reader.origin source)).length := by
    rw [List.length_take, Nat.min_eq_left horigin]
  have hstart := lineStartAt_append hmark (before.drop (Reader.origin source)) after
    (by rw [List.take_append_drop, ← hsource])
  have hle := Tracker.lastLineLength_le (before.drop (Reader.origin source))
  rw [List.length_drop] at hle
  rw [List.take_append_drop] at hstart
  rw [columnAt, hstart]
  omega

/-- The line behind bytes is told by their line feeds. -/
theorem lineAt_length (hsource : source = before ++ after) : lineAt source before.length =
    1 + (before.drop (Reader.origin source)).count Byte.lineFeed := by
  rw [lineAt]
  congr 3
  rw [hsource, List.take_left]

/-- In a source whose bytes can be counted a place has the line and column of its offset. -/
theorem place_eq (hsize : source.length < Count.limit)
    (horigin : Reader.origin source ≤ before.length) (hsource : source = before ++ after)
    (filename : String) : Tracker.place filename (before.drop (Reader.origin source)) =
      ⟨filename, lineAt source before.length, columnAt source before.length⟩ := by
  have hlength := congrArg List.length hsource
  rw [List.length_append] at hlength
  have hcount := List.count_le_length (a := Byte.lineFeed) (l := before.drop (Reader.origin source))
  have hlast := Tracker.lastLineLength_le (before.drop (Reader.origin source))
  rw [List.length_drop] at hcount hlast
  rw [lineAt_length hsource, columnAt_length horigin hsource, Tracker.place,
    Count.clamp_of_le (by omega), Count.clamp_of_le (by omega)]

/-- In a source whose bytes can be counted a lexeme behind a place has the location of its
offset. -/
theorem locate_place (hsize : source.length < Count.limit)
    (horigin : Reader.origin source ≤ before.length)
    (hsource : source = before ++ (lexeme ++ after)) (filename : String) :
    (Tracker.place filename (before.drop (Reader.origin source))).locate lexeme =
      atOffset source filename before.length lexeme.length := by
  have hlength := congrArg List.length hsource
  rw [List.length_append, List.length_append] at hlength
  -- The last column is within the source, or right behind it for an empty lexeme.
  have hlast : columnAt source before.length + (max lexeme.length 1 - 1) ≤ Count.limit := by
    unfold columnAt
    omega
  rw [place_eq hsize horigin hsource]
  unfold Tracker.locate spanning atOffset
  rw [Count.clamp_of_le hlast]
  congr 1
  omega

/-! ## Order -/

/-- From an offset to a later one the line feeds between them are counted. -/
theorem lineAt_add (horigin : Reader.origin source ≤ offset) (hlength : offset ≤ source.length)
    (n : Nat) : lineAt source (offset + n) =
      lineAt source offset + ((source.drop offset).take n).count Byte.lineFeed := by
  have hfront : Reader.origin source ≤ (source.take offset).length := by
    rwa [List.length_take, Nat.min_eq_left hlength]
  rw [lineAt, List.take_add, List.drop_append_of_le_length hfront, List.count_append, lineAt,
    Nat.add_assoc]

/-- Later offsets are not at earlier lines and columns. -/
theorem le_of_offset_le (horigin : Reader.origin source ≤ offset) (hlength : offset ≤ source.length)
    (hle : offset ≤ later) :
    lineAt source offset < lineAt source later ∨
      lineAt source offset = lineAt source later ∧
        columnAt source offset ≤ columnAt source later := by
  obtain ⟨n, rfl⟩ := Nat.exists_eq_add_of_le hle
  have hline := lineAt_add horigin hlength n
  have hstarts : StartsLine source (lineStartAt source (offset + n)) :=
    Nat.findGreatest_spec (Nat.le_trans horigin hle) (.inl rfl)
  have hbound : lineStartAt source (offset + n) ≤ offset + n := Nat.findGreatest_le _
  rcases le_or_gt (lineStartAt source (offset + n)) offset with hbefore | hbehind
  · -- No line starts between the offsets, so the columns are counted from one place.
    have hstart : lineStartAt source (offset + n) ≤ lineStartAt source offset :=
      Nat.le_findGreatest hbefore hstarts
    have hcolumn : columnAt source offset ≤ columnAt source (offset + n) := by
      unfold columnAt
      omega
    rcases Nat.eq_zero_or_pos (((source.drop offset).take n).count Byte.lineFeed) with hz | hpos
    · exact .inr ⟨by omega, hcolumn⟩
    · exact .inl (by omega)
  · -- A line starts behind a line feed between the offsets.
    rcases hstarts with horigin' | ⟨-, hbyte⟩
    · omega
    · have hmem : Byte.lineFeed ∈ (source.drop offset).take n := by
        refine List.mem_iff_getElem?.2 ⟨lineStartAt source (offset + n) - 1 - offset, ?_⟩
        rw [List.getElem?_take_of_lt (by omega), List.getElem?_drop,
          Nat.add_sub_cancel' (by omega), hbyte]
      have hpos := List.count_pos_iff.2 hmem
      exact .inl (by omega)

/-- A location at an earlier offset is not after one at a later offset. -/
theorem IsFrom.notAfter {l l' : Location} (h : IsFrom source later l')
    (horigin : Reader.origin source ≤ offset) (hle : offset ≤ later)
    (hline : l.line = lineAt source offset) (hcolumn : l.firstColumn = columnAt source offset) :
    NotAfter l l' := by
  obtain ⟨last, hfrom, hlast, hline', hcolumn'⟩ := h
  have hoffset := Nat.le_trans hle hfrom
  rw [NotAfter, hline, hcolumn, hline', hcolumn']
  exact le_of_offset_le horigin (Nat.le_trans hoffset hlast) hoffset

end LedgerText.Location
