import LedgerText.Proofs.Location.Place
import LedgerText.Proofs.Reader.Safety
import LedgerText.Reading.Next

/-!
# Readings know where they are

A reading of a text stands on a character boundary, and its tracker is at the place behind all that
was read (`Placed`). Every way to read on keeps this (`Placed.move`), whatever lexeme is read, so it
holds after every step and every finding.
-/

namespace LedgerText

namespace Reader

/-- Where the first lexeme of a source starts, behind a byte-order mark. -/
def origin (source : Bytes) : Nat := (start source).pos

/-- Reading on by a lexeme adds its bytes to those that were read. -/
theorem since_after {r : Reader} {n : Nat} (h : n ≤ r.pos) (m : Move) :
    (r.after m).since n = r.since n ++ r.text m := by
  have hpos : (r.after m).pos - n = r.pos - n + (r.lexeme m).length := by
    rw [show (r.after m).pos = r.pos + (r.lexeme m).length from rfl]
    omega
  have hdrop : (r.source.drop n).drop (r.pos - n) = r.rest := by
    rw [List.drop_drop, Nat.add_sub_cancel' h]
    rfl
  calc (r.after m).since n
    _ = (r.source.drop n).take ((r.after m).pos - n) := rfl
    _ = (r.source.drop n).take (r.pos - n) ++
        ((r.source.drop n).drop (r.pos - n)).take (r.lexeme m).length := by
      rw [hpos, List.take_add]
    _ = r.since n ++ r.text m := by
      rw [hdrop]
      rfl

end Reader

namespace Reading

open Utf8

variable {text : String} {r : Reading}

/-- A reading stands on a boundary of the text, behind its origin, and its tracker is at the place
behind what was read. -/
structure Placed (text : String) (r : Reading) : Prop where
  /-- The source is the text. -/
  source : r.reader.source = ofString text
  /-- The next lexeme starts on a boundary. -/
  boundary : IsBoundary r.reader.source r.reader.pos
  /-- No byte-order mark is read. -/
  origin_le : Reader.origin r.reader.source ≤ r.reader.pos
  /-- The tracker is at the place behind what was read. -/
  tracker : r.tracker =
    Tracker.place r.tracker.filename (r.reader.since (Reader.origin r.reader.source))

namespace Placed

/-- Where a reading stands depends on nothing but its reader and its tracker. -/
theorem congr {r' : Reading} (h : Placed text r) (hr : r'.reader = r.reader)
    (ht : r'.tracker = r.tracker) : Placed text r' where
  source := by rw [hr, h.source]
  boundary := by rw [hr]; exact h.boundary
  origin_le := by rw [hr]; exact h.origin_le
  tracker := by rw [hr, ht]; exact h.tracker

/-- A reading starts at the origin. -/
theorem start (text : String) (options : Options) (filename encoding : String) :
    Placed text (start (ofString text) options filename encoding) where
  source := rfl
  boundary := Reader.isBoundary_startAt (IsText.isBoundary_zero ⟨_, rfl⟩)
  origin_le := Nat.le_refl _
  tracker := by
    have hnil : (Reader.start (ofString text)).since (Reader.origin (ofString text)) = [] := by
      rw [Reader.since, Cursor.slice, Reader.origin, Nat.sub_self, List.take_zero]
    exact ((congrArg (Tracker.place filename) hnil).trans (Tracker.place_nil filename)).symm

/-- Reading on keeps a reading placed. -/
theorem move (h : Placed text r) (m : Move) : Placed text (r.move m) where
  source := h.source
  boundary := Reader.isBoundary_after h.boundary m
  origin_le := Nat.le_add_right_of_le h.origin_le
  tracker := by
    have hsince := Reader.since_after h.origin_le m
    have hadvance := Tracker.advance_place r.tracker.filename
      (r.reader.since (Reader.origin r.reader.source)) (r.reader.text m)
    rw [← h.tracker, ← hsince] at hadvance
    exact hadvance

/-- A reading that is started again is at the origin. -/
theorem restart (h : Placed text r) (filename encoding : String) :
    Placed text (r.restart filename encoding) := by
  rw [Reading.restart, h.source]
  exact start text _ _ _

/-- A reading that is closed stays where it is. -/
theorem close (h : Placed text r) : Placed text r.close := h.congr rfl rfl

end Placed

/-! ## Between the characters of a text -/

/-- The tracker at the character behind `before` in a text that starts with these characters. -/
def trackerBehind (text : String) (filename : String) (before : List Char) : Tracker :=
  .place filename ((encode before).drop (Reader.origin (ofString text)))

/-- A reading stands between two parts of a text. -/
structure Between (text : String) (before after : List Char) (r : Reading) : Prop where
  /-- The reading is placed. -/
  placed : Placed text r
  /-- The parts are the text. -/
  split : text.toList = before ++ after
  /-- The reading stands behind the first part. -/
  pos : r.reader.pos = (encode before).length

/-- A placed reading stands between two parts of its text. -/
theorem Placed.exists_between (h : Placed text r) :
    ∃ before after, Between text before after r := by
  obtain ⟨before, after, hsource, hpos⟩ := h.boundary
  rw [h.source] at hsource
  exact ⟨before, after, h, encode_inj.1 hsource, hpos⟩

namespace Between

variable {before front after : List Char}

theorem source (h : Between text before after r) :
    r.reader.source = encode before ++ encode after := by
  rw [h.placed.source, ofString, h.split, encode_append]

/-- The second part is left. -/
theorem rest (h : Between text before after r) : r.reader.rest = encode after := by
  rw [Cursor.rest, h.source, h.pos, List.drop_left]

/-- What was read since the offset of a part of the text is what stands behind that part. -/
theorem since (h : Between text (before ++ front) after r) :
    r.reader.since (encode before).length = encode front := by
  rw [Reader.since, Cursor.slice, h.source, h.pos, encode_append, List.append_assoc, List.drop_left,
    List.length_append, Nat.add_sub_cancel_left, List.take_left]

/-- The tracker is at the character behind the first part. -/
theorem tracker (h : Between text before after r) :
    r.tracker = trackerBehind text r.tracker.filename before := by
  have hsince : r.reader.since (Reader.origin (ofString text)) =
      (encode before).drop (Reader.origin (ofString text)) := by
    have horigin := h.placed.origin_le
    rw [h.placed.source, h.pos] at horigin
    rw [Reader.since, Cursor.slice, h.source, h.pos, List.drop_append_of_le_length horigin,
      List.take_append_of_le_length (by rw [List.length_drop]), List.take_of_length_le]
    rw [List.length_drop]
  have htracker := h.placed.tracker
  rw [h.placed.source, hsince] at htracker
  exact htracker

/-- A lexeme that is as long as the characters at the front moves a reading behind them. -/
theorem move (h : Between text before (front ++ after) r) {m : Move}
    (hlen : (r.reader.lexeme m).length = (encode front).length) :
    Between text (before ++ front) after (r.move m) where
  placed := h.placed.move m
  split := by rw [h.split, List.append_assoc]
  pos := by
    rw [encode_append, List.length_append, ← h.pos, ← hlen]
    rfl

/-- Where nothing is left the source ends. -/
theorem lexeme_endOfFile (h : Between text before [] r) :
    r.reader.lexeme .text = ⟨.endOfFile, 0⟩ := by
  rw [Reader.lexeme, h.rest]
  rfl

/-- To read the end leaves a reading there. -/
theorem move_end (h : Between text before [] r) : Between text before [] (r.move .text) := by
  have hfront : Between text before ([] ++ []) r := h
  have hmove := hfront.move (congrArg Lexeme.length h.lexeme_endOfFile : _ = (encode []).length)
  rwa [List.append_nil] at hmove

/-- Where a reading stands depends on nothing but its reader and its tracker. -/
theorem congr {r' : Reading} (h : Between text before after r) (hr : r'.reader = r.reader)
    (ht : r'.tracker = r.tracker) : Between text before after r' where
  placed := h.placed.congr hr ht
  split := h.split
  pos := by rw [hr, h.pos]

/-- The lines between two places of a text are the line feeds between them, if the lines before them
are not too many to count. -/
theorem line_sub_line {r' : Reading} {later : List Char} (h : Between text before later r)
    (h' : Between text (before ++ front) after r')
    (hlines : 1 + (encode (before ++ front)).count Byte.lineFeed ≤ Count.limit) :
    r'.tracker.line - r.tracker.line = (encode front).count Byte.lineFeed := by
  have horigin := h.placed.origin_le
  rw [h.placed.source, h.pos] at horigin
  have hdrop : (encode (before ++ front)).drop (Reader.origin (ofString text)) =
      (encode before).drop (Reader.origin (ofString text)) ++ encode front := by
    rw [encode_append, List.drop_append_of_le_length horigin]
  -- Leaving out the byte-order mark leaves no more line feeds.
  have hcount : ((encode before).drop (Reader.origin (ofString text))).count Byte.lineFeed ≤
      (encode before).count Byte.lineFeed := (List.drop_sublist _ _).count_le _
  rw [encode_append, List.count_append] at hlines
  rw [h.tracker, h'.tracker, trackerBehind, trackerBehind, hdrop, Tracker.line_place,
    Tracker.line_place, List.count_append]
  · omega
  · omega
  · rw [List.count_append]
    omega

end Between

/-! ## After every step -/

/-- What holds of the reading after a step. -/
def Step.Leaves (P : Reading → Prop) : Step → Prop
  | .found _ r => P r
  | .onward r => P r

/-- A step in normal text keeps a reading placed. -/
theorem Placed.stepText (h : Placed text r) : Step.Leaves (Placed text) r.stepText := by
  have hmove := h.move .text
  unfold Reading.stepText
  dsimp only
  split
  · exact hmove
  · exact hmove.congr rfl rfl
  · exact hmove
  · exact hmove.congr rfl rfl
  · exact hmove
  · exact hmove
  · exact hmove.congr rfl rfl

/-- A step in a string literal keeps a reading placed. -/
theorem Placed.stepLiteral (h : Placed text r) : Step.Leaves (Placed text) r.stepLiteral := by
  have hmove := h.move .literal
  unfold Reading.stepLiteral
  dsimp only
  split
  · exact hmove.congr rfl rfl
  · exact hmove.congr rfl rfl
  · split
    · exact hmove.congr rfl rfl
    · exact (hmove.move .skipLiteral).congr rfl rfl
  · exact hmove.congr rfl rfl
  · exact hmove.congr rfl rfl

/-- Every step keeps a reading placed. -/
theorem Placed.step (h : Placed text r) : Step.Leaves (Placed text) r.step := by
  unfold Reading.step
  split
  · exact h.stepText
  · exact h.stepLiteral
  · exact (h.move .skipLine).congr rfl rfl

/-- The next finding leaves a reading placed. -/
theorem Placed.next (h : Placed text r) : Placed text r.next.2 := by
  fun_induction Reading.next r with
  | case1 r _ => exact h.congr rfl rfl
  | case2 r _ finding after hs =>
    have hstep := h.step
    rwa [hs] at hstep
  | case3 r _ after hs ih =>
    have hstep := h.step
    rw [hs] at hstep
    exact ih hstep

end Reading

end LedgerText
