import LedgerText.Proofs.Location.Place
import LedgerText.Utf8
import Mathlib.Algebra.Ring.Nat
import Mathlib.Data.List.Forall2

/-!
# Text that is tracked in parts

A tracker is moved on part by part, by the lexemes of normal text and by the pieces of a literal.
Where it comes to depends on the text alone, also where lines or columns have come to their limit
(`advance_parts`). The reason is that a tracker of a file is always at the place behind what it has
gone over (`Reachable.exists_place`), and parts lead on from there to the place behind all of them
(`advanceAll_place`).
-/

namespace LedgerText

namespace Location

/-- A location covers a lexeme of `length` bytes, as far as columns are counted. -/
structure Spans (length : Nat) (l : Location) : Prop where
  lastColumn_eq : l.lastColumn = min (l.firstColumn + max 1 length - 1) (2 ^ 32 - 1)
  firstColumn_le : l.firstColumn ≤ l.lastColumn

end Location

namespace Tracker

open LedgerText.Count

variable {t : Tracker}

/-- The trackers of a file: the one at its start, and with a tracker the one after a lexeme. -/
inductive Reachable : Tracker → Prop where
  | start (filename : String) : Reachable { filename }
  | advance {t : Tracker} (h : Reachable t) (lexeme : Bytes) : Reachable (t.advance lexeme)

/-- The tracker after some parts of the text. -/
def advanceAll (t : Tracker) (parts : List Bytes) : Tracker := parts.foldl advance t

/-- The locations of some parts of the text, each read behind those before it. -/
def locateAll (t : Tracker) : List Bytes → List Location
  | [] => []
  | part :: parts => t.locate part :: (t.advance part).locateAll parts

/-! ## Places -/

/-- A tracker of a file is at the place behind what it has gone over. -/
theorem Reachable.exists_place (h : t.Reachable) :
    ∃ filename before, t = place filename before := by
  induction h with
  | start filename => exact ⟨filename, [], (place_nil filename).symm⟩
  | advance _ lexeme ih =>
    obtain ⟨filename, before, rfl⟩ := ih
    exact ⟨filename, before ++ lexeme, advance_place filename before lexeme⟩

/-- From a place, parts lead to the place behind all of them. -/
theorem advanceAll_place (filename : String) (before : Bytes) (parts : List Bytes) :
    (place filename before).advanceAll parts = place filename (before ++ parts.flatten) := by
  induction parts generalizing before with
  | nil => rw [List.flatten_nil, List.append_nil]; rfl
  | cons part parts ih =>
    calc ((place filename before).advance part).advanceAll parts
      _ = (place filename (before ++ part)).advanceAll parts := by rw [advance_place]
      _ = place filename (before ++ part ++ parts.flatten) := ih (before ++ part)
      _ = place filename (before ++ (part :: parts).flatten) := by
        rw [List.append_assoc, List.flatten_cons]

/-- Nothing leaves a tracker at its place. -/
theorem advance_nil_place (filename : String) (before : Bytes) :
    (place filename before).advance [] = place filename before := by
  rw [advance_place, List.append_nil]

/-- A lexeme at a place covers its columns up to the last that is counted, which is not before the
first. -/
theorem spans_locate_place (filename : String) (before lexeme : Bytes) :
    ((place filename before).locate lexeme).Spans lexeme.length := by
  have hcolumn : (place filename before).column ≤ limit := Nat.min_le_right ..
  have hlast : ((place filename before).locate lexeme).lastColumn =
      min ((place filename before).column + (max lexeme.length 1 - 1)) limit := rfl
  have hlimit : limit = 2 ^ 32 - 1 := rfl
  constructor
  · show _ = min ((place filename before).column + max 1 lexeme.length - 1) (2 ^ 32 - 1)
    omega
  · show (place filename before).column ≤ _
    omega

/-! ## Locations of parts -/

/-- Every part covers its columns. -/
theorem spans_locateAll_place (filename : String) (before : Bytes) (parts : List Bytes) :
    List.Forall₂ (fun part l => l.Spans part.length) parts
      ((place filename before).locateAll parts) := by
  induction parts generalizing before with
  | nil => exact .nil
  | cons part parts ih =>
    have hlater := ih (before ++ part)
    rw [← advance_place] at hlater
    exact .cons (spans_locate_place filename before part) hlater

/-- Empty parts in front are points, and leave the locations of the other parts as they are. -/
theorem locateAll_replicate_nil (filename : String) (before : Bytes) (n : Nat)
    (parts : List Bytes) :
    (place filename before).locateAll (List.replicate n [] ++ parts) =
      List.replicate n (place filename before).point ++ (place filename before).locateAll parts := by
  induction n with
  | zero => rfl
  | succ n ih =>
    rw [List.replicate_succ, List.cons_append, locateAll, advance_nil_place, locate_nil, ih]
    rfl

/-- However a text is cut into parts, a tracker of a file comes to where the whole text leads it.
The first part that is not empty starts where the whole text does. Every part and the whole text
cover their columns, and an empty lexeme is a point and leaves the tracker as it is. -/
theorem advance_parts (h : t.Reachable) (parts : List Bytes) :
    t.advanceAll parts = t.advance parts.flatten ∧
      (∀ n part later, parts = List.replicate n [] ++ part :: later → part ≠ [] →
        ∃ l, (t.locateAll parts)[n]? = some l ∧ l.SameStart (t.locate parts.flatten)) ∧
      List.Forall₂ (fun part l => l.Spans part.length) parts (t.locateAll parts) ∧
      (t.locate parts.flatten).Spans parts.flatten.length ∧
      t.advance [] = t ∧ t.locate [] = t.point := by
  obtain ⟨filename, before, rfl⟩ := h.exists_place
  refine ⟨?_, ?_, spans_locateAll_place filename before parts,
    spans_locate_place filename before parts.flatten, advance_nil_place filename before,
    locate_nil filename before⟩
  · rw [advanceAll_place, advance_place]
  · rintro n part later rfl -
    refine ⟨(place filename before).locate part, ?_, rfl, rfl⟩
    rw [locateAll_replicate_nil, List.getElem?_append_right (by rw [List.length_replicate]),
      List.length_replicate, Nat.sub_self]
    rfl

/-- Behind a line feed and two letters a text is cut within a line, at line feeds and between them,
with nothing in front and in the middle. -/
theorem advance_parts_lines :
    let t := ({ filename := "f" } : Tracker).advance (Utf8.ofString "\nab")
    let parts := [[], Utf8.ofString "c\n", [], Utf8.ofString "\nd", Utf8.ofString "ef"]
    t.Reachable ∧
      t.advanceAll parts = t.advance parts.flatten ∧ t.advanceAll parts = ⟨"f", 4, 4⟩ ∧
      parts = List.replicate 1 [] ++ Utf8.ofString "c\n" :: parts.drop 2 ∧
      Utf8.ofString "c\n" ≠ [] ∧
      (∃ l, (t.locateAll parts)[1]? = some l ∧ l.SameStart (t.locate parts.flatten)) ∧
      List.Forall₂ (fun part l => l.Spans part.length) parts (t.locateAll parts) ∧
      (t.locate parts.flatten).Spans parts.flatten.length ∧
      t.advance [] = t ∧ t.locate [] = t.point := by
  intro t parts
  have hreach : t.Reachable := .advance (.start "f") (Utf8.ofString "\nab")
  have hparts : parts = List.replicate 1 [] ++ Utf8.ofString "c\n" :: parts.drop 2 := rfl
  have hpart : Utf8.ofString "c\n" ≠ [] := by decide
  obtain ⟨hadvance, hstart, hspans, hspan, hnil, hpoint⟩ := advance_parts hreach parts
  exact ⟨hreach, hadvance, by decide, hparts, hpart, hstart 1 _ _ hparts hpart, hspans, hspan, hnil,
    hpoint⟩

end Tracker

end LedgerText
