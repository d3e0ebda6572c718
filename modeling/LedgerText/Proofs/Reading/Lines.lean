import LedgerText.Proofs.Reading.Findings

/-!
# Texts of many lines

A reading goes into the next line as if a text started there, but for the line that it counts. So
what is found of two texts with a line feed between them is what is found of each, that of the
second further down (`findings_lines`), unless a literal goes on over the line feed.
-/

namespace LedgerText

open Literal Utf8

/-- Behind a line feed the place is that behind the later bytes alone, as many lines further down as
there are line feeds. -/
theorem Tracker.place_append_lineFeed {a b : Bytes}
    (h : 1 + (a ++ Byte.lineFeed :: b).count Byte.lineFeed ≤ Count.limit) (filename : String) :
    place filename (a ++ Byte.lineFeed :: b) =
      (place filename b).shift (1 + a.count Byte.lineFeed) := by
  have hcount : (a ++ Byte.lineFeed :: b).count Byte.lineFeed =
      a.count Byte.lineFeed + (b.count Byte.lineFeed + 1) := by
    rw [List.count_append, List.count_cons_self]
  have hle : 1 + b.count Byte.lineFeed ≤ Count.limit := by omega
  have hline : Count.clamp (1 + (a ++ Byte.lineFeed :: b).count Byte.lineFeed) =
      Count.clamp (1 + b.count Byte.lineFeed) + (1 + a.count Byte.lineFeed) := by
    rw [Count.clamp_of_le h, Count.clamp_of_le hle]
    omega
  rw [place, hline, lastLineLength_append_lineFeed]
  rfl

namespace Reading

variable {text text' : String} {later before after : List Char} {options : Options}
  {filename encoding : String}

/-! ## Where a text starts -/

/-- A text that goes on by a line feed has the same origin. -/
theorem origin_lineFeed (h : text'.toList = text.toList ++ '\n' :: later) :
    Reader.origin (ofString text') = Reader.origin (ofString text) := by
  have hhead : text'.toList.head? = some '\uFEFF' ↔ text.toList.head? = some '\uFEFF' := by
    rw [h]
    cases text.toList with
    | nil => simp
    | cons c cs => rfl
  have hmark : startsWithMark (ofString text') = startsWithMark (ofString text) := by
    rw [Bool.eq_iff_iff, ofString, ofString, startsWithMark_encode, startsWithMark_encode, hhead]
  unfold Reader.origin Reader.start Reader.startAt
  rw [hmark]

/-- A reading starts at the front of a text, or behind its byte-order mark. -/
theorem exists_between_start (text : String) (options : Options) (filename encoding : String) :
    ∃ before after, Between text before after (start (ofString text) options filename encoding) ∧
      '\n' ∉ before ∧ (text.toList.head? ≠ some '\uFEFF' → before = []) := by
  have hplaced := Placed.start text options filename encoding
  have hpos : (start (ofString text) options filename encoding).reader.pos =
      if startsWithMark (ofString text) then 3 else 0 := rfl
  by_cases hmark : startsWithMark (ofString text) = true
  · have hhead := startsWithMark_encode.1 hmark
    obtain ⟨cs, hcs⟩ := List.head?_eq_some_iff.1 hhead
    refine ⟨['\uFEFF'], cs, ⟨hplaced, hcs, ?_⟩, by decide, fun hne => absurd hhead hne⟩
    rw [hpos, if_pos hmark]
    rfl
  · refine ⟨[], text.toList, ⟨hplaced, rfl, ?_⟩, List.not_mem_nil, fun _ => rfl⟩
    rw [hpos, if_neg hmark]
    rfl

/-! ## Into the next line -/

/-- At the start a text leads every text that goes on behind it by a line feed. -/
theorem leads_start (h : text'.toList = text.toList ++ '\n' :: later)
    (hsize : (ofString text').length ≤ Count.limit) (hoptions : options.terminateLastLine = true)
    (hbetween : Between text before after (start (ofString text) options filename encoding)) :
    Leads text text' 0 ('\n' :: later) before before after
      (start (ofString text) options filename encoding)
      (start (ofString text') options filename encoding) where
  left := hbetween
  right :=
    { placed := .start text' options filename encoding
      split := by rw [h, hbetween.split, List.append_assoc]
      pos := (origin_lineFeed h).trans hbetween.pos }
  ext := .inr ⟨later, rfl⟩
  size := by
    rw [ofString, h, encode_append, List.length_append] at hsize
    exact Nat.le_of_add_right_le hsize
  size' := hsize
  tracker front back _ := by
    rw [trackerBehind, trackerBehind, origin_lineFeed h]
    rfl
  goesOn := .start ..
  atLineStart := rfl
  notLiteral := Mode.noConfusion
  opened := rfl
  fresh := rfl
  terminates := hoptions

/-- Behind a line feed that ends the line of a text, another text leads on as it does alone, as many
lines further down as there are line feeds. -/
theorem leads_lineFeed {first : String} {r : Reading}
    (h : text'.toList = first.toList ++ '\n' :: text.toList)
    (hsize : (ofString text').length < Count.limit) (hoptions : options.terminateLastLine = true)
    (hmark : text.toList.head? ≠ some '\uFEFF')
    (hright : Between text' (first.toList ++ ['\n']) text.toList r)
    (hgoes : GoesOn (start (ofString text) options filename encoding) r)
    (hstart : r.reader.atLineStart = true) :
    Leads text text' (1 + first.toList.count '\n') [] [] (first.toList ++ ['\n']) text.toList
      (start (ofString text) options filename encoding) r := by
  obtain ⟨mark, inside, hfirst, hnoLine, -⟩ :=
    exists_between_start first options filename encoding
  obtain ⟨before, after, hbetween, -, hnil⟩ :=
    exists_between_start text options filename encoding
  obtain rfl := hnil hmark
  obtain rfl : text.toList = after := hbetween.split
  have horigin : Reader.origin (ofString text') = (encode mark).length :=
    (origin_lineFeed h).trans hfirst.pos
  have horigin' : Reader.origin (ofString text) = 0 := hbetween.pos
  have hsplit := hfirst.split
  have hlength : (ofString text').length = (encode mark).length + ((encode inside).length +
      (1 + (encode text.toList).length)) := by
    rw [ofString, h, hsplit, encode_append, encode_append, encode_cons]
    simp only [List.length_append, Nat.add_assoc]
    rfl
  -- The byte-order mark of the first text is on no line, and the rest of it on those before.
  have hlines : first.toList.count '\n' = (encode inside).count Byte.lineFeed := by
    rw [count_encode (d := '\n') (by decide) (by decide), hsplit, List.count_append,
      List.count_eq_zero_of_not_mem hnoLine, Nat.zero_add]
  have hbehind (front : List Char) :
      (encode (first.toList ++ ['\n'] ++ front)).drop (Reader.origin (ofString text')) =
        encode inside ++ Byte.lineFeed :: encode front := by
    rw [hsplit, horigin]
    simp only [List.append_assoc, encode_append, List.drop_left]
    rfl
  exact
    { left := hbetween
      right := by rwa [List.append_nil]
      ext := .inl rfl
      size := by
        rw [ofString]
        omega
      size' := Nat.le_of_lt hsize
      tracker := fun front back heq => by
        have hcount := List.count_le_length (a := Byte.lineFeed)
          (l := encode inside ++ Byte.lineFeed :: encode front)
        have hfront := congrArg (fun cs => (encode cs).length) heq
        simp only [encode_append, List.length_append] at hfront
        rw [List.length_append, List.length_cons] at hcount
        rw [trackerBehind, trackerBehind, hbehind, horigin', List.drop_zero, List.nil_append,
          hlines]
        exact Tracker.place_append_lineFeed (by omega) _
      goesOn := hgoes
      atLineStart := hstart
      notLiteral := Mode.noConfusion
      opened := rfl
      fresh := rfl
      terminates := hoptions }

/-- If a line feed behind the first of two texts is found to be the end of a line, then what is
found of the texts with the line feed between them is what is found of each: of the first without
the end of file and with the end of its last line written, and of the second further down. -/
theorem findings_lines {first second : String} (hmark : second.toList.head? ≠ some '\uFEFF')
    (hoptions : options.terminateLastLine = true)
    (hsize : (ofString (first ++ "\n" ++ second)).length < Count.limit)
    (hline : ∃ finding ∈ (start (ofString (first ++ "\n")) options filename encoding).findings,
      finding.endsLine = true ∧ first.toList.count '\n' < finding.location.line) :
    ∃ fs location,
      (start (ofString first) options filename encoding).findings =
        fs ++ [.structural .endOfLine "" location { synthetic := true },
          .structural .endOfFile "" location {}] ∧
      (start (ofString (first ++ "\n" ++ second)) options filename encoding).findings =
        fs ++ .structural .endOfLine "\n" location {} ::
          (start (ofString second) options filename encoding).findings.map
            (Finding.shift (1 + first.toList.count '\n')) := by
  have hended : (first ++ "\n").toList = first.toList ++ '\n' :: [] := by
    rw [String.toList_append]
    rfl
  have hboth : (first ++ "\n" ++ second).toList = first.toList ++ '\n' :: second.toList := by
    rw [String.toList_append, hended, List.append_assoc]
    rfl
  have hsize' : (ofString (first ++ "\n")).length ≤ Count.limit := by
    rw [ofString, String.toList_append, encode_append, List.length_append] at hsize
    exact Nat.le_of_add_right_le (Nat.le_of_lt hsize)
  obtain ⟨before, after, hbetween, -, -⟩ := exists_between_start first options filename encoding
  obtain ⟨fs, location, r, hfirst, hfound, hstop, hgoes, hstart⟩ := exists_findings_lineFeed
    (leads_start hended hsize' hoptions hbetween)
    (leads_start hboth (Nat.le_of_lt hsize) hoptions hbetween) hline
  rw [← hbetween.split] at hstop
  have hgoes' : GoesOn (start (ofString second) options filename encoding) r :=
    ⟨hgoes.options, hgoes.encoding, hgoes.mode, hgoes.endCount, hgoes.closed, hgoes.filename⟩
  have hlead := leads_lineFeed hboth hsize hoptions hmark hstop hgoes' hstart
  exact ⟨fs, location, hfirst, by rw [hfound, hlead.findings_eq]⟩

end Reading

end LedgerText
