import LedgerText.Proofs.Reading.Placed

/-!
# Texts without their carriage returns

A text whose lines end in a carriage return and a line feed is compared with the same text in which
they end in a line feed alone (`stripped`). All that is asked of the first is that its carriage
returns stand before line feeds (`ReturnsEndLines`), so that on a line there is one at most, at its
end (`ReturnsEndLines.line_cases`).

Both texts start alike (`origin_stripped`). A place of the first, unless it is between the carriage
return and the line feed of a line's end, has the line and column of the same place of the second
(`trackerBehind_stripped`).
-/

namespace LedgerText

open Utf8

/-! ## Carriage returns -/

/-- Every carriage return stands before a line feed. -/
def ReturnsEndLines (cs : List Char) : Prop :=
  ∀ before after, cs = before ++ '\r' :: after → after.head? = some '\n'

/-- The characters but the carriage returns. -/
def withoutReturns (cs : List Char) : List Char := cs.filter (· != '\r')

/-- The text but its carriage returns. -/
def stripped (text : String) : String := String.ofList (withoutReturns text.toList)

variable {cs front after before : List Char} {c : Char} {text : String}

@[simp]
theorem toList_stripped (text : String) :
    (stripped text).toList = withoutReturns text.toList := String.toList_ofList

@[simp]
theorem withoutReturns_nil : withoutReturns [] = [] := rfl

@[simp]
theorem withoutReturns_append (cs ds : List Char) :
    withoutReturns (cs ++ ds) = withoutReturns cs ++ withoutReturns ds := List.filter_append cs ds

/-- A carriage return is left out. -/
@[simp]
theorem withoutReturns_return (cs : List Char) : withoutReturns ('\r' :: cs) = withoutReturns cs :=
  rfl

/-- Any other character stays. -/
theorem withoutReturns_cons (h : c ≠ '\r') (cs : List Char) :
    withoutReturns (c :: cs) = c :: withoutReturns cs :=
  List.filter_cons_of_pos (bne_iff_ne.2 h)

/-- Where there are no carriage returns, none are left out. -/
theorem withoutReturns_of_notMem (h : '\r' ∉ cs) : withoutReturns cs = cs :=
  List.filter_eq_self.2 fun _ hc => bne_iff_ne.2 fun heq => h (heq ▸ hc)

/-- No carriage return is left. -/
theorem return_notMem_withoutReturns (cs : List Char) : '\r' ∉ withoutReturns cs :=
  fun h => absurd (List.mem_filter.1 h).2 (by decide)

/-- Every other character is left. -/
theorem mem_withoutReturns (h : c ≠ '\r') : c ∈ withoutReturns cs ↔ c ∈ cs := by
  rw [withoutReturns, List.mem_filter, bne_iff_ne, and_iff_left h]

/-- To leave out carriage returns makes no text longer. -/
theorem length_withoutReturns_le (cs : List Char) :
    (encode (withoutReturns cs)).length ≤ (encode cs).length := by
  induction cs with
  | nil => exact Nat.le_refl _
  | cons c cs ih =>
    by_cases hc : c = '\r'
    · subst hc
      exact Nat.le_succ_of_le ih
    · rw [withoutReturns_cons hc, encode_cons, encode_cons, List.length_append, List.length_append]
      exact Nat.add_le_add_left ih _

/-- To leave out a carriage return makes the text shorter. -/
theorem length_stripped_lt (h : '\r' ∈ text.toList) :
    (ofString (stripped text)).length < (ofString text).length := by
  obtain ⟨front, rest, hsplit⟩ := List.append_of_mem h
  have hfront := length_withoutReturns_le front
  have hrest := length_withoutReturns_le rest
  rw [ofString, ofString, toList_stripped, hsplit, withoutReturns_append, withoutReturns_return,
    encode_append, encode_append, encode_cons, List.length_append, List.length_append,
    List.length_append]
  have hreturn : 0 < (String.utf8EncodeChar '\r').length := by decide
  omega

namespace ReturnsEndLines

/-- A character is no carriage return, or a line feed stands behind it. -/
theorem cons_iff : ReturnsEndLines (c :: cs) ↔
    (c = '\r' → cs.head? = some '\n') ∧ ReturnsEndLines cs := by
  constructor
  · intro h
    refine ⟨fun hc => h [] cs (by rw [hc]; rfl), fun before after heq => ?_⟩
    exact h (c :: before) after (by rw [heq]; rfl)
  · rintro ⟨hc, hcs⟩ before after heq
    rcases before with - | ⟨d, before⟩
    · obtain ⟨rfl, rfl⟩ := List.cons.inj heq
      exact hc rfl
    · exact hcs before after (List.cons.inj heq).2

/-- What stands behind the first character keeps the property. -/
theorem tail (h : ReturnsEndLines (c :: cs)) : ReturnsEndLines cs := (cons_iff.1 h).2

/-- Whether carriage returns end lines can be told from left to right. -/
instance decide : DecidablePred ReturnsEndLines
  | [] => isTrue fun before _ h => absurd h (List.append_ne_nil_of_right_ne_nil before
      (List.cons_ne_nil _ _)).symm
  | _ :: cs =>
    have := decide cs
    decidable_of_iff _ cons_iff.symm

/-- What stands behind other characters keeps the property. -/
theorem right (h : ReturnsEndLines (front ++ after)) : ReturnsEndLines after :=
  fun before rest heq => h (front ++ before) rest (by rw [heq, List.append_assoc])

/-- What stands before other characters keeps the property, unless it ends in a carriage return. -/
theorem left (h : ReturnsEndLines (front ++ after)) (hlast : front.getLast? ≠ some '\r') :
    ReturnsEndLines front := by
  rintro before rest rfl
  have hhead := h before (rest ++ after) (by rw [List.append_assoc, List.cons_append])
  rcases rest with - | ⟨d, rest⟩
  · exact absurd List.getLast?_concat hlast
  · exact hhead

/-- A text falls into two parts at the end of a line, or not. -/
theorem append_cases (h : ReturnsEndLines (front ++ after)) : ReturnsEndLines front ∨
    after.head? = some '\n' ∧ ∃ line, front = line ++ ['\r'] ∧ ReturnsEndLines line := by
  by_cases hlast : front.getLast? = some '\r'
  · obtain ⟨line, rfl⟩ := List.getLast?_eq_some_iff.1 hlast
    have hhead := h line after (List.append_assoc _ _ _)
    refine .inr ⟨hhead, line, rfl, ?_⟩
    rw [List.append_assoc] at h
    refine h.left fun hline => ?_
    -- A carriage return is no line feed.
    obtain ⟨cs, rfl⟩ := List.getLast?_eq_some_iff.1 hline
    have hnext := h cs ('\r' :: after) (List.append_assoc _ _ _)
    exact absurd (Option.some.inj hnext) (by decide)
  · exact .inl (h.left hlast)

/-- What stands before other characters keeps the property, if a line feed is not the first of
these. -/
theorem of_append (h : ReturnsEndLines (front ++ after)) (hhead : after.head? ≠ some '\n') :
    ReturnsEndLines front :=
  h.append_cases.resolve_right fun h => hhead h.1

/-- Without line feeds there are no carriage returns. -/
theorem notMem (h : ReturnsEndLines cs) (hline : '\n' ∉ cs) : '\r' ∉ cs := by
  intro hmem
  obtain ⟨before, after, rfl⟩ := List.append_of_mem hmem
  obtain ⟨rest, rfl⟩ := List.head?_eq_some_iff.1 (h before after rfl)
  exact hline (List.mem_append_right _ (List.mem_cons_of_mem _ List.mem_cons_self))

/-- A part of a line holds no carriage return, or one at the end of the line. -/
theorem line_cases (h : ReturnsEndLines (front ++ after)) (hline : '\n' ∉ front) :
    '\r' ∉ front ∨ after.head? = some '\n' ∧ front = withoutReturns front ++ ['\r'] := by
  rcases h.append_cases with hfront | ⟨hhead, line, rfl, hends⟩
  · exact .inl (hfront.notMem hline)
  · have hreturn : '\r' ∉ line := hends.notMem fun hmem => hline (List.mem_append_left _ hmem)
    refine .inr ⟨hhead, ?_⟩
    rw [withoutReturns_append, withoutReturns_of_notMem hreturn, withoutReturns_return,
      withoutReturns_nil, List.append_nil]

/-- The front of a line without its carriage return is at the front of the line. -/
theorem exists_split {line lexeme rest : List Char} (h : ReturnsEndLines (line ++ after))
    (hline : '\n' ∉ line) (hsplit : withoutReturns line = lexeme ++ rest) :
    withoutReturns lexeme = lexeme ∧
      ∃ rest', line = lexeme ++ rest' ∧ withoutReturns rest' = rest := by
  have hnone : '\r' ∉ lexeme ++ rest := hsplit ▸ return_notMem_withoutReturns line
  rw [List.mem_append, not_or] at hnone
  refine ⟨withoutReturns_of_notMem hnone.1, ?_⟩
  rcases h.line_cases hline with hreturn | ⟨-, hreturn⟩
  · rw [withoutReturns_of_notMem hreturn] at hsplit
    exact ⟨rest, hsplit, withoutReturns_of_notMem hnone.2⟩
  · rw [hsplit, List.append_assoc] at hreturn
    refine ⟨rest ++ ['\r'], hreturn, ?_⟩
    rw [withoutReturns_append, withoutReturns_of_notMem hnone.2, withoutReturns_return,
      withoutReturns_nil, List.append_nil]

end ReturnsEndLines

/-! ## The start of a text -/

/-- A text starts with a byte-order mark whether or not it has its carriage returns. -/
theorem head?_withoutReturns (h : ReturnsEndLines cs) :
    (withoutReturns cs).head? = some '\uFEFF' ↔ cs.head? = some '\uFEFF' := by
  rcases cs with - | ⟨c, cs⟩
  · exact Iff.rfl
  by_cases hc : c = '\r'
  · subst hc
    obtain ⟨rest, rfl⟩ := List.head?_eq_some_iff.1 (h [] cs rfl)
    exact ⟨fun hhead => absurd (Option.some.inj hhead) (by decide),
      fun hhead => absurd (Option.some.inj hhead) (by decide)⟩
  · rw [withoutReturns_cons hc]
    exact Iff.rfl

/-- A text without its carriage returns has the same origin. -/
theorem origin_stripped (h : ReturnsEndLines text.toList) :
    Reader.origin (ofString (stripped text)) = Reader.origin (ofString text) := by
  have hmark : startsWithMark (ofString (stripped text)) = startsWithMark (ofString text) := by
    rw [Bool.eq_iff_iff, ofString, ofString, startsWithMark_encode, startsWithMark_encode,
      toList_stripped, head?_withoutReturns h]
  unfold Reader.origin Reader.start Reader.startAt
  rw [hmark]

/-! ## Places -/

/-- To leave out carriage returns leaves all line feeds. -/
theorem count_withoutReturns (cs : List Char) :
    (encode (withoutReturns cs)).count Byte.lineFeed = (encode cs).count Byte.lineFeed := by
  rw [count_encode (d := '\n') (by decide) (by decide),
    count_encode (d := '\n') (by decide) (by decide)]
  exact List.count_filter (by decide)

/-- To leave out carriage returns leaves the last line as long as it was, if it has no carriage
return. -/
theorem lastLineLength_withoutReturns (h : ReturnsEndLines cs) :
    Tracker.lastLineLength (encode (withoutReturns cs)) = Tracker.lastLineLength (encode cs) := by
  -- The induction is on the last character, behind which the last line starts anew or goes on.
  induction cs using List.reverseRecOn with
  | nil => rfl
  | append_singleton cs c ih =>
    have hreturn : c ≠ '\r' := by
      rintro rfl
      exact absurd (h cs [] rfl) (by decide)
    have hsingle : withoutReturns [c] = [c] := withoutReturns_cons hreturn []
    rw [withoutReturns_append, hsingle, encode_append, encode_append]
    by_cases hline : c = '\n'
    · subst hline
      exact (Tracker.lastLineLength_append_lineFeed _ []).trans
        (Tracker.lastLineLength_append_lineFeed _ []).symm
    · have hnotMem : Byte.lineFeed ∉ encode [c] := notMem_encode (by decide) (by decide)
        fun hmem => hline (List.mem_singleton.1 hmem).symm
      have hends : ReturnsEndLines cs := h.left fun hlast => by
        obtain ⟨front, rfl⟩ := List.getLast?_eq_some_iff.1 hlast
        exact hline (Option.some.inj (h front [c] (List.append_assoc _ _ _)))
      rw [Tracker.lastLineLength_append_of_notMem hnotMem,
        Tracker.lastLineLength_append_of_notMem hnotMem, ih hends]

/-- To leave out carriage returns that end lines changes no place. -/
theorem place_withoutReturns (h : ReturnsEndLines cs) (filename : String) :
    Tracker.place filename (encode (withoutReturns cs)) =
      Tracker.place filename (encode cs) := by
  rw [Tracker.place, Tracker.place, count_withoutReturns, lastLineLength_withoutReturns h]

/-- Behind a carriage return the column is one more. -/
theorem place_return (cs : List Char) (filename : String) :
    Tracker.place filename (encode (cs ++ ['\r'])) =
      { Tracker.place filename (encode cs) with
        column := Count.clamp ((Tracker.place filename (encode cs)).column + 1) } := by
  have hreturn : Byte.lineFeed ∉ encode ['\r'] := by decide
  have hlast : Tracker.lastLineLength (encode (cs ++ ['\r'])) =
      Tracker.lastLineLength (encode cs) + 1 := by
    rw [encode_append, Tracker.lastLineLength_append_of_notMem hreturn]
    rfl
  have hcount : (encode (cs ++ ['\r'])).count Byte.lineFeed =
      (encode cs).count Byte.lineFeed := by
    rw [encode_append, List.count_append, List.count_eq_zero_of_not_mem hreturn, Nat.add_zero]
  rw [Tracker.place, hlast, hcount, ← Nat.add_assoc,
    ← Count.clamp_clamp_add (1 + Tracker.lastLineLength (encode cs))]
  rfl

namespace Reading

/-- What stands before a place starts with the byte-order mark, if there is one. -/
theorem exists_mark (h : text.toList = before ++ after)
    (horigin : Reader.origin (ofString text) ≤ (encode before).length) :
    ∃ mark body, before = mark ++ body ∧ '\r' ∉ mark ∧
      ∀ cs, (encode (mark ++ cs)).drop (Reader.origin (ofString text)) = encode cs := by
  have hsize : Reader.origin (ofString text) =
      if startsWithMark (ofString text) then (encode ['\uFEFF']).length else 0 := rfl
  rw [hsize] at horigin ⊢
  by_cases hmark : startsWithMark (ofString text) = true
  · rw [if_pos hmark] at horigin ⊢
    have hhead := startsWithMark_encode.1 hmark
    rcases before with - | ⟨c, before⟩
    · exact absurd horigin (by decide)
    · rw [h] at hhead
      obtain rfl : c = '\uFEFF' := Option.some.inj hhead
      refine ⟨['\uFEFF'], before, rfl, by decide, fun cs => ?_⟩
      rw [encode_append, List.drop_left]
  · rw [if_neg hmark]
    exact ⟨[], before, rfl, List.not_mem_nil, fun cs => rfl⟩

/-- A place that is not between the carriage return and the line feed of a line's end has the same
line and column in the text without its carriage returns. -/
theorem trackerBehind_stripped (h : text.toList = before ++ after)
    (horigin : Reader.origin (ofString text) ≤ (encode before).length)
    (hends : ReturnsEndLines text.toList) (hbefore : ReturnsEndLines before) (filename : String) :
    trackerBehind (stripped text) filename (withoutReturns before) =
      trackerBehind text filename before := by
  obtain ⟨mark, body, rfl, hmark, hdrop⟩ := exists_mark h horigin
  rw [trackerBehind, trackerBehind, origin_stripped hends, withoutReturns_append,
    withoutReturns_of_notMem hmark, hdrop, hdrop, place_withoutReturns hbefore.right]

/-- Between the carriage return and the line feed of a line's end the column is one more than
without the carriage return. -/
theorem trackerBehind_return (h : text.toList = before ++ ['\r'] ++ after)
    (horigin : Reader.origin (ofString text) ≤ (encode (before ++ ['\r'])).length)
    (hends : ReturnsEndLines text.toList) (hbefore : ReturnsEndLines before) (filename : String) :
    trackerBehind text filename (before ++ ['\r']) =
      { trackerBehind (stripped text) filename (withoutReturns before) with
        column := Count.clamp
          ((trackerBehind (stripped text) filename (withoutReturns before)).column + 1) } := by
  obtain ⟨mark, body, hbody, hmark, hdrop⟩ := exists_mark h horigin
  -- The carriage return is not of the mark.
  have hne : body ≠ [] := by
    rintro rfl
    rw [List.append_nil] at hbody
    exact hmark (hbody ▸ List.mem_concat_self)
  obtain ⟨line, c, rfl⟩ := (List.eq_nil_or_concat' body).resolve_left hne
  rw [← List.append_assoc] at hbody
  obtain ⟨rfl, hc⟩ := List.append_inj' hbody rfl
  have hplace : trackerBehind text filename (mark ++ line ++ ['\r']) =
      Tracker.place filename (encode (line ++ ['\r'])) := by
    rw [trackerBehind, List.append_assoc, hdrop]
  have hplace' : trackerBehind (stripped text) filename (withoutReturns (mark ++ line)) =
      Tracker.place filename (encode line) := by
    rw [trackerBehind, origin_stripped hends, withoutReturns_append,
      withoutReturns_of_notMem hmark, hdrop, place_withoutReturns hbefore.right]
  rw [hplace, hplace', place_return]

end Reading

end LedgerText
