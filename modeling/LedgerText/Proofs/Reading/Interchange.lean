import LedgerText.Proofs.Reading.Onward

/-!
# Interchangeable readings

Of its source a reading looks at no more than what is left, at what it read since the opening quote
of the literal that it is in, and, if it is started again, at what is left from the start. So two
readings that agree on these, and on what they count and write down, can stand for each other
(`Interchangeable`): they come to the same finding and are interchangeable behind it
(`Interchangeable.next`), and they are when both are closed or started again.

Interchangeable readings need not stand at the same offset. Outside a literal it does not matter
what the buffer holds and where the latest literal started, and of the options the name of the
encoding matters only to whoever starts the reading.
-/

namespace LedgerText

namespace Reader

/-- The readers have the same before them, now and from the start of their sources. -/
structure Interchangeable (r r' : Reader) : Prop where
  rest : r'.rest = r.rest
  atLineStart : r'.atLineStart = r.atLineStart
  again : (start r'.source).rest = (start r.source).rest

/-- Nothing stands between an offset and itself. -/
theorem since_pos (r : Reader) : r.since r.pos = [] := by
  rw [since, Cursor.slice, Nat.sub_self, List.take_zero]

/-- Behind a lexeme its bytes are no longer left. -/
theorem rest_after (r : Reader) (m : Move) : (r.after m).rest = r.rest.drop (r.lexeme m).length :=
  List.drop_drop.symm

namespace Interchangeable

variable {r r' : Reader}

/-- Both read the same lexeme. -/
theorem lexeme (h : Interchangeable r r') (m : Move) : r'.lexeme m = r.lexeme m := by
  unfold Reader.lexeme
  rw [h.rest, h.atLineStart]

/-- Both read the same bytes. -/
theorem text (h : Interchangeable r r') (m : Move) : r'.text m = r.text m := by
  rw [Reader.text, Reader.text, h.rest, h.lexeme]

/-- Behind a lexeme both have the same before them. -/
theorem after (h : Interchangeable r r') (m : Move) : Interchangeable (r.after m) (r'.after m) where
  rest := by rw [rest_after, rest_after, h.rest, h.lexeme]
  atLineStart := by
    unfold Reader.after
    rw [h.lexeme, h.atLineStart]
  again := h.again

end Interchangeable

end Reader

namespace Reading

variable {r r' : Reading}

/-- The readings are in literals, of which they read the same so far. -/
structure SameLiteral (r r' : Reading) : Prop where
  buffer : r'.buffer = r.buffer
  location : r'.opening.location = r.opening.location
  offset_le : r.opening.offset ≤ r.reader.pos
  offset_le' : r'.opening.offset ≤ r'.reader.pos
  since : r'.reader.since r'.opening.offset = r.reader.since r.opening.offset

/-- The readings agree on all that their further steps look at. -/
structure Interchangeable (r r' : Reading) : Prop where
  reader : r.reader.Interchangeable r'.reader
  tracker : r'.tracker = r.tracker
  encoding : r'.encoding = r.encoding
  mode : r'.mode = r.mode
  endCount : r'.endCount = r.endCount
  closed : r'.closed = r.closed
  literalCapacity : r'.options.literalCapacity = r.options.literalCapacity
  terminateLastLine : r'.options.terminateLastLine = r.options.terminateLastLine
  /-- The buffers have the same room, whatever they hold. -/
  room : r'.buffer.clear = r.buffer.clear
  literal : r.mode = .literal → SameLiteral r r'

/-- Two steps come to the same finding, or both to none, and leave interchangeable readings. -/
inductive Step.Interchangeable : Step → Step → Prop
  | found {finding : Finding} {r r' : Reading} (h : r.Interchangeable r') :
    Interchangeable (.found finding r) (.found finding r')
  | onward {r r' : Reading} (h : r.Interchangeable r') : Interchangeable (.onward r) (.onward r')

/-- To read on in a literal keeps what was read of it the same. -/
theorem SameLiteral.move (h : SameLiteral r r') (hreader : r.reader.Interchangeable r'.reader)
    (m : Move) : SameLiteral (r.move m) (r'.move m) where
  buffer := h.buffer
  location := h.location
  offset_le := Nat.le_add_right_of_le h.offset_le
  offset_le' := Nat.le_add_right_of_le h.offset_le'
  since := by
    show (r'.reader.after m).since r'.opening.offset = (r.reader.after m).since r.opening.offset
    rw [Reader.since_after h.offset_le', Reader.since_after h.offset_le, h.since, hreader.text]

namespace Interchangeable

/-! ## What a step is made of -/

/-- To read on keeps readings interchangeable. -/
theorem move (h : Interchangeable r r') (m : Move) : Interchangeable (r.move m) (r'.move m) where
  reader := h.reader.after m
  tracker := by
    show r'.tracker.advance (r'.reader.text m) = r.tracker.advance (r.reader.text m)
    rw [h.tracker, h.reader.text]
  encoding := h.encoding
  mode := h.mode
  endCount := h.endCount
  closed := h.closed
  literalCapacity := h.literalCapacity
  terminateLastLine := h.terminateLastLine
  room := h.room
  literal hmode := (h.literal hmode).move h.reader m

/-- To leave for a mode outside literals keeps readings interchangeable. -/
theorem withMode (h : Interchangeable r r') {mode : Mode} (hmode : mode ≠ .literal) :
    Interchangeable { r with mode } { r' with mode } :=
  { h with
    mode := rfl
    literal := fun hliteral => absurd hliteral hmode }

/-- To leave a literal keeps readings interchangeable. -/
theorem leaveLiteral (h : Interchangeable r r') :
    Interchangeable r.leaveLiteral r'.leaveLiteral :=
  { h with
    mode := rfl
    room := congrArg TextBuffer.clear h.room
    literal := Mode.noConfusion }

/-- In a literal both collect the same. -/
theorem collect (h : Interchangeable r r') (hmode : r.mode = .literal)
    (f : TextBuffer → TextBuffer) :
    Interchangeable { r with buffer := f r.buffer } { r' with buffer := f r'.buffer } :=
  have hbuffer : f r'.buffer = f r.buffer := congrArg f (h.literal hmode).buffer
  { h with
    room := congrArg TextBuffer.clear hbuffer
    literal := fun _ => { h.literal hmode with buffer := hbuffer } }

/-- Both signal the end in the same way. -/
theorem endOfInput (h : Interchangeable r r') (location : Location) :
    (r'.endOfInput location).1 = (r.endOfInput location).1 ∧
      Interchangeable (r.endOfInput location).2 (r'.endOfInput location).2 := by
  constructor
  · unfold Reading.endOfInput
    rw [h.endCount, h.terminateLastLine, h.closed]
  · exact
      { h with
        endCount := congrArg (fun n => Count.clamp (n + 1)) h.endCount
        literal := fun hmode => { h.literal hmode with } }

/-- At an opening quote both begin the same literal. -/
theorem openLiteral (h : Interchangeable r r') (location : Location) :
    Interchangeable
      { r.move .text with
        buffer := r.buffer.clear, opening := ⟨r.reader.pos, location⟩, mode := .literal }
      { r'.move .text with
        buffer := r'.buffer.clear, opening := ⟨r'.reader.pos, location⟩, mode := .literal } :=
  { h.move .text with
    mode := rfl
    room := congrArg TextBuffer.clear h.room
    literal := fun _ =>
      { buffer := h.room
        location := rfl
        offset_le := Nat.le_add_right _ _
        offset_le' := Nat.le_add_right _ _
        since := by
          show (r'.reader.after .text).since r'.reader.pos =
            (r.reader.after .text).since r.reader.pos
          rw [Reader.since_after (Nat.le_refl _), Reader.since_after (Nat.le_refl _),
            Reader.since_pos, Reader.since_pos, h.reader.text] } }

/-- At the closing quote both find the same string. -/
theorem literalFinding (h : Interchangeable r r') (hmode : r.mode = .literal) :
    r'.literalFinding = r.literalFinding := by
  have hliteral := h.literal hmode
  unfold Reading.literalFinding
  rw [hliteral.since, hliteral.location, hliteral.buffer, h.tracker, h.encoding]

/-- Where the source ends in a literal both find that it does not end. -/
theorem unterminatedFinding (h : Interchangeable r r') (hmode : r.mode = .literal) :
    r'.unterminatedFinding = r.unterminatedFinding := by
  have hliteral := h.literal hmode
  unfold Reading.unterminatedFinding
  rw [hliteral.since, hliteral.location]

/-! ## Single steps -/

/-- Steps in normal text are interchangeable. -/
theorem stepText (h : Interchangeable r r') : Step.Interchangeable r.stepText r'.stepText := by
  have hnext := h.move .text
  unfold Reading.stepText
  dsimp only
  rw [h.reader.lexeme, h.reader.text, h.tracker]
  generalize Sense.ofLexeme (r.reader.lexeme .text).tag
    (Utf8.toString (r.reader.text .text)) = sense
  cases sense with
  | passedOver => exact .onward hnext
  | endOfInput =>
    obtain ⟨hfinding, hafter⟩ := hnext.endOfInput (r.tracker.locate (r.reader.text .text))
    dsimp only
    rw [hfinding]
    exact .found hafter
  | structural kind | terminal kind args | fault cause => exact .found hnext
  | opensLiteral => exact .onward (h.openLiteral _)
  | unrecognized => exact .found (hnext.withMode (by decide))

/-- Steps in a literal are interchangeable. -/
theorem stepLiteral (h : Interchangeable r r') (hmode : r.mode = .literal) :
    Step.Interchangeable r.stepLiteral r'.stepLiteral := by
  have hnext := h.move .literal
  unfold Reading.stepLiteral
  dsimp only
  rw [h.reader.lexeme, h.reader.text, h.tracker, hnext.literalFinding hmode,
    hnext.unterminatedFinding hmode]
  split
  · exact .onward (hnext.collect hmode (·.append _))
  · exact .onward (hnext.collect hmode (·.push _))
  · split
    · exact .onward (hnext.collect hmode (·.pushChar _))
    · exact .found (hnext.move .skipLiteral).leaveLiteral
  · exact .found hnext.leaveLiteral
  · exact .found hnext.leaveLiteral

/-- Steps of interchangeable readings are interchangeable. -/
theorem step (h : Interchangeable r r') : Step.Interchangeable r.step r'.step := by
  unfold Reading.step
  rw [h.mode]
  cases hmode : r.mode with
  | normal => exact h.stepText
  | literal => exact h.stepLiteral hmode
  | recovery => exact .onward ((h.move .skipLine).withMode (by decide))

/-! ## Findings and starts -/

/-- Interchangeable readings come to the same finding, and are interchangeable behind it. -/
theorem next (h : Interchangeable r r') :
    r'.next.1 = r.next.1 ∧ Interchangeable r.next.2 r'.next.2 := by
  fun_induction Reading.next r generalizing r' with
  | case1 r hclosed =>
    rw [Reading.next, if_pos (h.closed.trans hclosed), h.tracker]
    exact h.endOfInput r.tracker.point
  | case2 r hopen finding after hs =>
    have hstep := h.step
    rw [hs] at hstep
    generalize hs' : r'.step = entry at hstep
    cases hstep with
    | found hafter =>
      rw [next_of_found (h.closed.trans (Bool.eq_false_iff.2 hopen)) hs']
      exact ⟨rfl, hafter⟩
  | case3 r hopen after hs ih =>
    have hstep := h.step
    rw [hs] at hstep
    generalize hs' : r'.step = entry at hstep
    cases hstep with
    | onward hafter =>
      rw [next_of_onward (h.closed.trans (Bool.eq_false_iff.2 hopen)) hs']
      exact ih hafter

/-- To close both keeps readings interchangeable. -/
theorem close (h : Interchangeable r r') : Interchangeable r.close r'.close :=
  have hroom : r'.buffer.clear.release = r.buffer.clear.release := congrArg _ h.room
  { h with
    mode := rfl
    closed := rfl
    room := hroom
    literal := Mode.noConfusion }

/-- Readings that start with the same before them are interchangeable, if the same was chosen for
them but for the encoding. -/
theorem start {source source' : Bytes} {options options' : Options}
    (hrest : (Reader.start source').rest = (Reader.start source).rest)
    (hcapacity : options'.literalCapacity = options.literalCapacity)
    (hlast : options'.terminateLastLine = options.terminateLastLine) (filename encoding : String) :
    Interchangeable (start source options filename encoding)
      (start source' options' filename encoding) where
  reader := ⟨hrest, rfl, hrest⟩
  tracker := rfl
  encoding := rfl
  mode := rfl
  endCount := rfl
  closed := rfl
  literalCapacity := hcapacity
  terminateLastLine := hlast
  room := congrArg (TextBuffer.clear ∘ TextBuffer.ofCapacity) hcapacity
  literal := Mode.noConfusion

/-- To start both again keeps readings interchangeable. -/
theorem restart (h : Interchangeable r r') (filename encoding : String) :
    Interchangeable (r.restart filename encoding) (r'.restart filename encoding) :=
  start h.reader.again h.literalCapacity h.terminateLastLine filename encoding

end Interchangeable

end Reading

end LedgerText
