import LedgerText.Escape
import LedgerText.Finding
import LedgerText.Lexeme.Sense
import LedgerText.Location.Tracker
import LedgerText.Mode
import LedgerText.Options
import LedgerText.Reader
import LedgerText.TextBuffer

/-!
# Readings

A reading goes through a source in steps, some of which come to a finding. It knows of no builder,
so nothing that a builder answers changes how the source is read.

A string literal is read piece by piece in a mode of its own, which a finding always ends. After
input that no rule recognizes, the rest of its line is thrown away by the next step.
-/

namespace LedgerText

/-- The opening quote of a literal. -/
structure Opening where
  /-- How many bytes stand before the quote. -/
  offset : Nat
  /-- Where the quote stands. -/
  location : Location
deriving DecidableEq

/-- How far a source is read. -/
structure Reading where
  /-- What was chosen for the reading. -/
  options : Options
  /-- The place in the source. -/
  reader : Reader
  /-- The line and column of that place. -/
  tracker : Tracker
  /-- The name of the encoding. -/
  encoding : String
  /-- The contents of the literal that is being read. -/
  buffer : TextBuffer
  /-- What is being read. -/
  mode : Mode
  /-- Where the latest literal starts. -/
  opening : Opening
  /-- How often the end of the source was signalled. -/
  endCount : Nat
  /-- Whether the reading was closed, which is as if the source ended. -/
  closed : Bool
deriving DecidableEq

/-- One step of a reading. -/
inductive Step where
  /-- The step comes to a finding. -/
  | found (finding : Finding) (reading : Reading)
  /-- The step leads on to the next. -/
  | onward (reading : Reading)

namespace Reading

/-- A reading from the start of a source. -/
def start (source : Bytes) (options : Options) (filename encoding : String) : Reading where
  options
  reader := .start source
  tracker := { filename }
  encoding
  buffer := .ofCapacity options.literalCapacity
  mode := .initial
  opening := ⟨0, Tracker.point { filename }⟩
  endCount := 0
  closed := false

/-- The reading of the same source from its start. -/
def restart (r : Reading) (filename encoding : String) : Reading :=
  start r.reader.source r.options filename encoding

/-- The reading that finds no more than the end of the source. -/
def close (r : Reading) : Reading :=
  { r with buffer := r.buffer.release, mode := .normal, closed := true }

/-- The reading after the next lexeme. -/
def move (r : Reading) (m : Move) : Reading :=
  { r with reader := r.reader.after m, tracker := r.tracker.advance (r.reader.text m) }

/-- The signal that the source ends. The first one ends the last line, if that was chosen. -/
def endOfInput (r : Reading) (location : Location) : Finding × Reading :=
  let count := Count.clamp (r.endCount + 1)
  -- Only the first signal ends a line, and none after the reading was closed.
  let finding : Finding :=
    if count = 1 && r.options.terminateLastLine && !r.closed then
      .structural .endOfLine "" location { synthetic := true }
    else .structural .endOfFile "" location {}
  (finding, { r with endCount := count })

/-! ## Normal text -/

/-- Reads a lexeme of normal text. -/
def stepText (r : Reading) : Step :=
  let bytes := r.reader.text .text
  let text := Utf8.toString bytes
  let location := r.tracker.locate bytes
  let next := r.move .text
  match Sense.ofLexeme (r.reader.lexeme .text).tag text with
  | .passedOver => .onward next
  | .endOfInput =>
    let (finding, next) := next.endOfInput location
    .found finding next
  | .structural kind => .found (.structural kind text location {}) next
  | .opensLiteral =>
    .onward { next with
      buffer := r.buffer.clear, opening := ⟨r.reader.pos, location⟩, mode := .literal }
  | .terminal kind args => .found (.terminal ⟨kind, text, location, args⟩ text {}) next
  | .fault fault => .found (.fault fault text location) next
  | .unrecognized =>
    .found (.fault (.unrecognizedByte (bytes.headD 0)) text location)
      { next with mode := .recovery }

/-! ## Recovery -/

/-- Throws away the rest of the line. -/
def stepRecovery (r : Reading) : Step := .onward { r.move .skipLine with mode := .normal }

/-! ## String literals -/

/-- The character that an escape sequence escapes; a carriage return and a line feed count as the
line feed. -/
def escapedChar (sequence : Bytes) : Char :=
  if sequence.drop 1 = [Byte.carriageReturn, Byte.lineFeed] then '\n'
  else ((Utf8.decode sequence).drop 1).headD '\x00'

/-- The reading after a literal, in normal text again. -/
def leaveLiteral (r : Reading) : Reading := { r with buffer := r.buffer.clear, mode := .normal }

/-- The finding of a literal whose closing quote was the last byte read. Its columns are counted as
if it stood on one line. -/
def literalFinding (r : Reading) : Finding :=
  let lexeme := r.reader.since r.opening.offset
  let l := r.opening.location
  let lines := r.tracker.line - l.line
  let contents := r.buffer.contents
  .terminal
    { kind := .string
      lexeme := Utf8.toString lexeme
      location := .spanning l.filename l.line l.firstColumn lexeme.length
      args := .string contents lines r.encoding }
    contents { multiLine := 0 < lines }

/-- The finding of a literal in which the source ends. It is located at the opening quote. -/
def unterminatedFinding (r : Reading) : Finding :=
  .fault .unterminatedString (Utf8.toString (r.reader.since r.opening.offset)) r.opening.location

/-- Reads a piece of a string literal. An escape sequence that means nothing is a fault, and the
rest of its literal is thrown away. -/
def stepLiteral (r : Reading) : Step :=
  let bytes := r.reader.text .literal
  let next := r.move .literal
  match (r.reader.lexeme .literal).tag with
  | .literalText => .onward { next with buffer := r.buffer.append bytes }
  | .literalLineFeed => .onward { next with buffer := r.buffer.push Byte.lineFeed }
  | .escape =>
    match Escape.decode (escapedChar bytes) with
    | some c => .onward { next with buffer := r.buffer.pushChar c }
    | none =>
      .found
        (.fault (.invalidEscape (escapedChar bytes)) (Utf8.toString bytes) (r.tracker.locate bytes))
        (next.move .skipLiteral).leaveLiteral
  | .closingQuote => .found next.literalFinding next.leaveLiteral
  | _ => .found next.unterminatedFinding next.leaveLiteral

/-! ## Any mode -/

/-- One step in the mode of the reading. -/
def step (r : Reading) : Step :=
  match r.mode with
  | .normal => r.stepText
  | .literal => r.stepLiteral
  | .recovery => r.stepRecovery

end Reading

end LedgerText
