import LedgerText.Date
import LedgerText.Fault

/-!
# Builders

A builder makes the values of tokens. It is asked for a value for every terminal that is no part of
the line structure, and told of every lexical error. Its answers may depend on all that it was asked
before: a builder is a pair of functions that pass on a state of its own.

A request that fails, or that succeeds without a value, lets no token through; either is a fault of
the lexeme (`construct`).
-/

namespace LedgerText

/-- What a builder is given of a lexeme. -/
inductive Args where
  /-- The lexeme, or the name without its sign for a tag or a link. -/
  | text (text : String)
  | flag (flag : Char)
  | bool (value : Bool)
  | date (date : Date)
  /-- The decoded contents of a string literal, how many line feeds it holds, and the name of the
  encoding. -/
  | string (contents : String) (lines : Nat) (encoding : String)
deriving DecidableEq

/-- A request for the value of a token. -/
structure Request where
  /-- The kind of the token. -/
  kind : Kind
  /-- The lexeme as written, with its quotes for a string literal. -/
  lexeme : String
  /-- Where the lexeme stands. -/
  location : Location
  /-- What the lexeme means. -/
  args : Args
deriving DecidableEq

/-- A builder of values of type `α` with a state of type `σ`. An error is a message. -/
structure Builder (σ α : Type) where
  /-- Answers a request with a value or without one, or fails. -/
  build : Request → σ → Except String (Option α) × σ
  /-- Accepts the report of an error, or refuses it. -/
  report : LexicalError → σ → Except String Unit × σ

namespace Builder

variable {σ α : Type}

/-- The value for a request, or the fault that takes its place. -/
def construct (b : Builder σ α) (request : Request) (st : σ) : Except Fault α × σ :=
  match b.build request st with
  | (.ok (some value), st) => (.ok value, st)
  | (.ok none, st) => (.error (.builderAbsentResult request.kind), st)
  | (.error message, st) => (.error (.builderFailure message), st)

/-! ## Records of what a builder is asked -/

/-- A call to a builder. -/
inductive Call where
  | build (request : Request)
  | report (error : LexicalError)
deriving DecidableEq

/-- The builder that answers as `b` does and keeps a record of its calls. -/
def recording (b : Builder σ α) : Builder (σ × List Call) α where
  build request := fun (st, calls) =>
    let (answer, st) := b.build request st
    (answer, (st, calls ++ [.build request]))
  report error := fun (st, calls) =>
    let (answer, st) := b.report error st
    (answer, (st, calls ++ [.report error]))

end Builder

end LedgerText
