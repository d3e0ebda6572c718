import LedgerText.Field
import LedgerText.Location
import LedgerText.Token.Kind

/-!
# Lexical errors

A fault is the cause of a lexical error, and an error is a fault with its place. Errors do not end
the reading of a ledger: each is reported to the builder, and only when the builder refuses the
report does the reading of the token fail.
-/

namespace LedgerText

/-- The cause of a lexical error. -/
inductive Fault where
  /-- No rule matches the input that starts with the byte. -/
  | unrecognizedByte (byte : UInt8)
  /-- The source ends inside a string literal. -/
  | unterminatedString
  /-- A backslash and the character form no escape sequence. -/
  | invalidEscape (escape : Char)
  /-- The builder could not make a value. -/
  | builderFailure (message : String)
  /-- The builder succeeded without a value. -/
  | builderAbsentResult (kind : Kind)
  /-- A field holds too many digits. -/
  | numericOverflow (overflow : Field.Overflow)
deriving DecidableEq

namespace Fault

/-- The two hexadecimal digits of a byte, in small letters. -/
def hex (b : UInt8) : String :=
  String.ofList [Nat.digitChar (b.toNat / 16), Nat.digitChar (b.toNat % 16)]

/-- The fault in words. -/
def message : Fault → String
  | unrecognizedByte byte => "invalid token: unrecognized byte 0x" ++ hex byte
  | unterminatedString => "unterminated string literal"
  | invalidEscape escape =>
    "invalid escape sequence `\\" ++ escape.toString ++ "` in string literal"
  | builderFailure message => message
  | builderAbsentResult kind => "unexpected empty result from builder for " ++ kind.name
  | numericOverflow overflow => overflow.message

end Fault

/-- A lexical error. -/
structure LexicalError where
  /-- What is wrong. -/
  fault : Fault
  /-- The lexeme that is to blame. -/
  location : Location
deriving DecidableEq

namespace LexicalError

/-- The error in words, without its place. -/
def message (e : LexicalError) : String := e.fault.message

/-- The error in words, headed by its place. -/
def display (e : LexicalError) : String := e.location.display ++ ": " ++ e.message

end LexicalError

/-- A lexical error whose report the builder refused. -/
structure RefusedReport where
  /-- The error that was reported. -/
  error : LexicalError
  /-- Why the builder refused it. -/
  reason : String
deriving DecidableEq

/-- The refusal in words. -/
def RefusedReport.message (r : RefusedReport) : String :=
  "failed to report `" ++ r.error.display ++ "`: " ++ r.reason

end LedgerText
