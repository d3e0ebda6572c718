import LedgerText.Builder
import LedgerText.Token.Flags

/-!
# Findings

A finding is what a token or an error is made of, before any builder is asked: a token of the line
structure, a request for the value of a token, or a fault.
-/

namespace LedgerText

/-- What is found in a source. -/
inductive Finding where
  /-- A token without a value. -/
  | structural (kind : Kind) (text : String) (location : Location) (flags : Flags)
  /-- A token whose value is asked for. -/
  | terminal (request : Request) (text : String) (flags : Flags)
  /-- A fault, and the text to which it is due. -/
  | fault (fault : Fault) (text : String) (location : Location)
deriving DecidableEq

/-- Whether a finding is the end of file. -/
def Finding.isEnd : Finding → Bool
  | .structural kind _ _ _ => kind = .endOfFile
  | _ => false

end LedgerText
