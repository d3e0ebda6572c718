/-!
# Escape sequences of string literals

Inside a string literal a backslash and one character stand for a character. A backslash before a
line feed keeps the line feed. Writing a text escapes the backslash, the quote and the controls that
have a letter, but leaves line feeds as they are, since a literal may span lines.
-/

namespace LedgerText.Escape

/-- The character that a backslash and `c` stand for, if they form an escape sequence. -/
def decode (c : Char) : Option Char :=
  match c with
  | 'n' | '\n' => some '\n'
  | 't' => some '\t'
  | 'r' => some '\r'
  | 'b' => some '\x08'
  | 'f' => some '\x0c'
  | '\\' => some '\\'
  | '"' => some '"'
  | _ => none

/-- How a character is written in the body of a literal. -/
def encodeChar (c : Char) : List Char :=
  match c with
  | '\\' => ['\\', '\\']
  | '"' => ['\\', '"']
  | '\t' => ['\\', 't']
  | '\r' => ['\\', 'r']
  | '\x08' => ['\\', 'b']
  | '\x0c' => ['\\', 'f']
  | c => [c]

/-- The body of a literal, without its quotes, whose contents are the given characters. -/
def encode (contents : List Char) : List Char := contents.flatMap encodeChar

/-- The body of a literal whose contents are the given text. -/
def encodeString (contents : String) : String := String.ofList (encode contents.toList)

end LedgerText.Escape
