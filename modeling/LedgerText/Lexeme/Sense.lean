import LedgerText.Builder
import LedgerText.Lexeme.Tag

/-!
# What lexemes of normal text mean

A lexeme of normal text is passed over, is part of the line structure, opens a string literal, ends
the source, asks for the value of a token, or is a fault. Which of these depends on its tag and, for
words, on the word.
-/

namespace LedgerText

/-- What a lexeme of normal text means. -/
inductive Sense where
  /-- Nothing: the lexeme is passed over. -/
  | passedOver
  /-- The source ends. -/
  | endOfInput
  /-- A token of the line structure. -/
  | structural (kind : Kind)
  /-- A string literal starts. -/
  | opensLiteral
  /-- A token whose value is asked for. -/
  | terminal (kind : Kind) (args : Args)
  /-- No token, but reading goes on right after the lexeme. -/
  | fault (fault : Fault)
  /-- No token, and the rest of the line is thrown away. -/
  | unrecognized
deriving DecidableEq

namespace Sense

/-- A word in small letters is a directive or nothing. -/
def ofWord (text : String) : Sense :=
  match Directive.ofWord? text with
  | some d => .terminal (.directive d) (.text text)
  | none => .unrecognized

/-- A date whose fields fit is asked for by its numbers. -/
def ofDate (text : String) : Sense :=
  match Date.decode text with
  | .ok date => .terminal .date (.date date)
  | .error overflow => .fault (.numericOverflow overflow)

/-- Three currencies are words of the language. -/
def ofCurrency (text : String) : Sense :=
  if text = "TRUE" then .terminal .bool (.bool true)
  else if text = "FALSE" then .terminal .bool (.bool false)
  else if text = "NULL" then .terminal .null (.text text)
  else .terminal .currency (.text text)

/-- The name of a tag or a link, without its sign. -/
def nameOf (text : String) : String := String.ofList (text.toList.drop 1)

/-- The character of a flag. -/
def flagOf (text : String) : Char := text.toList.headD '\x00'

/-- What a lexeme of normal text means, by its tag and its text. -/
def ofLexeme (t : Tag) (text : String) : Sense :=
  match t with
  | .blank => .passedOver
  | .endOfFile => .endOfInput
  | .newline => .structural .endOfLine
  | .indent => .structural .indent
  | .comment => .structural .comment
  | .skippedLine => .structural .skipped
  | .openingQuote => .opensLiteral
  | .word => ofWord text
  | .key => .terminal .key (.text text)
  | .number => .terminal .number (.text text)
  | .date => ofDate text
  | .account => .terminal .account (.text text)
  | .currency => ofCurrency text
  | .tag => .terminal .tag (.text (nameOf text))
  | .link => .terminal .link (.text (nameOf text))
  | .flag => .terminal .flag (.flag (flagOf text))
  | .mark m => .terminal (.mark m) (.text text)
  | .invalid | .discarded | .literalText | .escape | .literalLineFeed | .closingQuote =>
    .unrecognized

/-- Only the end of the source means the end of input. -/
theorem ofLexeme_eq_endOfInput {t : Tag} {text : String} (h : ofLexeme t text = .endOfInput) :
    t = .endOfFile := by
  cases t <;> simp [ofLexeme, ofWord, ofDate, ofCurrency] at h ⊢
  · split at h <;> simp at h
  · split at h <;> simp at h
  · split at h
    · simp at h
    · split at h
      · simp at h
      · split at h <;> simp at h

end Sense

end LedgerText
