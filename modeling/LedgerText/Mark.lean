/-!
# Punctuation marks

The marks of the language, each with its spelling and the name that the grammar has for it.
-/

namespace LedgerText

/-- A punctuation mark. -/
inductive Mark where
  | pipe | atAt | atSign
  | leftCurlCurl | rightCurlCurl | leftCurl | rightCurl
  | comma | tilde | plus | minus | slash
  | leftParen | rightParen | hash | asterisk | colon | equal
deriving DecidableEq

namespace Mark

/-- The marks, in the order in which their codes are given out. -/
def all : List Mark :=
  [pipe, atAt, atSign, leftCurlCurl, rightCurlCurl, leftCurl, rightCurl, comma, tilde, plus, minus,
    slash, leftParen, rightParen, hash, asterisk, colon, equal]

/-- The grammar's name for a mark. -/
def name : Mark → String
  | pipe => "PIPE"
  | atAt => "ATAT"
  | atSign => "AT"
  | leftCurlCurl => "LCURLCURL"
  | rightCurlCurl => "RCURLCURL"
  | leftCurl => "LCURL"
  | rightCurl => "RCURL"
  | comma => "COMMA"
  | tilde => "TILDE"
  | plus => "PLUS"
  | minus => "MINUS"
  | slash => "SLASH"
  | leftParen => "LPAREN"
  | rightParen => "RPAREN"
  | hash => "HASH"
  | asterisk => "ASTERISK"
  | colon => "COLON"
  | equal => "EQUAL"

/-- The bytes of a mark. -/
def spelling : Mark → List UInt8
  | pipe => [0x7C]
  | atAt => [0x40, 0x40]
  | atSign => [0x40]
  | leftCurlCurl => [0x7B, 0x7B]
  | rightCurlCurl => [0x7D, 0x7D]
  | leftCurl => [0x7B]
  | rightCurl => [0x7D]
  | comma => [0x2C]
  | tilde => [0x7E]
  | plus => [0x2B]
  | minus => [0x2D]
  | slash => [0x2F]
  | leftParen => [0x28]
  | rightParen => [0x29]
  | hash => [0x23]
  | asterisk => [0x2A]
  | colon => [0x3A]
  | equal => [0x3D]

/-- The mark of one byte that is spelled `b`. -/
def ofByte? (b : UInt8) : Option Mark := all.find? (·.spelling == [b])

/-- The mark of two bytes that is spelled `b` twice. -/
def ofTwice? (b : UInt8) : Option Mark := all.find? (·.spelling == [b, b])

end Mark

end LedgerText
