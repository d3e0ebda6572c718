import LedgerText.Builder.Scripted
import LedgerText.Cursor
import LedgerText.Reader.Walk
import LedgerText.Scanner.Session
import LedgerText.Tokenize
import LedgerText.Proofs.Utf8.Boundary
import LedgerText.Proofs.Utf8.Ascii
import LedgerText.Proofs.Byte.Runs
import LedgerText.Proofs.TextBuffer
import LedgerText.Proofs.Lexeme.Boundary
import LedgerText.Proofs.Lexeme.Sentinel
import LedgerText.Proofs.Reader.Safety
import LedgerText.Proofs.Grammar
import LedgerText.Proofs.Grammar.Reach
import LedgerText.Proofs.Grammar.Opening
import LedgerText.Proofs.Grammar.Longest
import LedgerText.Proofs.Grammar.LineEnd
import LedgerText.Proofs.Location.Place
import LedgerText.Proofs.Location.Parts
import LedgerText.Proofs.Location.Offset
import LedgerText.Proofs.Reading.Placed
import LedgerText.Proofs.Scanner.Reachable
import LedgerText.Proofs.Literal
import LedgerText.Proofs.Field
import LedgerText.Proofs.Date
import LedgerText.Proofs.Date.Written
import LedgerText.Proofs.Field.Decimal
import LedgerText.Proofs.Lexeme.Denotes
import LedgerText.Proofs.Literal.Lexeme
import LedgerText.Proofs.Literal.Reading
import LedgerText.Proofs.Literal.Finding
import LedgerText.Proofs.Scanner.Call
import LedgerText.Proofs.Literal.Scanner
import LedgerText.Proofs.Scanner.End
import LedgerText.Proofs.Literal.RoundTrip
import LedgerText.Proofs.Reading.Lexeme
import LedgerText.Proofs.Reading.Finds
import LedgerText.Proofs.Reading.Leads
import LedgerText.Proofs.Reading.Findings
import LedgerText.Proofs.Reading.Lines
import LedgerText.Proofs.Scanner.Outcome
import LedgerText.Proofs.Reading.Found
import LedgerText.Proofs.Scanner.Tiling
import LedgerText.Proofs.Scanner.Located
import LedgerText.Proofs.Scanner.Twins
import LedgerText.Proofs.Scanner.History
import LedgerText.Proofs.Scanner.Exchange
import LedgerText.Proofs.Scanner.Lifecycle
import LedgerText.Proofs.Scanner.Requests
import LedgerText.Proofs.Scanner.Uniform
import LedgerText.Proofs.Scanner.Lines
import LedgerText.Proofs.Returns.Text
import LedgerText.Proofs.Returns.Lexeme
import LedgerText.Proofs.Returns.Literal
import LedgerText.Proofs.Returns.Parallel
import LedgerText.Proofs.Returns.Reading
import LedgerText.Proofs.Returns.Scanner
import LedgerText.Proofs.Literal.Discard
import LedgerText.Proofs.Reading.Steps
import LedgerText.Proofs.Scanner.Bound
import LedgerText.Proofs.Reading.Lexes
import LedgerText.Proofs.Scanner.Recovery
import LedgerText.Proofs.Scanner.LineShape
import LedgerText.Proofs.Reading.Interchange
import LedgerText.Proofs.Scanner.Trace
import LedgerText.Proofs.Scanner.Idle
import LedgerText.Proofs.Scanner.ByteOrderMark
import LedgerText.Proofs.Scanner.Restart
import LedgerText.Proofs.Scanner.Dates
