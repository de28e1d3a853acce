import Lumen.Session
import Lumen.Host
import Lumen.Proofs.Lexing.Numeral
import Lumen.Proofs.Lexing.RoundTrip
import Lumen.Proofs.Lexing.Tiling
import Lumen.Proofs.Reading.Ends
import Lumen.Proofs.Reading.Moves
import Lumen.Proofs.Scoping.Visible
import Lumen.Proofs.Scoping.Bindings
import Lumen.Proofs.Checking.Judged
import Lumen.Proofs.Checking.Static
import Lumen.Proofs.Checking.Fitting
import Lumen.Proofs.Grammar.Spelling
import Lumen.Proofs.Grammar.Loops
import Lumen.Proofs.Reading.ExprSound
import Lumen.Proofs.Reading.Viable
import Lumen.Proofs.Reading.StmtSound
import Lumen.Proofs.Reading.ExprComplete
import Lumen.Proofs.Reading.StmtComplete
import Lumen.Proofs.Reading.StmtViable
import Lumen.Proofs.Reading.Prefix
import Lumen.Proofs.Checking.Follows
import Lumen.Proofs.Checking.Inline
import Lumen.Proofs.Scoping.Frame
import Lumen.Proofs.Scoping.TopLevel
import Lumen.Proofs.Reading.Rereads
import Lumen.Proofs.Checking.Completion
import Lumen.Proofs.Checking.Walks
import Lumen.Proofs.Checking.Whole
import Lumen.Proofs.Reading.Drawn
import Lumen.Proofs.Reading.StmtDrawn
import Lumen.Proofs.Checking.Located
import Lumen.Proofs.Checking.Effects
import Lumen.Proofs.Encoding.Machine
import Lumen.Proofs.Encoding.CodePoints
import Lumen.Proofs.Encoding.Tokens
import Lumen.Proofs.Encoding.Wording
import Lumen.Proofs.Host.Replies
import Lumen.Proofs.Host.Decoding
import Lumen.Proofs.Scoping.Lexical
import Lumen.Proofs.Checking.Stable
import Lumen.Proofs.Session.Invariant
import Lumen.Proofs.Scoping.Agreement
import Lumen.Proofs.Checking.Paired
import Lumen.Proofs.Checking.Culprits
import Lumen.Proofs.Scoping.Sites
import Lumen.Proofs.Scoping.Calls
import Lumen.Proofs.Scoping.Written
import Lumen.Proofs.Encoding.Programs
import Lumen.Proofs.Encoding.FrontEnd
import Lumen.Proofs.Checking.Routes
import Lumen.Proofs.Checking.Unchecked
import Lumen.Proofs.Layout.Erasure
import Lumen.Proofs.Layout.Reading
import Lumen.Proofs.Layout.Statements
import Lumen.Proofs.Numbers.Quotients
import Lumen.Proofs.Numbers.Nearest
import Lumen.Proofs.Numbers.Decimals
import Lumen.Proofs.Lexing.Floats
import Lumen.Proofs.Checking.Mergers
import Lumen.Proofs.Scoping.Replay
import Lumen.Proofs.Lexing.Faults
import Lumen.Proofs.Lexing.Lines
import Lumen.Proofs.Checking.Shadowed
import Lumen.Proofs.Checking.Grouped
import Lumen.Proofs.Reading.Local
import Lumen.Proofs.Reading.StmtLocal
import Lumen.Proofs.Reading.Closings
import Lumen.Proofs.Reading.Values
import Lumen.Proofs.Scoping.Stored
import Lumen.Proofs.Grammar.Spans
import Lumen.Proofs.Grammar.Balance
import Lumen.Proofs.Reading.Spans
import Lumen.Proofs.Reading.StmtSpans
import Lumen.Proofs.Reading.Progress
import Lumen.Proofs.Reading.Recurs
import Lumen.Proofs.Reading.StmtRecurs
import Lumen.Proofs.Reading.Strays
import Lumen.Proofs.Reading.Forward
import Lumen.Proofs.Reading.Compose
import Lumen.Proofs.Reading.Lookahead
import Lumen.Proofs.Checking.Misfits
import Lumen.Proofs.Reading.TypeTexts
import Lumen.Proofs.Scoping.Acts
import Lumen.Proofs.Session.Record
import Lumen.Proofs.Numbers.Constants
import Lumen.Proofs.Access.Tagged
import Lumen.Proofs.Access.Scan
import Lumen.Proofs.Access.Tape
import Lumen.Proofs.Access.Expressions
import Lumen.Proofs.Access.Judgements
import Lumen.Proofs.Access.Runs
import Lumen.Proofs.Access.Statements
import Lumen.Proofs.Access.Safety
