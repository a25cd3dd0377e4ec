import Dvilipi.Main
import Dvilipi.Proofs.Grammar.Derivation
import Dvilipi.Proofs.Parser.Steps
import Dvilipi.Proofs.Grammar.Operators
import Dvilipi.Proofs.Parser.Soundness
import Dvilipi.Proofs.Grammar.First
import Dvilipi.Proofs.Grammar.Follow
import Dvilipi.Proofs.Parser.Completeness
import Dvilipi.Proofs.Grammar.Unambiguous
import Dvilipi.Proofs.Parser.Accepts
import Dvilipi.Proofs.Semantics.Rules
import Dvilipi.Proofs.Semantics.Sound
import Dvilipi.Proofs.Semantics.Complete
import Dvilipi.Proofs.Semantics.Visits
import Dvilipi.Proofs.Session.Balance
import Dvilipi.Proofs.Number.Nearest
import Dvilipi.Proofs.Number.ReadsBack
import Dvilipi.Proofs.Print.Text
import Dvilipi.Proofs.Print.Derivation
import Dvilipi.Proofs.Print.Lexing
import Dvilipi.Proofs.Print.RoundTrip
import Dvilipi.Proofs.Text.Place
import Dvilipi.Proofs.Token.Layout
import Dvilipi.Proofs.Token.Partition
import Dvilipi.Proofs.Session.Invariant
import Dvilipi.Proofs.Tree.Every
import Dvilipi.Proofs.Session.Termination
import Dvilipi.Proofs.Token.Seam
import Dvilipi.Proofs.Parser.Join
import Dvilipi.Proofs.Session.Alike
import Dvilipi.Proofs.Session.Chunks
import Dvilipi.Proofs.Parser.Consumed
import Dvilipi.Proofs.Parser.Trees
import Dvilipi.Proofs.Parser.Located
import Dvilipi.Proofs.Session.Errors
import Dvilipi.Proofs.Parser.Locality
import Dvilipi.Proofs.Parser.Ending
import Dvilipi.Proofs.Parser.OnDemand
import Dvilipi.Proofs.Parser.Viable
import Dvilipi.Proofs.Grammar.Alphabet
import Dvilipi.Proofs.Parser.Earliest
import Dvilipi.Proofs.Token.Respelling
import Dvilipi.Proofs.Tree.Types
import Dvilipi.Proofs.Session.Table
import Dvilipi.Proofs.Session.Types
import Dvilipi.Proofs.Grammar.Scripts
import Dvilipi.Proofs.Session.Scripts
import Dvilipi.Proofs.Token.Cursor
import Dvilipi.Proofs.Session.Frame
import Dvilipi.Proofs.Session.Budget
import Dvilipi.Proofs.Session.Overflow
import Dvilipi.Proofs.Token.Shift
import Dvilipi.Proofs.Tree.Shift
import Dvilipi.Proofs.Token.Parentheses
import Dvilipi.Proofs.Tree.Determined
import Dvilipi.Proofs.Parser.Concatenation
import Dvilipi.Proofs.Session.Unseen
import Dvilipi.Proofs.Session.Hidden
import Dvilipi.Proofs.Tree.Pieces
import Dvilipi.Proofs.Tree.Spans
import Dvilipi.Proofs.Parser.Spans
import Dvilipi.Proofs.Semantics.Unique
import Dvilipi.Proofs.Semantics.Begun
import Dvilipi.Proofs.Session.Kept
import Dvilipi.Proofs.Tree.Declarations
import Dvilipi.Proofs.Session.Declarations
import Dvilipi.Proofs.Text.Quoted
import Dvilipi.Proofs.Number.Listed
import Dvilipi.Proofs.Tree.Outline
import Dvilipi.Proofs.Tree.Listing
import Dvilipi.Proofs.Parser.Listing
import Dvilipi.Proofs.Token.Literal
import Dvilipi.Proofs.Session.Nodes
import Dvilipi.Proofs.Session.Missing
import Dvilipi.Proofs.Text.Lines
import Dvilipi.Proofs.Console.Dialogue
import Dvilipi.Proofs.Token.Unreadable
import Dvilipi.Proofs.Parser.Contents
import Dvilipi.Proofs.Token.Spacing
import Dvilipi.Proofs.Parser.Calls
import Dvilipi.Proofs.Session.Unmentioned
import Dvilipi.Proofs.Number.Rounding
import Dvilipi.Proofs.Number.Scientific
import Dvilipi.Proofs.Value.Display
import Dvilipi.Proofs.Number.Numerals
import Dvilipi.Proofs.Token.Numeral
