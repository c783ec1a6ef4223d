import TierScript.Decimal.Binary64
import TierScript.Decimal.Layout
import TierScript.Decimal.Read
import TierScript.Decimal.Shortest
import TierScript.Host.Loans
import TierScript.Host.Named
import TierScript.Host.Toolbox
import TierScript.Host.Workspace
import TierScript.Json.Decode
import TierScript.Json.Raw
import TierScript.Json.Write
import TierScript.Program.Basic
import TierScript.Program.Calls
import TierScript.Program.Equality
import TierScript.Program.Feed
import TierScript.Program.Operator
import TierScript.Program.Parser
import TierScript.Proofs.Run.Adequacy
import TierScript.Run.Action
import TierScript.Run.Config
import TierScript.Run.Context
import TierScript.Run.Error
import TierScript.Run.Eval
import TierScript.Run.Event
import TierScript.Run.Expression
import TierScript.Run.Machine
import TierScript.Run.Pool
import TierScript.Run.Registry
import TierScript.Run.Stores
import TierScript.Run.Vars
import TierScript.Source.Diagnostic
import TierScript.Source.Fault
import TierScript.Source.Json
import TierScript.Source.Span
import TierScript.Source.Text
import TierScript.Text.Blank
import TierScript.Text.Hidden
import TierScript.Text.Letter
import TierScript.Text.Numeral
import TierScript.Text.Quoted
import TierScript.Text.Ranges
import TierScript.Text.Utf8
import TierScript.Token.Keyword
import TierScript.Token.Kind
import TierScript.Token.Literal
import TierScript.Token.Reader
import TierScript.Token.Scan
import TierScript.Token.Session
import TierScript.Token.Trie
import TierScript.Value.Arith
import TierScript.Value.Basic
import TierScript.Value.Compare
import TierScript.Value.Json
import TierScript.Proofs.Run.Control
import TierScript.Proofs.Run.Stacks
import TierScript.Proofs.Run.Attachment
import TierScript.Proofs.Run.Upkeep
import TierScript.Proofs.Run.Structured
import TierScript.Proofs.Run.Refinement
import TierScript.Proofs.Host.History
import TierScript.Proofs.Host.Caches
import TierScript.Proofs.Program.Grammar
import TierScript.Proofs.Program.Soundness
import TierScript.Proofs.Program.Completeness
import TierScript.Proofs.Token.Keyword
import TierScript.Proofs.Token.Reading
import TierScript.Proofs.Program.Shape
import TierScript.Proofs.Program.Language
import TierScript.Proofs.Token.Pieces
import TierScript.Proofs.Program.Layout
import TierScript.Proofs.Program.Writing
import TierScript.Proofs.Program.RoundTrip
import TierScript.Proofs.Run.Underway
import TierScript.Proofs.Run.Pooling
import TierScript.Proofs.Run.Simulation
import TierScript.Proofs.Run.Unpooled
import TierScript.Proofs.Host.Service
import TierScript.Proofs.Host.Pools
import TierScript.Proofs.Host.Transparency
import TierScript.Proofs.Host.Sharing
import TierScript.Proofs.Token.Cursor
import TierScript.Proofs.Token.Partition
import TierScript.Proofs.Host.Nesting
import TierScript.Proofs.Program.Faults
import TierScript.Proofs.Program.Scopes
import TierScript.Proofs.Host.Confinement
import TierScript.Proofs.Host.Resolution
import TierScript.Proofs.Host.Library
import TierScript.Proofs.Host.Views
import TierScript.Proofs.Host.Evaluations
import TierScript.Proofs.Host.Preparation
import TierScript.Proofs.Host.Isolation
import TierScript.Proofs.Token.Spacing
import TierScript.Proofs.Program.Extents
import TierScript.Proofs.Token.Lines
import TierScript.Proofs.Program.Blame
import TierScript.Proofs.Program.Quoting
import TierScript.Proofs.Host.Racing
import TierScript.Proofs.Run.Memory
import TierScript.Proofs.Program.Places
import TierScript.Proofs.Host.Scoping
import TierScript.Proofs.Host.Copies
import TierScript.Proofs.Host.Learning
import TierScript.Proofs.Host.Keeping
import TierScript.Proofs.Host.Tending
import TierScript.Proofs.Host.Reevaluation
import TierScript.Proofs.Token.Trivia
import TierScript.Proofs.Token.Joining
import TierScript.Proofs.Program.Composition
import TierScript.Proofs.Value.Folding
import TierScript.Proofs.Host.Backing
import TierScript.Proofs.Host.Calling
import TierScript.Proofs.Token.Literals
import TierScript.Proofs.Token.Endings
import TierScript.Proofs.Run.ShortCircuit
import TierScript.Proofs.Host.Registration
import TierScript.Proofs.Run.Unrolling
import TierScript.Proofs.Host.Depth
import TierScript.Proofs.Host.Lending
import TierScript.Proofs.Program.Closers
import TierScript.Proofs.Token.Lookahead
import TierScript.Proofs.Token.Excision
import TierScript.Proofs.Program.Enclosing
import TierScript.Proofs.Value.Numerals
import TierScript.Proofs.Value.Rounding
import TierScript.Proofs.Value.Doubles
import TierScript.Proofs.Value.Ordering
import TierScript.Proofs.Token.Tails
import TierScript.Proofs.Host.Writes
import TierScript.Proofs.Host.Presence
import TierScript.Proofs.Token.Trie
import TierScript.Proofs.Source.Terminators
import TierScript.Proofs.Json.Trees
import TierScript.Proofs.Json.ReadBack
import TierScript.Proofs.Program.Loops
import TierScript.Proofs.Program.Fuel
import TierScript.Proofs.Program.Course
import TierScript.Proofs.Program.Rounds
import TierScript.Proofs.Program.Pushback
