import Packrat.CommandLine
import Packrat.Elapsed
import Packrat.Fragment
import Packrat.Grammar.Basic
import Packrat.Grammar.Issue
import Packrat.Graph.Analysis
import Packrat.Graph.Basic
import Packrat.Graph.Compile
import Packrat.Graph.Node
import Packrat.Language.Arithmetic
import Packrat.Language.Assembly
import Packrat.Language.Json
import Packrat.Log
import Packrat.Machine.Basic
import Packrat.Machine.Counters
import Packrat.Machine.Event
import Packrat.Machine.Memo
import Packrat.Machine.Pile
import Packrat.Machine.Step
import Packrat.Main
import Packrat.Match
import Packrat.Parse
import Packrat.Pattern.Basic
import Packrat.Pattern.CharSet
import Packrat.Pattern.Error
import Packrat.Pattern.Expr
import Packrat.Pattern.Matching
import Packrat.Pattern.Token
import Packrat.Proofs.Anchoring
import Packrat.Proofs.Arithmetic.Numbers
import Packrat.Proofs.Arithmetic.Phrases
import Packrat.Proofs.Arithmetic.Recognition
import Packrat.Proofs.Arithmetic.Rules
import Packrat.Proofs.Assembly.Lines
import Packrat.Proofs.Assembly.Operands
import Packrat.Proofs.Assembly.Programs
import Packrat.Proofs.Assembly.RoundTrip
import Packrat.Proofs.Assembly.Tokens
import Packrat.Proofs.Blocks
import Packrat.Proofs.Boundary
import Packrat.Proofs.Brackets
import Packrat.Proofs.Captures
import Packrat.Proofs.Compiled
import Packrat.Proofs.Derivation
import Packrat.Proofs.Ends
import Packrat.Proofs.Equations
import Packrat.Proofs.Evidence
import Packrat.Proofs.Factoring
import Packrat.Proofs.Foresight
import Packrat.Proofs.Free
import Packrat.Proofs.Grouping
import Packrat.Proofs.Journal
import Packrat.Proofs.Json.Documents
import Packrat.Proofs.Json.Recognition
import Packrat.Proofs.Json.Rules
import Packrat.Proofs.Json.Tokens
import Packrat.Proofs.Ledger
import Packrat.Proofs.Lexing
import Packrat.Proofs.Lifetime
import Packrat.Proofs.Likeness
import Packrat.Proofs.Lowering
import Packrat.Proofs.Makeup
import Packrat.Proofs.Matching
import Packrat.Proofs.Meaning
import Packrat.Proofs.Memory
import Packrat.Proofs.Mirror
import Packrat.Proofs.Moves
import Packrat.Proofs.Nullability
import Packrat.Proofs.Order
import Packrat.Proofs.Outcomes
import Packrat.Proofs.Outline
import Packrat.Proofs.Passes
import Packrat.Proofs.Positions
import Packrat.Proofs.Reading
import Packrat.Proofs.Recollection
import Packrat.Proofs.References
import Packrat.Proofs.Rendering
import Packrat.Proofs.Renumbering
import Packrat.Proofs.Replay
import Packrat.Proofs.Run
import Packrat.Proofs.Searches
import Packrat.Proofs.Session
import Packrat.Proofs.Showing
import Packrat.Proofs.Shuffle
import Packrat.Proofs.Sight
import Packrat.Proofs.Spans
import Packrat.Proofs.Spellings
import Packrat.Proofs.Stage
import Packrat.Proofs.Standing
import Packrat.Proofs.Stillness
import Packrat.Proofs.Strides
import Packrat.Proofs.Termination
import Packrat.Proofs.Tokens
import Packrat.Proofs.Trace
import Packrat.Proofs.Transparency
import Packrat.Proofs.Traversals
import Packrat.Proofs.Turns
import Packrat.Proofs.Unaided
import Packrat.Proofs.Uniting
import Packrat.Proofs.Verdicts
import Packrat.Proofs.Ways
import Packrat.Proofs.Wiring
import Packrat.Proofs.Wrapper
import Packrat.Reader
import Packrat.Report
import Packrat.Shape
import Packrat.Tag
import Packrat.Text.CombiningMark
import Packrat.Text.DecimalDigit
import Packrat.Text.Place
import Packrat.Text.Position
import Packrat.Text.Quoted
import Packrat.Text.Ranges
import Packrat.Text.Unprintable
import Packrat.Text.WhiteSpace
import Packrat.Text.WordCharacter
import Packrat.Tree.Basic
import Packrat.Tree.Render
import Packrat.Tree.Walk
