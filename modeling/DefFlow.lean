import DefFlow.Command.Flag
import DefFlow.Command.Invocation
import DefFlow.Command.Run
import DefFlow.Compile
import DefFlow.Diagnostic.Basic
import DefFlow.Diagnostic.Code
import DefFlow.Diagnostic.Report
import DefFlow.Editor.Hover
import DefFlow.Editor.Mark
import DefFlow.Editor.NumericHost
import DefFlow.Editor.SemanticToken
import DefFlow.Editor.Session
import DefFlow.Editor.Uri
import DefFlow.Elapsed
import DefFlow.Files
import DefFlow.Flow.Arena
import DefFlow.Flow.Component
import DefFlow.Flow.Edit
import DefFlow.Flow.EditError
import DefFlow.Flow.Flatten
import DefFlow.Flow.Func
import DefFlow.Flow.Instructions
import DefFlow.Flow.Join
import DefFlow.Flow.Leaves
import DefFlow.Flow.Printer
import DefFlow.Flow.Propagation
import DefFlow.Flow.Registry
import DefFlow.Flow.Resolution
import DefFlow.Flow.Split
import DefFlow.Flow.Verify
import DefFlow.Lowering
import DefFlow.Main
import DefFlow.Opcode
import DefFlow.Proofs.Compile.Build
import DefFlow.Proofs.Compile.Reports
import DefFlow.Proofs.Editor.Consult
import DefFlow.Proofs.Editor.Session
import DefFlow.Proofs.Edits.Advance
import DefFlow.Proofs.Edits.Append
import DefFlow.Proofs.Edits.Define
import DefFlow.Proofs.Edits.Drafting
import DefFlow.Proofs.Edits.Flatten
import DefFlow.Proofs.Edits.Phi
import DefFlow.Proofs.Edits.Progress
import DefFlow.Proofs.Edits.Remove
import DefFlow.Proofs.Graph.Confluence
import DefFlow.Proofs.Graph.Marks
import DefFlow.Proofs.Lowering.Completeness
import DefFlow.Proofs.Lowering.Declarations
import DefFlow.Proofs.Lowering.Files
import DefFlow.Proofs.Lowering.Literals
import DefFlow.Proofs.Lowering.Records
import DefFlow.Proofs.Lowering.Survey
import DefFlow.Proofs.Lowering.Walks
import DefFlow.Proofs.Runs.Calls
import DefFlow.Proofs.Resolution.Beside
import DefFlow.Proofs.Resolution.Canon
import DefFlow.Proofs.Resolution.Finest
import DefFlow.Proofs.Resolution.Search
import DefFlow.Proofs.Runs.Halving
import DefFlow.Proofs.Runs.Printed
import DefFlow.Proofs.Runs.Pruning
import DefFlow.Proofs.Runs.Repetition
import DefFlow.Proofs.Registry.Walks
import DefFlow.Proofs.Syntax.Headers
import DefFlow.Proofs.Syntax.Yield
import DefFlow.Proofs.Tree.Cut
import DefFlow.Proofs.Tree.Cycles
import DefFlow.Proofs.Tree.Edge
import DefFlow.Proofs.Tree.Language
import DefFlow.Proofs.Tree.Order
import DefFlow.Proofs.Tree.Simple
import DefFlow.Proofs.Verification.Closing
import DefFlow.Proofs.Verification.Frozen
import DefFlow.Proofs.Verification.Sealed
import DefFlow.Settings.Basic
import DefFlow.Settings.Read
import DefFlow.Syntax.Grammar
import DefFlow.Syntax.Layout
import DefFlow.Syntax.Position
import DefFlow.Syntax.Rule
import DefFlow.Syntax.Shape
import DefFlow.Syntax.Token
import DefFlow.Syntax.Tree
import DefFlow.Text.Base64
import DefFlow.Text.EditDistance
import DefFlow.Text.FixedPlaces
import DefFlow.Text.LowerCase
import DefFlow.Text.Numeral
import DefFlow.Text.Printable
import DefFlow.Text.Quoted
import DefFlow.Text.Utf8
import DefFlow.ValueType
import DefFlow.Version
import DefFlow.Yaml.Cursor
import DefFlow.Yaml.Lexer
import DefFlow.Yaml.Node
import DefFlow.Yaml.Problem
import DefFlow.Yaml.Scalar
import DefFlow.Yaml.Tag
import DefFlow.Yaml.Timestamp
import DefFlow.Yaml.Token
import DefFlow.Yaml.Value
import DefFlow.Proofs.Runs.Terminators
import DefFlow.Proofs.Runs.Caches
import DefFlow.Proofs.Tree.Leaves
import DefFlow.Proofs.Text.EditDistance
import DefFlow.Proofs.Editor.SemanticTokens
import DefFlow.Proofs.Runs.Printing
