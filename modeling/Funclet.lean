import Funclet.Ast
import Funclet.Ast.Dump
import Funclet.Cli.Options
import Funclet.Cli.Outcome
import Funclet.Cli.Run
import Funclet.Code
import Funclet.Code.Assembler
import Funclet.Code.Dump
import Funclet.Code.Emitter
import Funclet.Code.Listing
import Funclet.Compiler
import Funclet.Decimal.Layout
import Funclet.Decimal.Reading
import Funclet.Decimal.Shortest
import Funclet.Diagnostic
import Funclet.Diagnostic.Dump
import Funclet.Event
import Funclet.FileTree
import Funclet.Grammar.Expression
import Funclet.Grammar.Function
import Funclet.Grammar.State
import Funclet.Grammar.Statement
import Funclet.Json
import Funclet.Json.Codec
import Funclet.Json.Reading
import Funclet.Lowering.Emission
import Funclet.Lowering.Expression
import Funclet.Lowering.Function
import Funclet.Lowering.Statement
import Funclet.Machine
import Funclet.Main
import Funclet.Operators
import Funclet.OrderedMap
import Funclet.Pos
import Funclet.Registry
import Funclet.Scopes
import Funclet.Session
import Funclet.Settings
import Funclet.Settings.File
import Funclet.Text.Printable
import Funclet.Text.Quoted
import Funclet.Token
import Funclet.Token.Scan
import Funclet.Proofs.Accepted
import Funclet.Proofs.Admission
import Funclet.Proofs.ClosedRegions
import Funclet.Proofs.Coherence
import Funclet.Proofs.Correctness
import Funclet.Proofs.Declarations
import Funclet.Proofs.Evaluation
import Funclet.Proofs.FileTree
import Funclet.Proofs.Histories
import Funclet.Proofs.Increments
import Funclet.Proofs.Json.Libraries
import Funclet.Proofs.Json.Strings
import Funclet.Proofs.Json.Texts
import Funclet.Proofs.Linking
import Funclet.Proofs.Listing.Faithful
import Funclet.Proofs.Listing.Lines
import Funclet.Proofs.Listing.Names
import Funclet.Proofs.Listing.Numbers
import Funclet.Proofs.Listing.Texts
import Funclet.Proofs.Lowering.Building
import Funclet.Proofs.Lowering.Calls
import Funclet.Proofs.Lowering.Code
import Funclet.Proofs.Lowering.Decisions
import Funclet.Proofs.Lowering.Drafts
import Funclet.Proofs.Lowering.Effects
import Funclet.Proofs.Lowering.ExpressionCode
import Funclet.Proofs.Lowering.Finished
import Funclet.Proofs.Lowering.Frame
import Funclet.Proofs.Lowering.FunctionCode
import Funclet.Proofs.Lowering.Mirroring
import Funclet.Proofs.Lowering.Occurrences
import Funclet.Proofs.Lowering.Operations
import Funclet.Proofs.Lowering.Operators
import Funclet.Proofs.Lowering.Outcome
import Funclet.Proofs.Lowering.Positions
import Funclet.Proofs.Lowering.Recording
import Funclet.Proofs.Lowering.StatementCode
import Funclet.Proofs.Lowering.WellFormed
import Funclet.Proofs.Lowering.Writing
import Funclet.Proofs.Machine.Budgets
import Funclet.Proofs.Machine.Costs
import Funclet.Proofs.Machine.Halting
import Funclet.Proofs.Machine.Renumbering
import Funclet.Proofs.Machine.Running
import Funclet.Proofs.Machine.Stack
import Funclet.Proofs.Moments
import Funclet.Proofs.Numbers
import Funclet.Proofs.OperatorTable
import Funclet.Proofs.OrderedMap
import Funclet.Proofs.Positions
import Funclet.Proofs.Reading.Acceptance
import Funclet.Proofs.Reading.Attempts
import Funclet.Proofs.Reading.Changes
import Funclet.Proofs.Reading.Climbing
import Funclet.Proofs.Reading.Completeness
import Funclet.Proofs.Reading.Constituents
import Funclet.Proofs.Reading.Derivation
import Funclet.Proofs.Reading.Flattening
import Funclet.Proofs.Reading.Moves
import Funclet.Proofs.Reading.Names
import Funclet.Proofs.Reading.Order
import Funclet.Proofs.Reading.ReadBack
import Funclet.Proofs.Reading.Rendering
import Funclet.Proofs.Reading.Seam
import Funclet.Proofs.Reading.Silence
import Funclet.Proofs.Reading.Soundness
import Funclet.Proofs.Reading.Starts
import Funclet.Proofs.Reading.Termination
import Funclet.Proofs.Reading.Uniform
import Funclet.Proofs.Reading.Watched
import Funclet.Proofs.Registration
import Funclet.Proofs.Reordering
import Funclet.Proofs.ReportOrder
import Funclet.Proofs.Rollback
import Funclet.Proofs.Scanning.Lexemes
import Funclet.Proofs.Scanning.Lines
import Funclet.Proofs.Scanning.Order
import Funclet.Proofs.Scanning.Segments
import Funclet.Proofs.Scanning.Spelling
import Funclet.Proofs.Scopes
import Funclet.Proofs.SettingsFile
import Funclet.Proofs.Shadowing
import Funclet.Proofs.Simulation.Cells
import Funclet.Proofs.Simulation.Expressions
import Funclet.Proofs.Simulation.Functions
import Funclet.Proofs.Simulation.Relation
import Funclet.Proofs.Simulation.Statements
import Funclet.Proofs.Staging
import Funclet.Proofs.UndoNesting
import Funclet.Proofs.WaitingOrder
