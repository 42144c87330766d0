import Stratify.Calls.Depth
import Stratify.Calls.Graph
import Stratify.Calls.Size
import Stratify.Compile.Basic
import Stratify.Compile.Batch
import Stratify.Compile.Trace
import Stratify.Constraint.Basic
import Stratify.Constraint.Propagation
import Stratify.Constraint.Solution
import Stratify.Diagnostic.Basic
import Stratify.Diagnostic.Issue
import Stratify.Diagnostic.Kind
import Stratify.Inlining
import Stratify.Level.Basic
import Stratify.Level.Code
import Stratify.Level.Interval
import Stratify.Log
import Stratify.NameSupply
import Stratify.OrderedMap
import Stratify.Placement
import Stratify.Proofs.Calls.Depth
import Stratify.Proofs.Calls.Size
import Stratify.Proofs.Compile.Success
import Stratify.Proofs.Constraint.Building
import Stratify.Proofs.Constraint.Propagation
import Stratify.Proofs.Constraint.Solution
import Stratify.Proofs.Inlining.Elaboration
import Stratify.Proofs.Inlining.Levels
import Stratify.Proofs.Inlining.Meaning
import Stratify.Proofs.Inlining.Names
import Stratify.Proofs.NameSupply
import Stratify.Proofs.Inlining.Relation
import Stratify.Proofs.Inlining.Scoping
import Stratify.Proofs.Level.Order
import Stratify.Proofs.Semantics.Basic
import Stratify.Proofs.Semantics.Footprint
import Stratify.Proofs.Semantics.Reordering
import Stratify.Proofs.Syntax.Complete
import Stratify.Proofs.Target.Meaning
import Stratify.Proofs.Target.Order
import Stratify.Proofs.Target.Placement
import Stratify.Proofs.Typing.Constraints
import Stratify.Proofs.Typing.Environment
import Stratify.Proofs.Typing.Flow
import Stratify.Proofs.Typing.Generation
import Stratify.Proofs.Typing.Judgement
import Stratify.Proofs.Typing.Keys
import Stratify.Proofs.Typing.Principal
import Stratify.Proofs.Typing.Randomness
import Stratify.Proofs.Typing.Statements
import Stratify.Proofs.Typing.Tracking
import Stratify.Scope
import Stratify.Settings.Basic
import Stratify.Settings.File
import Stratify.Settings.Severity
import Stratify.Settings.Toml.Calendar
import Stratify.Settings.Toml.Character
import Stratify.Settings.Toml.Document
import Stratify.Settings.Toml.Number
import Stratify.Settings.Toml.Token
import Stratify.Settings.Toml.Value
import Stratify.Syntax.Build
import Stratify.Syntax.Expr
import Stratify.Syntax.Printer
import Stratify.Syntax.Reads
import Stratify.Syntax.Rename
import Stratify.Syntax.Stmt
import Stratify.Syntax.Traversal
import Stratify.Target.Block
import Stratify.Target.Layout
import Stratify.Target.Primitives
import Stratify.Text.Lines
import Stratify.Text.Printable
import Stratify.Text.Quoted
import Stratify.Typing.Basic
import Stratify.Typing.Draft
import Stratify.Typing.Environment
import Stratify.Proofs.Compile.Noninterference
import Stratify.Proofs.Compile.Reinference
import Stratify.Proofs.Inlining.Hygiene
import Stratify.Proofs.Target.Scoping
import Stratify.Proofs.Typing.Declarations
import Stratify.Proofs.Target.Discipline
import Stratify.Proofs.Inlining.Uniqueness
import Stratify.Proofs.Calls.Reordering
import Stratify.Proofs.Typing.Reordering
import Stratify.Proofs.Compile.Reordering
import Stratify.Proofs.Typing.Renaming
import Stratify.Proofs.Compile.Renaming
import Stratify.Proofs.Constraint.Provenance
import Stratify.Proofs.Diagnostic.Message
import Stratify.Proofs.Typing.Diagnostics
import Stratify.Proofs.Inlining.Diagnostics
import Stratify.Proofs.Compile.Diagnostics
import Stratify.Proofs.Syntax.Blocks
import Stratify.Proofs.Inlining.Blocks
import Stratify.Proofs.Typing.Blocks
import Stratify.Proofs.Compile.Blocks
import Stratify.Proofs.Calls.Chains
import Stratify.Proofs.Calls.Overflow
import Stratify.Proofs.Inlining.Unrolling
import Stratify.Proofs.Typing.Formation
import Stratify.Proofs.Constraint.Stability
import Stratify.Proofs.Typing.Seeding
import Stratify.Proofs.Constraint.Fixpoint
import Stratify.Proofs.Inlining.Guard
import Stratify.Proofs.Target.Partition
import Stratify.Proofs.Syntax.Pieces
import Stratify.Proofs.Syntax.Reading
import Stratify.Proofs.Target.Acceptance
import Stratify.Proofs.Syntax.Action
import Stratify.Proofs.Typing.Dependencies
