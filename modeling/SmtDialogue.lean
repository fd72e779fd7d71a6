import SmtDialogue.AlgReal
import SmtDialogue.Answer.Binding
import SmtDialogue.Answer.Bound
import SmtDialogue.Answer.Decode
import SmtDialogue.Answer.Group
import SmtDialogue.Answer.Model
import SmtDialogue.Answer.Normalize
import SmtDialogue.Answer.ObjectiveValue
import SmtDialogue.Answer.Outcome
import SmtDialogue.Answer.Split
import SmtDialogue.Coefficients
import SmtDialogue.Config.Basic
import SmtDialogue.Config.Datum
import SmtDialogue.Config.Decimal
import SmtDialogue.Config.Document
import SmtDialogue.Config.Reads
import SmtDialogue.Config.Toml.Document
import SmtDialogue.Config.Toml.Moment
import SmtDialogue.Config.Toml.Number
import SmtDialogue.Config.Toml.Text
import SmtDialogue.Config.Toml.Tree
import SmtDialogue.Config.Toml.Value
import SmtDialogue.Config.Yaml.BlockScalar
import SmtDialogue.Config.Yaml.Document
import SmtDialogue.Config.Yaml.Mark
import SmtDialogue.Config.Yaml.Node
import SmtDialogue.Config.Yaml.Scalar
import SmtDialogue.Config.Yaml.Tag
import SmtDialogue.Config.Yaml.Token
import SmtDialogue.Dialogue
import SmtDialogue.Extended
import SmtDialogue.Ieee.Basic
import SmtDialogue.Ieee.Shortest
import SmtDialogue.Ieee.Text
import SmtDialogue.Keyed
import SmtDialogue.Kind
import SmtDialogue.Numeral
import SmtDialogue.Program.Basic
import SmtDialogue.Program.Features
import SmtDialogue.Proofs.Answers
import SmtDialogue.Proofs.Applications
import SmtDialogue.Proofs.BoundGrammar
import SmtDialogue.Proofs.Bytes
import SmtDialogue.Proofs.Casts
import SmtDialogue.Proofs.Chunks
import SmtDialogue.Proofs.Closed
import SmtDialogue.Proofs.CommandTrees
import SmtDialogue.Proofs.Commands
import SmtDialogue.Proofs.Contents
import SmtDialogue.Proofs.Contexts
import SmtDialogue.Proofs.Coverage
import SmtDialogue.Proofs.Cursor
import SmtDialogue.Proofs.Decoding
import SmtDialogue.Proofs.Definitions
import SmtDialogue.Proofs.Dependencies
import SmtDialogue.Proofs.Digits
import SmtDialogue.Proofs.Directives
import SmtDialogue.Proofs.Entries
import SmtDialogue.Proofs.Escapes
import SmtDialogue.Proofs.Exact
import SmtDialogue.Proofs.Exchange
import SmtDialogue.Proofs.Failures
import SmtDialogue.Proofs.Folded
import SmtDialogue.Proofs.GetModel
import SmtDialogue.Proofs.GoalNames
import SmtDialogue.Proofs.Grammar
import SmtDialogue.Proofs.Grouping
import SmtDialogue.Proofs.Hoisting
import SmtDialogue.Proofs.Ingredients
import SmtDialogue.Proofs.Inside
import SmtDialogue.Proofs.Kinds
import SmtDialogue.Proofs.Layout
import SmtDialogue.Proofs.Legible
import SmtDialogue.Proofs.Leniency
import SmtDialogue.Proofs.Levels
import SmtDialogue.Proofs.LineByLine
import SmtDialogue.Proofs.Literals
import SmtDialogue.Proofs.Liveness
import SmtDialogue.Proofs.Locality
import SmtDialogue.Proofs.Meaning
import SmtDialogue.Proofs.Models
import SmtDialogue.Proofs.Negations
import SmtDialogue.Proofs.Normalizing
import SmtDialogue.Proofs.NumberWords
import SmtDialogue.Proofs.Numbers
import SmtDialogue.Proofs.Objectives
import SmtDialogue.Proofs.Occurrences
import SmtDialogue.Proofs.Offsets
import SmtDialogue.Proofs.Opening
import SmtDialogue.Proofs.Overflows
import SmtDialogue.Proofs.Patterns
import SmtDialogue.Proofs.Phrases
import SmtDialogue.Proofs.Phrasing
import SmtDialogue.Proofs.Piecewise
import SmtDialogue.Proofs.Points
import SmtDialogue.Proofs.Polynomials
import SmtDialogue.Proofs.Positions
import SmtDialogue.Proofs.Printing
import SmtDialogue.Proofs.Progress
import SmtDialogue.Proofs.Queries
import SmtDialogue.Proofs.Ranges
import SmtDialogue.Proofs.RawNames
import SmtDialogue.Proofs.Reachability
import SmtDialogue.Proofs.Rearrangement
import SmtDialogue.Proofs.Reductions
import SmtDialogue.Proofs.References
import SmtDialogue.Proofs.Reports
import SmtDialogue.Proofs.Residues
import SmtDialogue.Proofs.Results
import SmtDialogue.Proofs.RootPolynomials
import SmtDialogue.Proofs.Scanning
import SmtDialogue.Proofs.Scoping
import SmtDialogue.Proofs.Separators
import SmtDialogue.Proofs.Shapes
import SmtDialogue.Proofs.Shifts
import SmtDialogue.Proofs.SizedLiterals
import SmtDialogue.Proofs.SortLiterals
import SmtDialogue.Proofs.Spelling
import SmtDialogue.Proofs.States
import SmtDialogue.Proofs.Statuses
import SmtDialogue.Proofs.Strategies
import SmtDialogue.Proofs.StringLiterals
import SmtDialogue.Proofs.Symbols
import SmtDialogue.Proofs.Tables
import SmtDialogue.Proofs.Terms
import SmtDialogue.Proofs.Transcript
import SmtDialogue.Proofs.Trivia
import SmtDialogue.Proofs.Truth
import SmtDialogue.Proofs.Unambiguous
import SmtDialogue.Proofs.Uniform
import SmtDialogue.Proofs.Uses
import SmtDialogue.Proofs.Visibility
import SmtDialogue.Proofs.WellScoped
import SmtDialogue.Proofs.Widths
import SmtDialogue.Proofs.Words
import SmtDialogue.SExpr.Basic
import SmtDialogue.SExpr.Escape
import SmtDialogue.SExpr.Fold
import SmtDialogue.SExpr.Lexeme
import SmtDialogue.SExpr.Reader
import SmtDialogue.Sample.Answer
import SmtDialogue.Sample.Table
import SmtDialogue.Script.Command
import SmtDialogue.Script.Declaration
import SmtDialogue.Script.Emission
import SmtDialogue.Script.Operation
import SmtDialogue.Script.Query
import SmtDialogue.Script.Scope
import SmtDialogue.Script.Session
import SmtDialogue.Script.Term
import SmtDialogue.Solver
import SmtDialogue.Symbol
import SmtDialogue.Text.Blank
import SmtDialogue.Text.Combining
import SmtDialogue.Text.Quoted
import SmtDialogue.Text.Unprintable
import SmtDialogue.Value.Basic
import SmtDialogue.Value.Literal
import SmtDialogue.Value.Text
