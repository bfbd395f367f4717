import ShaderFront.Automaton.Closure
import ShaderFront.Automaton.Item
import ShaderFront.Automaton.States
import ShaderFront.Command.Request
import ShaderFront.Command.Run
import ShaderFront.Diagnostic.Basic
import ShaderFront.Diagnostic.Message
import ShaderFront.Diagnostic.Snippet
import ShaderFront.Directive.Basic
import ShaderFront.Directive.Evaluate
import ShaderFront.Directive.Expression
import ShaderFront.Directive.Language
import ShaderFront.Directive.Token
import ShaderFront.Grammar.Basic
import ShaderFront.Grammar.Builder
import ShaderFront.Grammar.Error
import ShaderFront.Grammar.First
import ShaderFront.Grammar.Symbol
import ShaderFront.Include.FileTree
import ShaderFront.Include.Library
import ShaderFront.Include.Resource
import ShaderFront.Lex.Numeral
import ShaderFront.Lex.Scan
import ShaderFront.Macro.Basic
import ShaderFront.Macro.Expand
import ShaderFront.Main
import ShaderFront.Ordered.Map
import ShaderFront.Ordered.Set
import ShaderFront.Parse.Cursor
import ShaderFront.Parse.Engine
import ShaderFront.Parse.Error
import ShaderFront.Parse.Language
import ShaderFront.Parse.Tree
import ShaderFront.Preprocess.Basic
import ShaderFront.Program
import ShaderFront.Proofs.Acyclic
import ShaderFront.Proofs.Alphabet
import ShaderFront.Proofs.Annotations
import ShaderFront.Proofs.Answers
import ShaderFront.Proofs.Attributes
import ShaderFront.Proofs.Buildable
import ShaderFront.Proofs.Builder
import ShaderFront.Proofs.Built
import ShaderFront.Proofs.CallsByValue
import ShaderFront.Proofs.Canonical
import ShaderFront.Proofs.Closure
import ShaderFront.Proofs.Completeness
import ShaderFront.Proofs.Constructions
import ShaderFront.Proofs.Cursors
import ShaderFront.Proofs.Conflicts
import ShaderFront.Proofs.Containment
import ShaderFront.Proofs.Derivation
import ShaderFront.Proofs.Discovery
import ShaderFront.Proofs.Division
import ShaderFront.Proofs.Excerpts
import ShaderFront.Proofs.Expansion
import ShaderFront.Proofs.First
import ShaderFront.Proofs.Halting
import ShaderFront.Proofs.Identifiers
import ShaderFront.Proofs.Inactive
import ShaderFront.Proofs.Kernel
import ShaderFront.Proofs.Layout
import ShaderFront.Proofs.Ledger
import ShaderFront.Proofs.Libraries
import ShaderFront.Proofs.Lines
import ShaderFront.Proofs.Mentions
import ShaderFront.Proofs.Merged
import ShaderFront.Proofs.Nesting
import ShaderFront.Proofs.Newlines
import ShaderFront.Proofs.Numbering
import ShaderFront.Proofs.Numerals
import ShaderFront.Proofs.Opaque
import ShaderFront.Proofs.OpenComments
import ShaderFront.Proofs.Particles
import ShaderFront.Proofs.Parenthesis
import ShaderFront.Proofs.Outline
import ShaderFront.Proofs.Parsers
import ShaderFront.Proofs.Pasting
import ShaderFront.Proofs.Phrasing
import ShaderFront.Proofs.Potential
import ShaderFront.Proofs.Precedence
import ShaderFront.Proofs.Printing
import ShaderFront.Proofs.Reading
import ShaderFront.Proofs.Reductions
import ShaderFront.Proofs.Rounding
import ShaderFront.Proofs.Rows
import ShaderFront.Proofs.Rules
import ShaderFront.Proofs.Safety
import ShaderFront.Proofs.Sentential
import ShaderFront.Proofs.Settling
import ShaderFront.Proofs.Shortest
import ShaderFront.Proofs.Simple
import ShaderFront.Proofs.Soundness
import ShaderFront.Proofs.Spelling.Directive
import ShaderFront.Proofs.Spelling.Shader
import ShaderFront.Proofs.Spelling.Tag
import ShaderFront.Proofs.TagWords
import ShaderFront.Proofs.Tokens
import ShaderFront.Proofs.Unbroken
import ShaderFront.Proofs.Unioned
import ShaderFront.Proofs.Unshadowed
import ShaderFront.Proofs.Unused
import ShaderFront.Proofs.Vanishing
import ShaderFront.Proofs.Viable
import ShaderFront.Proofs.Wildcard
import ShaderFront.Shader.Declaration
import ShaderFront.Shader.Language
import ShaderFront.Shader.Token
import ShaderFront.Table.Action
import ShaderFront.Table.Basic
import ShaderFront.Tag.Basic
import ShaderFront.Tag.Language
import ShaderFront.Tag.Token
import ShaderFront.Text.Binary64
import ShaderFront.Text.Blank
import ShaderFront.Text.Decimal
import ShaderFront.Text.Integer
import ShaderFront.Text.Span
import ShaderFront.Text.Split
import ShaderFront.Variable.Basic
import ShaderFront.Variable.Collect
import ShaderFront.Variable.Type
import ShaderFront.Proofs.Alignment
import ShaderFront.Proofs.Comments
import ShaderFront.Proofs.Definitions
import ShaderFront.Proofs.Evaluations
import ShaderFront.Proofs.Partition
import ShaderFront.Proofs.Recorded
import ShaderFront.Proofs.Untouched
import ShaderFront.Proofs.Coverage
import ShaderFront.Proofs.Declared
import ShaderFront.Proofs.Paths
import ShaderFront.Proofs.Placement
import ShaderFront.Proofs.Seams
import ShaderFront.Proofs.Relocation
import ShaderFront.Proofs.Grafting
import ShaderFront.Proofs.Levels
import ShaderFront.Proofs.Splices
import ShaderFront.Proofs.Inclusion
import ShaderFront.Proofs.Indices
import ShaderFront.Proofs.Refusals
import ShaderFront.Proofs.Names
import ShaderFront.Proofs.CommentScan
import ShaderFront.Proofs.TwoStacks
