import CRBasic.Diagnostic
import CRBasic.Grammar.Block
import CRBasic.Grammar.Declaration
import CRBasic.Grammar.Directive
import CRBasic.Grammar.Expression
import CRBasic.Grammar.Line
import CRBasic.Grammar.Statement
import CRBasic.Lexer.Lexeme
import CRBasic.Lexer.Pattern
import CRBasic.Lexer.Rules
import CRBasic.Lexer.Scan
import CRBasic.Lexer.Tokenize
import CRBasic.Node.Kind
import CRBasic.Number.Binary64
import CRBasic.Number.Literal
import CRBasic.Parse
import CRBasic.Parsing.Event
import CRBasic.Parsing.Reading
import CRBasic.Parsing.Script
import CRBasic.Parsing.State
import CRBasic.Parsing.Word
import CRBasic.Text.Blank
import CRBasic.Text.LineIndex
import CRBasic.Text.Printable
import CRBasic.Text.Quoted
import CRBasic.Text.Range
import CRBasic.Token.Kind
import CRBasic.Tree.Basic
import CRBasic.Tree.Builder
import CRBasic.Tree.Node
import CRBasic.Tree.Outline
import CRBasic.View.Basic
import CRBasic.View.Expression
import CRBasic.View.Statement
import CRBasic.Proofs.Parsing.Invariant
import CRBasic.Proofs.Parsing.Fuel
import CRBasic.Proofs.Parsing.Ends
import CRBasic.Proofs.Grammar.Advance
import CRBasic.Proofs.Grammar.AdvanceStatement
import CRBasic.Proofs.Parsing.Sketch
import CRBasic.Proofs.Parsing.Text
import CRBasic.Proofs.Tree.Layout
import CRBasic.Proofs.Lexer.Longest
import CRBasic.Proofs.Lexer.Tiling
import CRBasic.Proofs.Lossless
import CRBasic.Proofs.Parsing.Termination
import CRBasic.Proofs.Tree.WellFormed
import CRBasic.Proofs.Parsing.Denotation
import CRBasic.Proofs.Expression.Parsing
import CRBasic.Proofs.Expression.Assignment
import CRBasic.Proofs.Lexer.Spaced
import CRBasic.Proofs.Expression.Lexing
import CRBasic.Proofs.Expression.Reading
import CRBasic.Proofs.Expression.RoundTrip
import CRBasic.Proofs.Tree.Nodes
import CRBasic.Proofs.Parsing.Runs
import CRBasic.Proofs.Parsing.Root
import CRBasic.Proofs.Expression.Ranked
import CRBasic.Proofs.Expression.Precedence
import CRBasic.Proofs.Grammar.Modes
import CRBasic.Proofs.Grammar.Walk
import CRBasic.Proofs.Grammar.WalkStatement
import CRBasic.Proofs.Grammar.Forms
import CRBasic.Proofs.Grammar.Lineal
import CRBasic.Proofs.Embedding.Setting
import CRBasic.Proofs.Embedding.Alike
import CRBasic.Proofs.Embedding.Lines
import CRBasic.Proofs.Embedding.Names
import CRBasic.Proofs.Embedding.Arguments
import CRBasic.Proofs.Embedding.Blocks
import CRBasic.Proofs.Embedding.Statements
import CRBasic.Proofs.Embedding.Texts
import CRBasic.Proofs.Lexer.Lines
import CRBasic.Proofs.Text.Positions
import CRBasic.Proofs.Text.Problems
import CRBasic.Proofs.Embedding.Append
import CRBasic.Proofs.Embedding.Bodies
import CRBasic.Proofs.Embedding.Headers
import CRBasic.Proofs.Embedding.InBlock
import CRBasic.Proofs.Embedding.InBranch
import CRBasic.Proofs.Embedding.Unended
import CRBasic.Proofs.Blocks.Complete
import CRBasic.Proofs.Case
import CRBasic.Proofs.Trivia
import CRBasic.Proofs.Lexer.LineEnds
import CRBasic.Proofs.Text.LineEnds
import CRBasic.Proofs.LineEnds
import CRBasic.Proofs.Nesting.Budget
import CRBasic.Proofs.Nesting.Statements
import CRBasic.Proofs.Nesting.Runs
import CRBasic.Proofs.Nesting.Stages
import CRBasic.Proofs.Nesting.Height
import CRBasic.Proofs.Nesting.Limit
import CRBasic.Proofs.Options
import CRBasic.Proofs.Text.Boundaries
import CRBasic.Proofs.Lexer.Reader
import CRBasic.Proofs.Grammar.Edges
import CRBasic.Proofs.Text.Lines
import CRBasic.Proofs.Lexer.Breaks
import CRBasic.Proofs.Lines.Tidy
import CRBasic.Proofs.Lines.Inline
import CRBasic.Proofs.Lines.Arguments
import CRBasic.Proofs.Lines.Blocks
import CRBasic.Proofs.Lines.Tree
import CRBasic.Proofs.Lines.Places
import CRBasic.Proofs.Diagnostics
import CRBasic.Proofs.Tree.Gaps
import CRBasic.Proofs.Tree.Statements
import CRBasic.Proofs.Tree.Counting
import CRBasic.Proofs.Tree.Beginnings
import CRBasic.Proofs.Comments
import CRBasic.Proofs.Tree.Endings
import CRBasic.Proofs.Blocks.LastParts
import CRBasic.Proofs.Blocks.Trailing
import CRBasic.Proofs.Lexer.LineStarts
import CRBasic.Proofs.Lexer.Heads
import CRBasic.Proofs.Spelling.Words
import CRBasic.Proofs.Spelling.Lines
import CRBasic.Proofs.Spelling.Blocks
import CRBasic.Proofs.Spelling.Statements
import CRBasic.Proofs.Spelling.Lexemes
import CRBasic.Proofs.Spelling.Tree
import CRBasic.Proofs.Spelling.ElseIf
import CRBasic.Proofs.Tree.Standing
import CRBasic.Proofs.Tree.Elements
import CRBasic.Proofs.Tree.Breaks
import CRBasic.Proofs.Roles.Origins
import CRBasic.Proofs.Roles.Statements
import CRBasic.Proofs.Roles.Operands
import CRBasic.Proofs.Roles.References
import CRBasic.Proofs.Roles.LoopParts
import CRBasic.Proofs.Roles.Loops
import CRBasic.Proofs.Roles.Conditions
import CRBasic.Proofs.Roles.OneLine
import CRBasic.Proofs.Lexer.Found
import CRBasic.Proofs.Lexer.LineLocal
import CRBasic.Proofs.Lexer.Faults
import CRBasic.Proofs.Lexer.Strings
import CRBasic.Proofs.Lexer.UnitsText
import CRBasic.Proofs.Grammar.Silence
import CRBasic.Proofs.Roles.Arguments
import CRBasic.Proofs.Roles.Units
import CRBasic.Proofs.Roles.Scans
import CRBasic.Proofs.Lexer.UnitsEnds
import CRBasic.Proofs.Text.Columns
import CRBasic.Proofs.Number.Spelling
import CRBasic.Proofs.Number.Value
import CRBasic.Proofs.Number.Lexing
import CRBasic.Proofs.Roles.Numbers
import CRBasic.Proofs.Lexer.NewlineTokens
import CRBasic.Proofs.Text.InsideCharacters
import CRBasic.Proofs.Parsing.Moments
import CRBasic.Proofs.Nesting.Orderly
