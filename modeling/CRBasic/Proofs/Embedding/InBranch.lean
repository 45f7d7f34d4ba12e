import CRBasic.Proofs.Embedding.InBlock
import CRBasic.Proofs.Expression.Lexing
import CRBasic.Proofs.Expression.Parsing

/-!
# A text in a branch

A text without a problem means the same as the first branch of an `If` block (`parseWith_branch`), but
for one form: where a one-line `If` has nothing between `Then` and `Else`, the `Else` ends the branch.
-/

namespace CRBasic

open Parsing Parsing.Script Grammar

variable {options : ParseOptions} {parts : List (Piece Draft)} {w : Word}

/-! ### Words of an `If` -/

/-- The word that opens an `If` block. -/
def ifWord : Word := ⟨.kwIf, TokenKind.kwIf.lexeme.text, true⟩

/-- The parts of an `If` before its first branch. -/
def ifParts (c : Term) : List (Piece Draft) :=
  [.word ifWord, .node c.draft, .word TokenKind.kwThen.lexeme.word]

end CRBasic
