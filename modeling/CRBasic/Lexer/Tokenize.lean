import CRBasic.Lexer.Scan
import CRBasic.Diagnostic

/-!
# Tokens with diagnostics

The tokens of a text, and a diagnostic for each one that is in no class.
-/

namespace CRBasic

/-- The tokens of a text, and one diagnostic for each error token, in order. -/
def tokenize (source : List Char) : List Token × List Diagnostic :=
  let xs := lexemes source
  let index := LineIndex.ofText source
  (Lexeme.tokens 0 xs, (Problem.ofLexemes 0 xs).map (Problem.resolve index))

end CRBasic
