import CRBasic.Node.Kind
import CRBasic.Lexer.Lexeme

/-!
# Syntax trees

A tree keeps the whole text: its leaves are the lexemes, blanks and comments included.  It does not
say where in a text it lies.
-/

namespace CRBasic

/-- A syntax tree. -/
inductive Tree where
  | leaf (kind : TokenKind) (text : List Char)
  | node (kind : NodeKind) (children : List Tree)
  deriving Repr

namespace Tree

/-- The kind of the root of a tree. -/
def kind : Tree → ElementKind
  | leaf k _ => .token k
  | node k _ => .node k

mutual

/-- The lexemes of a tree, from left to right. -/
def leaves : Tree → List Lexeme
  | leaf k text => [⟨k, text⟩]
  | node _ children => leavesOfAll children

/-- The lexemes of some trees, from left to right. -/
def leavesOfAll : List Tree → List Lexeme
  | [] => []
  | t :: ts => t.leaves ++ leavesOfAll ts

end

mutual

/-- The number of bytes that a tree takes. -/
def width : Tree → Nat
  | leaf _ text => byteLength text
  | node _ children => widthOfAll children

/-- The number of bytes that some trees take. -/
def widthOfAll : List Tree → Nat
  | [] => 0
  | t :: ts => t.width + widthOfAll ts

end

/-- The text of a tree. -/
def text (t : Tree) : List Char := Lexeme.joined t.leaves

end Tree

end CRBasic
