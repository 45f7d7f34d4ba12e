import CRBasic.Proofs.Lexer.Spaced
import CRBasic.Proofs.Tree.Draft

/-!
# Terms

A `Term` is an expression in the abstract: one of the eight forms with its parts.  It is written as
lexemes with single spaces between them.  Parentheses are added around an operand that binds less
tightly than its place asks for, and nowhere else.
-/

namespace CRBasic

/-! ### Lexemes of terms -/

/-- A text that the lexical rules read as one lexeme of the given kind. -/
structure Atom (kind : TokenKind) where
  text : List Char
  isLexeme : Lexer.longestMatch text = some (kind, text.length)

namespace Atom

/-- The lexeme. -/
def lexeme {kind : TokenKind} (a : Atom kind) : Lexeme := ⟨kind, a.text⟩

end Atom

/-- A name, perhaps with more names after dots.  None of them is a keyword: a keyword is a lexeme of
another kind. -/
structure DottedName where
  first : Atom .ident
  more : List (Atom .ident) := []

/-- A kind of infix operator with its left power. -/
structure InfixOperator where
  kind : TokenKind
  power : Nat
  infixPower_eq : kind.infixPower? = some (power, power + 1)

/-- A kind of prefix operator with its power. -/
structure PrefixOperator where
  kind : TokenKind
  power : Nat
  prefixPower_eq : kind.prefixPower? = some power

/-- The lexeme of a kind with one spelling. -/
def TokenKind.lexeme (k : TokenKind) : Lexeme := ⟨k, (k.spelling?.getD "").toList⟩

namespace DottedName

/-- The lexemes of further names, with a dot before each. -/
def lexemesOfMore : List (Atom .ident) → List Lexeme
  | [] => []
  | a :: more => TokenKind.dot.lexeme :: a.lexeme :: lexemesOfMore more

/-- The lexemes of a name. -/
def lexemes (n : DottedName) : List Lexeme := n.first.lexeme :: lexemesOfMore n.more

/-- A name with its dots and without blanks. -/
def text (n : DottedName) : List Char := Lexeme.joined n.lexemes

end DottedName

/-! ### Terms -/

/-- An expression. -/
inductive Term where
  | binary (op : InfixOperator) (left right : Term)
  | unary (op : PrefixOperator) (operand : Term)
  | paren (inner : Term)
  | name (n : DottedName)
  | call (callee : DottedName) (arguments : List Term)
  | number (a : Atom .number)
  | string (a : Atom .quotedString)
  | boolean (b : Bool)

/-- The kind of the word for a truth value. -/
def TokenKind.ofBool (b : Bool) : TokenKind := if b then .kwTrue else .kwFalse

namespace Term

mutual

/-- The number of forms in a term. -/
def size : Term → Nat
  | binary _ a b => 1 + a.size + b.size
  | unary _ a => 1 + a.size
  | paren a => 1 + a.size
  | call _ args => 1 + sizeOfAll args
  | name _ | number _ | string _ | boolean _ => 1

/-- The number of forms in some terms. -/
def sizeOfAll : List Term → Nat
  | [] => 0
  | e :: es => e.size + sizeOfAll es

end

theorem size_pos (e : Term) : 0 < e.size := by
  cases e <;> rw [size] <;> omega

/-- How tightly a term binds: as its operator, and more than any infix operator if it is no binary
one. -/
def level : Term → Nat
  | binary op _ _ => op.power
  | _ => 15

/-- Lexemes, in parentheses if these are needed. -/
def enclose (needed : Bool) (xs : List Lexeme) : List Lexeme :=
  if needed then TokenKind.lParen.lexeme :: (xs ++ [TokenKind.rParen.lexeme]) else xs

mutual

/-- The lexemes of a term. -/
def lexemes : Term → List Lexeme
  | binary op a b =>
    enclose (a.level < op.power) a.lexemes ++
      op.kind.lexeme :: enclose (b.level < op.power + 1) b.lexemes
  | unary op a => op.kind.lexeme :: enclose (a.level < op.power) a.lexemes
  | paren a => enclose true a.lexemes
  | name n => n.lexemes
  | call n args => n.lexemes ++ enclose true (lexemesOfAll args)
  | number a => [a.lexeme]
  | string a => [a.lexeme]
  | boolean b => [(TokenKind.ofBool b).lexeme]

/-- The lexemes of arguments, with commas between them. -/
def lexemesOfAll : List Term → List Lexeme
  | [] => []
  | e :: es => e.lexemes ++ lexemesOfMore es

/-- The lexemes of further arguments, with a comma before each. -/
def lexemesOfMore : List Term → List Lexeme
  | [] => []
  | e :: es => TokenKind.comma.lexeme :: (e.lexemes ++ lexemesOfMore es)

end

/-! ### Drafts -/

end Term

/-- The draft of a name. -/
def DottedName.draft (n : DottedName) : Draft :=
  .node .identifier (n.lexemes.map fun x => .word x.word)

namespace Term

/-- A draft, in parentheses if these are needed. -/
def encloseDraft (needed : Bool) (d : Draft) : Draft :=
  if needed then
    .node .parenExpr
      [.word TokenKind.lParen.lexeme.word, .node d, .word TokenKind.rParen.lexeme.word]
  else d

mutual

/-- What parsing makes of a term. -/
def draft : Term → Draft
  | binary op a b =>
    .around .binaryExpr (encloseDraft (a.level < op.power) a.draft)
      [.word op.kind.lexeme.word, .node (encloseDraft (b.level < op.power + 1) b.draft)]
  | unary op a =>
    .node .unaryExpr [.word op.kind.lexeme.word, .node (encloseDraft (a.level < op.power) a.draft)]
  | paren a => encloseDraft true a.draft
  | name n => n.draft
  | call n args =>
    .around .functionCall n.draft
      [.node (.node .argList (.word TokenKind.lParen.lexeme.word ::
        (piecesOfAll args ++ [.word TokenKind.rParen.lexeme.word])))]
  | number a => .node .numberLiteral [.word a.lexeme.word]
  | string a => .node .stringLiteral [.word a.lexeme.word]
  | boolean b => .node .booleanLiteral [.word (TokenKind.ofBool b).lexeme.word]

/-- What parsing makes of arguments. -/
def piecesOfAll : List Term → List (Piece Draft)
  | [] => []
  | e :: es => .node e.draft :: piecesOfMore es

/-- What parsing makes of further arguments. -/
def piecesOfMore : List Term → List (Piece Draft)
  | [] => []
  | e :: es => .word TokenKind.comma.lexeme.word :: .node e.draft :: piecesOfMore es

end

/-! ### Texts -/

/-- The text of a term, with single spaces between its lexemes. -/
def text (e : Term) : List Char := Lexeme.joined (Lexeme.spaced e.lexemes)

end Term

end CRBasic
