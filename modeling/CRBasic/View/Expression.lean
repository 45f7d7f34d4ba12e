import CRBasic.Number.Literal
import CRBasic.View.Basic

/-!
# Views of expressions

The eight forms of expression, and the parts of each.
-/

namespace CRBasic

/-- A node of one of the forms of expression. -/
inductive Expr where
  | binary (view : View .binaryExpr)
  | unary (view : View .unaryExpr)
  | paren (view : View .parenExpr)
  | name (view : View .identifier)
  | call (view : View .functionCall)
  | number (view : View .numberLiteral)
  | string (view : View .stringLiteral)
  | boolean (view : View .booleanLiteral)

namespace Expr

/-- The kinds of the forms of expression. -/
def isForm : NodeKind → Bool
  | .binaryExpr | .unaryExpr | .parenExpr | .identifier | .functionCall | .numberLiteral
  | .stringLiteral | .booleanLiteral => true
  | _ => false

/-- The expression of a node, if its kind is that of one. -/
def ofNode? (n : Node) : Option Expr :=
  match h : n.kind with
  | .binaryExpr => some (binary ⟨n, h⟩)
  | .unaryExpr => some (unary ⟨n, h⟩)
  | .parenExpr => some (paren ⟨n, h⟩)
  | .identifier => some (name ⟨n, h⟩)
  | .functionCall => some (call ⟨n, h⟩)
  | .numberLiteral => some (number ⟨n, h⟩)
  | .stringLiteral => some (string ⟨n, h⟩)
  | .booleanLiteral => some (boolean ⟨n, h⟩)
  | _ => none

theorem isSome_ofNode? (n : Node) : (ofNode? n).isSome = isForm n.kind := by
  unfold ofNode?
  split <;> rename_i h <;> simp_all [isForm]

/-- The node of an expression. -/
def node : Expr → Node
  | binary v => v.node
  | unary v => v.node
  | paren v => v.node
  | name v => v.node
  | call v => v.node
  | number v => v.node
  | string v => v.node
  | boolean v => v.node

/-- The identifier of a form in listings. -/
def formName : Expr → String
  | binary _ => "Binary"
  | unary _ => "Unary"
  | paren _ => "Paren"
  | name _ => "Name"
  | call _ => "Call"
  | number _ => "Number"
  | string _ => "String"
  | boolean _ => "Boolean"

/-- The written form: the form and the range. -/
def display (e : Expr) : String := e.formName ++ "@" ++ e.node.range.display

end Expr

namespace Node

/-- The parts of a node that are expressions. -/
def expressions (n : Node) : List Expr := n.childNodes.filterMap Expr.ofNode?

/-- The first part of a node that is an expression. -/
def expression? (n : Node) : Option Expr := n.expressions.head?

end Node

namespace View

/-! ### Operators -/

/-- The operator of a binary expression. -/
def infixOperator? (v : View .binaryExpr) : Option Leaf := v.node.firstWord?

/-- The left operand of a binary expression. -/
def left? (v : View .binaryExpr) : Option Expr := v.node.expressions[0]?

/-- The right operand of a binary expression. -/
def right? (v : View .binaryExpr) : Option Expr := v.node.expressions[1]?

/-- The sign or negation of a unary expression. -/
def sign? (v : View .unaryExpr) : Option Leaf := v.node.firstWord?

/-- The operand of a unary expression. -/
def operand? (v : View .unaryExpr) : Option Expr := v.node.expression?

/-- The expression between parentheses. -/
def inner? (v : View .parenExpr) : Option Expr := v.node.expression?

/-! ### Names and calls -/

/-- A name as written, with its dots and without blanks. -/
def name (v : View .identifier) : List Char := v.node.words.flatMap (·.text)

/-- The called name. -/
def callee? (v : View .functionCall) : Option (View .identifier) := v.node.child? .identifier

/-- The arguments, in order; none if there is no argument list. -/
def arguments (v : View .functionCall) : List Expr :=
  match v.node.child? .argList with
  | some list => list.node.expressions
  | none => []

/-! ### Literals -/

/-- The word of a number. -/
def numberWord? (v : View .numberLiteral) : Option Leaf :=
  v.node.firstWord?.filter (·.kind == .number)

/-- The parts of a number. -/
def literal? (v : View .numberLiteral) : Option NumericLiteral :=
  v.numberWord?.map fun x => NumericLiteral.ofText x.text

/-- The radix of a number. -/
def base? (v : View .numberLiteral) : Option NumericBase := v.literal?.map (·.base)

/-- The suffix of a number. -/
def suffix? (v : View .numberLiteral) : Option NumericSuffix := v.literal?.bind (·.suffix?)

/-- Whether a number is decimal and has an exponent. -/
def isScientific (v : View .numberLiteral) : Bool := v.literal?.any (·.isScientific)

/-- The value of a number. -/
def numberValue? (v : View .numberLiteral) : Option NumberValue := v.literal?.bind (·.value?)

/-- A text between two double quotes. -/
def betweenQuotes? : List Char → Option (List Char)
  | '\x22' :: rest => if rest.getLast? = some '\x22' then some rest.dropLast else none
  | _ => none

/-- The text between the quotes of a string, as written. -/
def contents? (v : View .stringLiteral) : Option (List Char) :=
  v.node.firstWord?.bind fun x => betweenQuotes? x.text

/-- The truth value. -/
def truth? (v : View .booleanLiteral) : Option Bool :=
  v.node.firstWord?.bind fun x =>
    match x.kind with
    | .kwTrue => some true
    | .kwFalse => some false
    | _ => none

end View

end CRBasic
