import CRBasic.View.Expression

/-!
# Views of statements

The parts of files, blocks, conditions and loops.
-/

namespace CRBasic

namespace View

/-! ### Files and blocks -/

/-- The statements of a file. -/
def fileStatements (v : View .sourceFile) : List Node := v.node.childNodes

/-- The program of a file. -/
def program? (v : View .sourceFile) : Option (View .program) := v.node.child? .program

/-- The statements of a program. -/
def programBody? (v : View .program) : Option (View .stmtList) := v.node.child? .stmtList

/-- The statements of a block. -/
def statements (v : View .stmtList) : List Node := v.node.childNodes

/-! ### Conditions -/

/-- The condition of an `If`. -/
def condition? (v : View .ifStmt) : Option Expr := v.node.expression?

/-- The statements for when the condition holds. -/
def thenBranch? (v : View .ifStmt) : Option (View .stmtList) := v.node.child? .stmtList

/-- The branches with a condition of their own, in order. -/
def elseIfClauses (v : View .ifStmt) : List (View .elseIfClause) := v.node.childrenOf .elseIfClause

/-- The branch for when no condition holds. -/
def elseClause? (v : View .ifStmt) : Option (View .elseClause) := v.node.child? .elseClause

/-- Whether the first body among some elements has a statement and no line break before it. -/
def bodyOnLine : List Element → Bool
  | [] => false
  | .leaf x :: es => x.kind != .newline && bodyOnLine es
  | .node n :: es => if n.kind == .stmtList then !n.childNodes.isEmpty else bodyOnLine es

/-- Whether an `If` has a statement on the line of its `Then`. -/
def isSingleLine (v : View .ifStmt) : Bool :=
  bodyOnLine (v.node.elements.dropWhile (!·.isLeaf .kwThen))

/-- The condition of a branch. -/
def clauseCondition? (v : View .elseIfClause) : Option Expr := v.node.expression?

/-- The statements of a branch with a condition. -/
def clauseBody? (v : View .elseIfClause) : Option (View .stmtList) := v.node.child? .stmtList

/-- The statements of a branch without a condition. -/
def elseBody? (v : View .elseClause) : Option (View .stmtList) := v.node.child? .stmtList

/-! ### Loops -/

/-- The first name among some elements. -/
def firstName? (es : List Element) : Option (View .identifier) :=
  (es.filterMap (·.node?)).findSome? (ofNode? .identifier)

/-- The variable of a loop: the name before the first `=`. -/
def loopVariable? (v : View .forLoop) : Option (View .identifier) :=
  firstName? (v.node.elements.takeWhile (!·.isLeaf .eq))

/-- The name after the `Next` of a loop. -/
def closingVariable? (v : View .forLoop) : Option (View .identifier) :=
  firstName? (v.node.elements.dropWhile (!·.isLeaf .kwNext))

/-- The statements of a loop. -/
def loopBody? (v : View .forLoop) : Option (View .stmtList) := v.node.child? .stmtList

end View

/-- A node of a kind that has a view with parts. -/
inductive Construct where
  | sourceFile (view : View .sourceFile)
  | program (view : View .program)
  | stmtList (view : View .stmtList)
  | ifStmt (view : View .ifStmt)
  | elseIfClause (view : View .elseIfClause)
  | elseClause (view : View .elseClause)
  | forLoop (view : View .forLoop)
  | expression (expr : Expr)

namespace Construct

/-- The construct of a node, if its kind has a view with parts. -/
def ofNode? (n : Node) : Option Construct :=
  match h : n.kind with
  | .sourceFile => some (sourceFile ⟨n, h⟩)
  | .program => some (program ⟨n, h⟩)
  | .stmtList => some (stmtList ⟨n, h⟩)
  | .ifStmt => some (ifStmt ⟨n, h⟩)
  | .elseIfClause => some (elseIfClause ⟨n, h⟩)
  | .elseClause => some (elseClause ⟨n, h⟩)
  | .forLoop => some (forLoop ⟨n, h⟩)
  | _ => (Expr.ofNode? n).map expression

end Construct

end CRBasic
