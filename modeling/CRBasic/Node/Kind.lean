import CRBasic.Token.Kind

/-!
# Kinds of tree element

A tree has two sorts of element: leaves, which carry a `TokenKind`, and nodes, which carry a
`NodeKind`.  `ElementKind` joins the two under one numbering, tokens first.
-/

namespace CRBasic

/-- The grammatical class of a node. -/
inductive NodeKind where
  /-- The whole text. -/
  | sourceFile
  -- procedures: `BeginProg`, `Function` and `Sub` blocks, their parameters
  | program | functionDecl | subDecl | paramList | param
  -- declarations: `Public` and `Dim`, `Const`, `ConstTable`, `Alias`, `Units`, and `As` types
  | variableDecl | declarator | dimensionList | constDecl | constTableDecl | aliasDecl | unitsDecl
  | typeRef
  /-- The statements of a block. -/
  | stmtList
  -- statements of one line
  | assignment | functionCall | argList | callStmt | returnStmt | exitStmt
  -- control flow
  | ifStmt | elseIfClause | elseClause | forLoop | whileLoop | doLoop | selectStmt | caseClause
  -- measurement scheduling, menus and data tables
  | scanStmt | subScanStmt | slowSequenceStmt | menuStmt | subMenuStmt | menuItem | dataTableStmt
  | callTableStmt
  -- directives
  | preprocessorIf | preprocessorIfDef | preprocessorElseIf | preprocessorElse | preprocessorUndef
  | includeDirective
  -- expressions
  | binaryExpr | unaryExpr | parenExpr | identifier | numberLiteral | stringLiteral
  | booleanLiteral
  /-- Words that fit no rule of the grammar. -/
  | errorNode
  deriving DecidableEq, Repr

namespace NodeKind

/-- Every kind, in the order of the kinds' numbers. -/
def all : List NodeKind :=
  [.sourceFile, .program, .functionDecl, .subDecl, .paramList, .param, .variableDecl, .declarator,
   .dimensionList, .constDecl, .constTableDecl, .aliasDecl, .unitsDecl, .typeRef, .stmtList,
   .assignment, .functionCall, .argList, .callStmt, .returnStmt, .exitStmt, .ifStmt,
   .elseIfClause, .elseClause, .forLoop, .whileLoop, .doLoop, .selectStmt, .caseClause, .scanStmt,
   .subScanStmt, .slowSequenceStmt, .menuStmt, .subMenuStmt, .menuItem, .dataTableStmt,
   .callTableStmt, .preprocessorIf, .preprocessorIfDef, .preprocessorElseIf, .preprocessorElse,
   .preprocessorUndef, .includeDirective, .binaryExpr, .unaryExpr, .parenExpr, .identifier,
   .numberLiteral, .stringLiteral, .booleanLiteral, .errorNode]

/-- The place of a kind in `all`. -/
def code (k : NodeKind) : Nat := k.ctorIdx

theorem getElem?_all_code (k : NodeKind) : all[k.code]? = some k := by cases k <;> rfl

/-- The identifier of a kind in listings of trees. -/
def name : NodeKind → String
  | .sourceFile => "SourceFile"
  | .program => "Program"
  | .functionDecl => "FunctionDecl"
  | .subDecl => "SubDecl"
  | .paramList => "ParamList"
  | .param => "Param"
  | .variableDecl => "VariableDecl"
  | .declarator => "Declarator"
  | .dimensionList => "DimensionList"
  | .constDecl => "ConstDecl"
  | .constTableDecl => "ConstTableDecl"
  | .aliasDecl => "AliasDecl"
  | .unitsDecl => "UnitsDecl"
  | .typeRef => "TypeRef"
  | .stmtList => "StmtList"
  | .assignment => "Assignment"
  | .functionCall => "FunctionCall"
  | .argList => "ArgList"
  | .callStmt => "CallStmt"
  | .returnStmt => "ReturnStmt"
  | .exitStmt => "ExitStmt"
  | .ifStmt => "IfStmt"
  | .elseIfClause => "ElseIfClause"
  | .elseClause => "ElseClause"
  | .forLoop => "ForLoop"
  | .whileLoop => "WhileLoop"
  | .doLoop => "DoLoop"
  | .selectStmt => "SelectStmt"
  | .caseClause => "CaseClause"
  | .scanStmt => "ScanStmt"
  | .subScanStmt => "SubScanStmt"
  | .slowSequenceStmt => "SlowSequenceStmt"
  | .menuStmt => "MenuStmt"
  | .subMenuStmt => "SubMenuStmt"
  | .menuItem => "MenuItem"
  | .dataTableStmt => "DataTableStmt"
  | .callTableStmt => "CallTableStmt"
  | .preprocessorIf => "PreprocessorIf"
  | .preprocessorIfDef => "PreprocessorIfDef"
  | .preprocessorElseIf => "PreprocessorElseIf"
  | .preprocessorElse => "PreprocessorElse"
  | .preprocessorUndef => "PreprocessorUndef"
  | .includeDirective => "IncludeDirective"
  | .binaryExpr => "BinaryExpr"
  | .unaryExpr => "UnaryExpr"
  | .parenExpr => "ParenExpr"
  | .identifier => "Identifier"
  | .numberLiteral => "NumberLiteral"
  | .stringLiteral => "StringLiteral"
  | .booleanLiteral => "BooleanLiteral"
  | .errorNode => "ErrorNode"

end NodeKind

/-- The kind of a tree element: of a leaf or of a node. -/
inductive ElementKind where
  /-- The kind of a leaf. -/
  | token (kind : TokenKind)
  /-- The kind of a node. -/
  | node (kind : NodeKind)
  deriving DecidableEq, Repr

namespace ElementKind

/-- The identifier of a kind in listings of trees. -/
def name : ElementKind → String
  | .token k => k.name
  | .node k => k.name

/-- Tokens are numbered first, nodes after them. -/
def code : ElementKind → Nat
  | .token k => k.code
  | .node k => TokenKind.all.length + k.code

/-- Reads a kind back from its number; a number that no kind has reads as an error node. -/
def ofCode (n : Nat) : ElementKind :=
  match TokenKind.all[n]? with
  | some k => .token k
  | none => .node ((NodeKind.all[n - TokenKind.all.length]?).getD .errorNode)

theorem ofCode_code (k : ElementKind) : ofCode k.code = k := by
  cases k with
  | token k => simp [ofCode, code, TokenKind.getElem?_all_code]
  | node k => simp [ofCode, code, NodeKind.getElem?_all_code]

/-- Blanks, line breaks and comments. -/
def isTrivia : ElementKind → Bool
  | .token k => k.isTrivia
  | .node _ => false

/-- Whether this is the kind of a leaf. -/
def isToken : ElementKind → Bool
  | .token _ => true
  | .node _ => false

/-- Whether this is the kind of a node. -/
def isNode (k : ElementKind) : Bool := !k.isToken

end ElementKind

end CRBasic
