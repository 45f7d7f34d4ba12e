import CRBasic.Grammar.Block
import CRBasic.Grammar.Directive

/-!
# Statements

The first word of a statement tells its form.  A statement takes the rest of its line.
-/

namespace CRBasic

namespace Grammar

open Parsing Parsing.Script

/-- The form `target = value`, with any of the assignment operators. -/
def assignmentStatement : Script Unit := node .assignment do
  nameReference
  if (← onLine).any (·.isAssignment) then take
  else report .here (.missingPart .assignmentOperator)
  expression
  lineEnd

/-- An instruction, with or without arguments. -/
def instruction : Script Unit := do
  identifier
  wrap .functionCall do
    if (← onLine) == some .lParen then arguments
  lineEnd

/-- A statement that starts with a name. -/
def assignmentOrInstruction : Script Unit := do
  if ← atAssignment then assignmentStatement
  else instruction

/-- The form `Return value`, where the value may be left out. -/
def returnStatement : Script Unit := node .returnStmt do
  take
  if (← onLine).any (·.startsExpression) then expression
  lineEnd

/-- The words that may follow `Exit`. -/
def exitTargets : List TokenKind :=
  [.kwFor, .kwDo, .kwWhile, .kwSub, .kwFunction, .kwScan, .kwSelect]

/-- The form `Exit For`, and the same for other blocks. -/
def exitStatement : Script Unit := node .exitStmt do
  take
  if (← onLine).any (exitTargets.contains ·) then take
  else report .here (.missingPart .exitedBlock)
  lineEnd

/-- The form `Call Name(arguments)`. -/
def callStatement : Script Unit := node .callStmt do
  take
  named .procedureName nameReference
  lineEnd

/-- A word that starts no statement.  An error token has its own diagnostic. -/
def unexpectedWord (found : TokenKind) : Script Unit := do
  unless found == .error do report .word (.unexpected found)
  skipWords

/-- The statement that starts with a word of the given kind. -/
def statementOf : TokenKind → Script Unit
  | .kwBeginProg => program
  | .kwFunction => functionDeclaration
  | .kwSub => subroutineDeclaration
  | .kwIf => ifStatement
  | .kwFor => forLoop
  | .kwWhile => whileLoop
  | .kwDo => doLoop
  | .kwSelect => selectStatement
  | .kwScan => scanStatement
  | .kwSubScan => subScanStatement
  | .kwSlowSequence => slowSequence
  | .kwDisplayMenu => menu .menuStmt .kwDisplayMenu .kwEndMenu
  | .kwSubMenu => menu .subMenuStmt .kwSubMenu .kwEndSubMenu
  | .kwMenuItem => menuItem
  | .kwDataTable => dataTable
  | .kwCallTable => callTable
  | .kwPublic | .kwDim => variableDeclaration
  | .kwConst => constantDeclaration
  | .kwConstTable => constantTable
  | .kwAlias => aliasDeclaration
  | .kwUnits => unitsDeclaration
  | .kwReturn => returnStatement
  | .kwExit => exitStatement
  | .kwCall => callStatement
  | .ppIf => directiveIf
  | .ppIfDef => directiveIfDefined
  | .ppUndef => directiveUndefine
  | .kwInclude => inclusion
  | .ident => assignmentOrInstruction
  | found => unexpectedWord found

/-- A statement. -/
def statementRule : Script Unit := do
  listen
  if ← tooDeep then skipDeepStatement
  else
    match ← current with
    | some k => statementOf k
    | none => pure ()

/-- The script of each rule. -/
def script : Rule → Script Unit
  | .statement => statementRule
  | .expression power => expressionRule power

/-- A whole text. -/
def sourceFile : Script Unit := node .sourceFile <|
  whileM (do return (← current).isSome) statement

end Grammar

end CRBasic
