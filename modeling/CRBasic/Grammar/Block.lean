import CRBasic.Grammar.Declaration

/-!
# Blocks

The program and its procedures, control flow, measurement scheduling, menus and data tables.
-/

namespace CRBasic

namespace Grammar

open Parsing Parsing.Script

/-! ### The program and its procedures -/

/-- The form `BeginProg` … `EndProg`. -/
def program : Script Unit := node .program do
  take
  blockTail .kwBeginProg .kwEndProg

/-- The name of a procedure and its parameters. -/
def procedureHeader (part : Part) : Script Unit := do
  named part identifier
  if (← onLine) == some .lParen then parameterList

/-- The form `Function Name(parameters) As Type` … `EndFunction`. -/
def functionDeclaration : Script Unit := node .functionDecl do
  take
  procedureHeader .functionName
  typeAnnotation
  blockTail .kwFunction .kwEndFunction

/-- The form `Sub Name(parameters)` … `EndSub`. -/
def subroutineDeclaration : Script Unit := node .subDecl do
  take
  procedureHeader .subroutineName
  blockTail .kwSub .kwEndSub

/-! ### Conditions -/

/-- The words that end a branch of an `If` block. -/
def branchStops : List TokenKind := [.kwElseIf, .kwElse, .kwEndIf]

/-- A condition with its `Then`. -/
def condition : Script Unit := do
  expression
  want .kwThen

/-- The rest of a branch of an `If` block from its condition on. -/
def conditionalBranch : Script Unit := do
  condition
  lineEnd
  blockBody branchStops

/-- A branch that starts with `ElseIf`, or with `Else If` on one line. -/
def elseIfBranch : Script (Option Unit) := do
  match ← current with
  | some .kwElseIf =>
    node .elseIfClause do
      take
      conditionalBranch
    return some ()
  | some .kwElse =>
    if (← secondOnLine) == some .kwIf then
      node .elseIfClause do
        take
        take
        conditionalBranch
      return some ()
    else return none
  | _ => return none

/-- An `If` whose `Then` is followed by a statement on the same line. -/
def oneLineBranches : Script Unit := do
  inlineBody [.kwElse]
  if (← onLine) == some .kwElse then
    node .elseClause do
      take
      inlineBody []

/-- The branches and the end of an `If` block. -/
def blockBranches : Script Unit := do
  lineEnd
  blockBody branchStops
  let _ ← collect elseIfBranch
  if (← current) == some .kwElse then
    node .elseClause do
      take
      lineEnd
      blockBody [.kwEndIf]
  blockEnd .kwEndIf .kwIf

/-- An `If` in either form. -/
def ifStatement : Script Unit := node .ifStmt do
  take
  condition
  if (← singleLineIf) && !(← statementEnds) then oneLineBranches
  else blockBranches

/-! ### Loops -/

/-- The variable of a `For` loop: its name, if there is one. -/
def loopVariable : Script (Option (List Char)) := do
  if (← onLine) == some .ident then
    let name ← text
    nameReference
    return some name
  else
    report .here (.missingPart .loopVariable)
    return none

/-- The bounds of a `For` loop. -/
def loopBounds : Script Unit := do
  if ← expect .eq then
    expression
    if ← expect .kwTo then
      expression
      if ← eat .kwStep then expression

/-- Whether two names are the same but for the case of their letters. -/
def sameName (a b : List Char) : Bool := a.map Char.toLower == b.map Char.toLower

/-- The name after `Next`, if there is one: it should be that of the loop variable. -/
def closingVariable (name? : Option (List Char)) : Script Unit := do
  if (← onLine) == some .ident then
    within .measured do
      let closing ← text
      nameReference
      match name? with
      | none => pure ()
      | some name =>
        unless sameName name closing do
          report (.between (.startAfter 0) (.endOf 1)) (.loopVariableMismatch name closing)

/-- The form `For v = a To b Step c` … `Next v`. -/
def forLoop : Script Unit := node .forLoop do
  take
  let name? ← loopVariable
  loopBounds
  lineEnd
  blockBody [.kwNext]
  if ← terminator .kwNext .kwFor then
    closingVariable name?
    lineEnd

/-- The form `While c` … `Wend`. -/
def whileLoop : Script Unit := node .whileLoop do
  take
  expression
  blockTail .kwWhile .kwWend

/-- A condition after `While` or `Until`, if there is one. -/
def loopCondition : Script Unit := do
  match ← onLine with
  | some .kwWhile | some .kwUntil =>
    take
    expression
  | _ => pure ()

/-- The form `Do` … `Loop`, with a condition after either word. -/
def doLoop : Script Unit := node .doLoop do
  take
  loopCondition
  lineEnd
  blockBody [.kwLoop]
  if ← terminator .kwLoop .kwDo then
    loopCondition
    lineEnd

/-! ### Selection -/

/-- The words that end a branch of a `Select` block. -/
def caseStops : List TokenKind := [.kwCase, .kwEndSelect]

/-- A value of a branch, or a range of values. -/
def caseValue : Script Unit := do
  expression
  if ← eat .kwTo then expression

/-- What a branch applies to: everything else, a comparison, or values. -/
def caseSelector : Script Unit := do
  match ← onLine with
  | some .kwElse => take
  | some .kwIs =>
    take
    if (← onLine).any (·.isComparison) then take
    expression
  | _ =>
    let _ ← separated caseValue

/-- A branch of a `Select` block. -/
def caseClause : Script Unit := node .caseClause do
  take
  caseSelector
  lineEnd
  blockBody caseStops

/-- A branch, or words that belong to none, which are skipped. -/
def caseOrSkipped : Script (Option Unit) := do
  match ← current with
  | none | some .kwEndSelect => return none
  | some .kwCase =>
    caseClause
    return some ()
  | some _ =>
    if ← atStop then return none
    else
      report .word (.missingPart .caseClause)
      skipWords
      return some ()

/-- The form `Select Case subject` … `EndSelect`. -/
def selectStatement : Script Unit := node .selectStmt do
  take
  want .kwCase
  expression
  lineEnd
  let _ ← collect caseOrSkipped
  blockEnd .kwEndSelect .kwSelect

/-! ### Instructions that open blocks -/

/-- The arguments of an instruction, which should be at least `least` and at most `most`. -/
def instructionArguments (instruction : TokenKind) (least most : Nat) :
    Script (List Argument) := do
  if (← onLine) == some .lParen then
    let args ← argumentList
    let found := args.items.length
    unless least ≤ found && found ≤ most do
      report (.between args.start args.stop) (.argumentCount instruction least most found)
    return args.items
  else
    report .here (.missingArguments instruction)
    return []

/-- The second argument of a scan tells the units of the first, by a name. -/
def checkScanUnits : List Argument → Script Unit
  | _ :: units :: _ => do
    unless units.isName do report (.between units.start units.stop) .scanUnitsNotName
  | _ => pure ()

/-- The arguments of a scan. -/
def scanArguments (instruction : TokenKind) (least most : Nat) : Script Unit :=
  within .measured do
    let args ← instructionArguments instruction least most
    checkScanUnits args

/-- The form `Scan(interval, units, buffers, count)` … `NextScan`. -/
def scanStatement : Script Unit := node .scanStmt do
  take
  scanArguments .kwScan 4 4
  blockTail .kwScan .kwNextScan

/-- The form `SubScan(interval, units, count)` … `NextSubScan`, where the count may be left out. -/
def subScanStatement : Script Unit := node .subScanStmt do
  take
  scanArguments .kwSubScan 2 3
  blockTail .kwSubScan .kwNextSubScan

/-- The form `SlowSequence` … `EndSequence`. -/
def slowSequence : Script Unit := node .slowSequenceStmt do
  take
  blockTail .kwSlowSequence .kwEndSequence

/-- A menu: `DisplayMenu` … `EndMenu`, or `SubMenu` … `EndSubMenu`. -/
def menu (kind : NodeKind) (opener kindOfEnd : TokenKind) : Script Unit := node kind do
  take
  if (← onLine) == some .lParen then arguments
  blockTail opener kindOfEnd

/-- The form `MenuItem "name", Variable`, where parentheses may enclose the two. -/
def menuItem : Script Unit := node .menuItem do
  take
  let enclosed ← eat .lParen
  if (← onLine) == some .quotedString then expression
  else report .here (.missingPart .menuItemName)
  let _ ← eat .comma
  named .menuItemVariable nameReference
  if enclosed then want .rParen
  lineEnd

/-- The form `DataTable(name, trigger, size)` … `EndTable`. -/
def dataTable : Script Unit := node .dataTableStmt do
  take
  within .measured do
    let _ ← instructionArguments .kwDataTable 3 3
  blockTail .kwDataTable .kwEndTable

/-- The form `CallTable Name`, where parentheses may enclose the name. -/
def callTable : Script Unit := node .callTableStmt do
  take
  let enclosed ← eat .lParen
  named .tableName identifier
  if enclosed then want .rParen
  lineEnd

end Grammar

end CRBasic
