import CRBasic.Grammar.Expression

/-!
# Directives

Conditional compilation and inclusion.  Directives are read but not carried out: all branches of a
condition are statements of the program.
-/

namespace CRBasic

namespace Grammar

open Parsing Parsing.Script

/-- The words that end a branch of a conditional directive. -/
def directiveStops : List TokenKind := [.ppElseIf, .ppElse, .ppEndIf]

/-- A condition, with or without `Then`. -/
def directiveCondition : Script Unit := do
  expression
  let _ ← eat .kwThen

/-- A branch that starts with `#ElseIf`. -/
def directiveElseIf : Script (Option Unit) := do
  if (← current) == some .ppElseIf then
    node .preprocessorElseIf do
      take
      directiveCondition
      lineEnd
      blockBody directiveStops
    return some ()
  else return none

/-- What follows the condition of a conditional directive. -/
def directiveBranches (opener : TokenKind) : Script Unit := do
  lineEnd
  blockBody directiveStops
  let _ ← collect directiveElseIf
  if (← current) == some .ppElse then
    node .preprocessorElse do
      take
      lineEnd
      blockBody [.ppEndIf]
  blockEnd .ppEndIf opener

/-- The form `#If condition` … `#EndIf`. -/
def directiveIf : Script Unit := node .preprocessorIf do
  take
  directiveCondition
  directiveBranches .ppIf

/-- The form `#IfDef Name` … `#EndIf`. -/
def directiveIfDefined : Script Unit := node .preprocessorIfDef do
  take
  named .symbolName identifier
  directiveBranches .ppIfDef

/-- The form `#UnDef Name`. -/
def directiveUndefine : Script Unit := node .preprocessorUndef do
  take
  named .symbolName identifier
  lineEnd

/-- The form `Include "file"`. -/
def inclusion : Script Unit := node .includeDirective do
  take
  if (← onLine) == some .quotedString then expression
  else
    report .here (.missingPart .fileName)
    node .errorNode takeLine
  lineEnd

end Grammar

end CRBasic
