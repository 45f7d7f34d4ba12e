import CRBasic.Grammar.Line

/-!
# Expressions

An expression is read operand by operand.  After an operand an infix operator that binds tightly
enough takes the operand as its left side; its right side is an expression of operators that bind
more tightly.  An expression never goes on past the end of its line.
-/

namespace CRBasic

namespace Grammar

open Parsing Parsing.Script

/-- An expression. -/
def expression : Script Unit := expressionFrom 0

/-! ### Names and arguments -/

/-- A name, with any names that follow it after dots. -/
def identifier : Script Unit := node .identifier do
  take
  let _ ← collect (do
    if ← eat .dot then
      if ← eat .ident then return some ()
      else
        report .here (.missingPart .nameAfterDot)
        return none
    else return none)

/-- An argument of a list. -/
structure Argument where
  start : Edge
  stop : Edge
  isName : Bool
  deriving DecidableEq, Repr

/-- An argument list from its opening parenthesis on. -/
structure Arguments where
  start : Edge
  stop : Edge
  items : List Argument
  deriving DecidableEq, Repr

/-- One argument.  A name that a comma or the closing parenthesis follows is the whole of it. -/
def argument : Script Argument := do
  let start ← here
  let first ← onLine
  let second ← secondOnLine
  expression
  let stop ← behind
  return ⟨start, stop, first == some .ident && (second == some .comma || second == some .rParen)⟩

/-- An argument list, read from its opening parenthesis on. -/
def argumentList : Script Arguments := node .argList do
  let start ← here
  take
  let items ← if (← onLine) == some .rParen then pure [] else separated argument
  want .rParen
  let stop ← behind
  return ⟨start, stop, items⟩

/-- An argument list of which nothing more is asked. -/
def arguments : Script Unit := within .measured do
  let _ ← argumentList

/-- A name; with an argument list after it, a call or an array element. -/
def nameReference : Script Unit := do
  identifier
  if (← onLine) == some .lParen then wrap .functionCall arguments

/-! ### Operands and operators -/

/-- Whether a word that starts no operand is left to what surrounds the expression. -/
def leavesOperand : Option TokenKind → Bool
  | none | some .rParen | some .comma => true
  | some k => k.isKeyword

/-- An operand without a sign.  The result tells whether there is one. -/
def operand : Script Bool := do
  match ← onLine with
  | some .number =>
    oneWord .numberLiteral
    return true
  | some .quotedString =>
    oneWord .stringLiteral
    return true
  | some .kwTrue | some .kwFalse =>
    oneWord .booleanLiteral
    return true
  | some .error =>
    oneWord .errorNode
    return true
  | some .ident =>
    nameReference
    return true
  | some .lParen =>
    node .parenExpr do
      take
      expression
      want .rParen
    return true
  | found =>
    report .here (.missingPart .expression)
    if leavesOperand found || (← atStop) then return false
    else
      oneWord .errorNode
      return true

/-- The infix operators after an operand, each with its right side, as long as their left power is
at least the given one. -/
def operators (power : Nat) : Script Unit := do
  let _ ← collect (do
    match (← onLine).bind (·.infixPower?) with
    | none => return none
    | some (left, right) =>
      if left < power then return none
      else
        wrap .binaryExpr do
          take
          expressionFrom right
        return some ())

/-- An expression whose infix operators have at least the given left power. -/
def expressionRule (power : Nat) : Script Unit := do
  if ← tooDeep then skipDeepExpression
  else
    within .nested do
      match (← onLine).bind (·.prefixPower?) with
      | some right =>
        node .unaryExpr do
          take
          expressionFrom right
        operators power
      | none =>
        if ← operand then operators power

end Grammar

end CRBasic
