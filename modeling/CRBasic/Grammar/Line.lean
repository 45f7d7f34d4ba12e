import CRBasic.Parsing.Script

/-!
# Lines

What all statements share: taking one expected word, ending with the line, skipping what does not
fit, and the bodies of blocks.
-/

namespace CRBasic

namespace Grammar

open Parsing Parsing.Script

/-! ### Single words -/

/-- Takes the next word if it has the given kind and does not start a line. -/
def eat (kind : TokenKind) : Script Bool := do
  if (← onLine) == some kind then
    take
    return true
  else return false

/-- Takes the next word if it has the given kind and does not start a line, and reports it missing
otherwise. -/
def expect (kind : TokenKind) : Script Bool := do
  if ← eat kind then return true
  else
    report .here (.missing kind)
    return false

/-- Like `expect`, where nothing depends on whether the word is there. -/
def want (kind : TokenKind) : Script Unit := do
  let _ ← expect kind

/-- Goes on with a script that starts with a name, or reports that a part is missing. -/
def named (part : Part) (body : Script Unit) : Script Unit := do
  if (← onLine) == some .ident then body
  else report .here (.missingPart part)

/-- A node of one word. -/
def oneWord (kind : NodeKind) : Script Unit := node kind take

/-- One or more items with commas between them. -/
def separated {α : Type} (item : Script α) : Script (List α) := do
  let first ← item
  let more ← collect (do
    if ← eat .comma then
      let next ← item
      return some next
    else return none)
  return first :: more

/-! ### Ends of lines -/

/-- Whether the next word cannot belong to the statement: it starts a line, or ends the statements
of an open block. -/
def statementEnds : Script Bool := do
  if (← onLine).isNone then return true
  else atStop

/-- Takes all words that can belong to the statement. -/
def takeLine : Script Unit :=
  whileM (do return !(← statementEnds)) take

/-- Ends a line.  What is left of it is put into an error node and reported, unless it starts with
an error token, which has its own diagnostic. -/
def lineEnd : Script Unit := do
  unless ← statementEnds do
    match ← current with
    | none | some .error => pure ()
    | some found => report .here (.trailing found)
    node .errorNode takeLine
  listen

/-! ### Recovery -/

/-- Whether the next word starts a statement of its own, other than by a mere name. -/
def startsAnotherStatement : Script Bool := do
  match ← current with
  | some k => return k.startsStatement && k != .ident
  | none => return false

/-- Puts the next word into an error node, with what follows it up to the end of the statement or
the start of another one. -/
def skipWords : Script Unit := node .errorNode do
  take
  whileM (do return !((← statementEnds) || (← startsAnotherStatement))) take

/-- Reports the nesting limit before a statement and skips the statement's line. -/
def skipDeepStatement : Script Unit := do
  report .word .nestingTooDeep
  node .errorNode do
    take
    takeLine

/-- Reports the nesting limit before an expression and skips the rest of its line.  The problems
that this causes in the constructs around it are passed over. -/
def skipDeepExpression : Script Unit := do
  report .here .nestingTooDeep
  node .errorNode do
    silence
    takeLine

/-! ### Blocks -/

/-- The statements of a block, up to a word that ends them or those of a block around it. -/
def blockBody (stops : List TokenKind) : Script Unit :=
  node .stmtList <| within (.stopAt stops) <| within .nested <|
    whileM (do return (← current).isSome && !(← atStop)) statement

/-- At most one statement, on the line of the words before it. -/
def inlineBody (stops : List TokenKind) : Script Unit :=
  node .stmtList <| within (.stopAt stops) <| within .nested do
    unless ← statementEnds do statement

/-- Takes the word that ends a block, on whatever line it stands, or reports it missing. -/
def terminator (kind opener : TokenKind) : Script Bool := do
  if (← current) == some kind then
    take
    return true
  else
    report .word (.unclosedBlock kind opener)
    return false

/-- Ends a block, and the line of the word that ends it. -/
def blockEnd (kind opener : TokenKind) : Script Unit := do
  if ← terminator kind opener then lineEnd

/-- Ends the first line of a block, and reads its body and its end. -/
def blockTail (opener kind : TokenKind) : Script Unit := do
  lineEnd
  blockBody [kind]
  blockEnd kind opener

end Grammar

end CRBasic
