import CRBasic.Grammar.Expression

/-!
# Declarations

Variables, constants, aliases and units, and the parts that they share with procedures: type
annotations and parameter lists.
-/

namespace CRBasic

namespace Grammar

open Parsing Parsing.Script

/-- A type annotation: `As`, a type name, and the length of a string after a star. -/
def typeReference : Script Unit := node .typeRef do
  take
  named .typeName do
    take
    if ← eat .star then expression

/-- A type annotation, if there is one. -/
def typeAnnotation : Script Unit := do
  if (← onLine) == some .kwAs then typeReference

/-- Items in parentheses with commas between them, or none; read from the opening parenthesis. -/
def parenthesized {α : Type} (kind : NodeKind) (item : Script α) : Script Unit := node kind do
  take
  unless (← onLine) == some .rParen do
    let _ ← separated item
  want .rParen

/-- A declared name with its dimensions and type. -/
def declarator : Script Unit := node .declarator <| named .variableName do
  identifier
  if (← onLine) == some .lParen then parenthesized .dimensionList expression
  typeAnnotation

/-- The form `Public a, b(3) As Long`, or the same with `Dim`. -/
def variableDeclaration : Script Unit := node .variableDecl do
  take
  let _ ← separated declarator
  lineEnd

/-- The form `Const Name As Type = value`. -/
def constantDeclaration : Script Unit := node .constDecl do
  take
  named .constantName identifier
  typeAnnotation
  if ← expect .eq then expression
  lineEnd

/-- The form `ConstTable` … `EndConstTable`. -/
def constantTable : Script Unit := node .constTableDecl do
  take
  if (← onLine) == some .lParen then arguments
  blockTail .kwConstTable .kwEndConstTable

/-- The form `Alias Element = Name`. -/
def aliasDeclaration : Script Unit := node .aliasDecl do
  take
  named .aliasedVariable nameReference
  if ← expect .eq then named .aliasName identifier
  lineEnd

/-- The form `Units Name = text`. -/
def unitsDeclaration : Script Unit := node .unitsDecl do
  take
  named .variableName nameReference
  if ← expect .eq then
    unless ← eat .unitsText do report .here (.missingPart .unitsText)
  lineEnd

/-- A parameter: a name, a pair of parentheses if it is an array, and a type. -/
def parameter : Script Unit := node .param do
  match ← onLine with
  | some .ident =>
    identifier
    if ← eat .lParen then want .rParen
    typeAnnotation
  | found =>
    report .here (.missingPart .parameterName)
    match found with
    | none | some .comma | some .rParen => pure ()
    | some _ => oneWord .errorNode

/-- A parameter list, read from its opening parenthesis on. -/
def parameterList : Script Unit := parenthesized .paramList parameter

end Grammar

end CRBasic
