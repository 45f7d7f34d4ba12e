import CRBasic.Lexer.Lexeme
import CRBasic.Text.LineIndex

/-!
# Diagnostics

A problem has a cause and a place.  Causes are data; `Cause.message` holds the wording of every
one.  A diagnostic is a problem whose place is known in bytes as well as in lines and columns.
-/

namespace CRBasic

/-- Which part of reading a text found a problem. -/
inductive DiagnosticKind where
  /-- A lexeme in no class. -/
  | lexical
  /-- A lexeme that does not fit the grammar, or one that is missing. -/
  | grammatical
  deriving DecidableEq, Repr

namespace DiagnosticKind

/-- The identifier of a kind in listings. -/
def name : DiagnosticKind → String
  | .lexical => "LexError"
  | .grammatical => "SyntaxError"

/-- What a written diagnostic calls the kind. -/
def display : DiagnosticKind → String
  | .lexical => "lex error"
  | .grammatical => "syntax error"

end DiagnosticKind

/-- A part that a construct needs and the text does not have. -/
inductive Part where
  | expression | nameAfterDot | assignmentOperator | exitedBlock | procedureName | symbolName
  | fileName | functionName | subroutineName | loopVariable | caseClause | menuItemName
  | menuItemVariable | tableName | variableName | typeName | constantName | aliasedVariable
  | aliasName | unitsText | parameterName
  deriving DecidableEq, Repr

/-- How a message names a part. -/
def Part.description : Part → String
  | .expression => "expression"
  | .nameAfterDot => "name after `.`"
  | .assignmentOperator => "assignment operator"
  | .exitedBlock => "block kind after `Exit`"
  | .procedureName => "procedure name"
  | .symbolName => "symbol name"
  | .fileName => "file name string"
  | .functionName => "function name"
  | .subroutineName => "subroutine name"
  | .loopVariable => "loop variable"
  | .caseClause => "`Case`"
  | .menuItemName => "menu item name"
  | .menuItemVariable => "menu item variable"
  | .tableName => "table name"
  | .variableName => "variable name"
  | .typeName => "type name"
  | .constantName => "constant name"
  | .aliasedVariable => "variable to alias"
  | .aliasName => "alias name"
  | .unitsText => "units text"
  | .parameterName => "parameter name"

/-- Why a text is in error. -/
inductive Cause where
  /-- A character that starts no lexeme. -/
  | invalidCharacter
  /-- A string whose line ends before its closing quote. -/
  | unclosedString
  /-- A number that runs into a name or another number. -/
  | malformedNumber
  /-- Nesting beyond the limit. -/
  | nestingTooDeep
  /-- A lexeme of some kind is missing. -/
  | missing (kind : TokenKind)
  /-- A part of a construct is missing. -/
  | missingPart (part : Part)
  /-- The argument list of an instruction is missing. -/
  | missingArguments (instruction : TokenKind)
  /-- A block has no terminator. -/
  | unclosedBlock (terminator opener : TokenKind)
  /-- A lexeme of this kind starts no statement. -/
  | unexpected (found : TokenKind)
  /-- A statement ends before its line does. -/
  | trailing (found : TokenKind)
  /-- The name after `Next` is not the loop variable. -/
  | loopVariableMismatch (expected found : List Char)
  /-- The second argument of a scan is not a name. -/
  | scanUnitsNotName
  /-- An instruction takes another number of arguments. -/
  | argumentCount (instruction : TokenKind) (least most found : Nat)
  deriving DecidableEq, Repr

namespace Cause

/-- The part of reading that finds the cause. -/
def kind : Cause → DiagnosticKind
  | .invalidCharacter | .unclosedString | .malformedNumber => .lexical
  | _ => .grammatical

/-- A count that is at least `least` and at most `most`, in words. -/
def countText (least most : Nat) : String :=
  if least = most then toString least
  else if most = least + 1 then toString least ++ " or " ++ toString most
  else toString least ++ " to " ++ toString most

/-- The wording of each cause. -/
def message : Cause → String
  | .invalidCharacter => "invalid character"
  | .unclosedString => "unterminated string literal"
  | .malformedNumber => "malformed numeric literal"
  | .nestingTooDeep => "nesting too deep"
  | .missing k => "expected " ++ k.displayName
  | .missingPart p => "expected " ++ p.description
  | .missingArguments k => "expected `(` after " ++ k.displayName
  | .unclosedBlock t o => "expected " ++ t.displayName ++ " to close " ++ o.displayName
  | .unexpected k => "unexpected " ++ k.displayName
  | .trailing k => "expected end of line, found " ++ k.displayName
  | .loopVariableMismatch e f =>
    "loop variable mismatch: expected `" ++ String.ofList e ++
      "`, found `" ++ String.ofList f ++ "`"
  | .scanUnitsNotName => "scan interval units must be an identifier"
  | .argumentCount k least most found =>
    k.displayName ++ " expects " ++ countText least most ++ " arguments, found " ++ toString found

/-- Why a text is no lexeme of any class: a quote opens a string, a digit starts a number, and so do
a point and an ampersand with more after them. -/
def ofErrorText : List Char → Cause
  | '\x22' :: _ => .unclosedString
  | c :: rest =>
    if c.isDigit then .malformedNumber
    else if (c = '.' ∨ c = '&') ∧ rest ≠ [] then .malformedNumber
    else .invalidCharacter
  | [] => .invalidCharacter

end Cause

/-- A cause and its place in bytes. -/
structure Problem where
  cause : Cause
  range : ByteRange
  deriving DecidableEq, Repr

/-- A cause and its place in bytes, lines and columns. -/
structure Diagnostic where
  cause : Cause
  /-- Where it is. -/
  span : Span
  deriving DecidableEq, Repr

namespace Diagnostic

/-- The part of reading that found the problem. -/
def kind (d : Diagnostic) : DiagnosticKind := d.cause.kind

/-- The wording of the problem. -/
def message (d : Diagnostic) : String := d.cause.message

/-- The place of the problem in bytes. -/
def range (d : Diagnostic) : ByteRange := d.span.range

/-- The written form: kind, position and wording. -/
def display (d : Diagnostic) : String :=
  d.kind.display ++ " at " ++ d.span.display ++ ": " ++ d.message

end Diagnostic

namespace Problem

/-- Looks up the place of a problem. -/
def resolve (index : LineIndex) (p : Problem) : Diagnostic := ⟨p.cause, .ofRange index p.range⟩

/-- The problem of a lexeme in no class that starts at an offset. -/
def ofLexeme? (offset : Nat) (x : Lexeme) : Option Problem :=
  if x.kind = .error then some ⟨.ofErrorText x.text, (x.token offset).range⟩ else none

/-- The problems of lexemes that stand one after the other from an offset on. -/
def ofLexemes (offset : Nat) : List Lexeme → List Problem
  | [] => []
  | x :: xs => (ofLexeme? offset x).toList ++ ofLexemes (offset + byteLength x.text) xs

/-- Puts a problem before the first one that does not start before it. -/
def insertByStart (p : Problem) : List Problem → List Problem
  | [] => [p]
  | q :: qs => if p.range.start ≤ q.range.start then p :: q :: qs else q :: insertByStart p qs

/-- Orders problems by where they start; those that start together keep their order. -/
def sortByStart : List Problem → List Problem
  | [] => []
  | p :: ps => insertByStart p (sortByStart ps)

end Problem

end CRBasic
