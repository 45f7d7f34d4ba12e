/-!
# Kinds of token

The classes of lexeme of CRBasic, in the order that gives each its number: blanks and comments,
punctuation, operators, keywords, directive markers, literals and names, and the two special
kinds.  The file also holds what the grammar asks of a kind: its spelling, the name used for it in
messages, the class tests, and how tightly an operator binds.
-/

namespace CRBasic

/-- The class of a lexeme. -/
inductive TokenKind where
  -- blanks, line breaks and comments
  | whitespace | newline | comment
  -- punctuation
  | lParen | rParen | comma | dot
  -- assignment operators
  | eq | starEq | plusEq | minusEq | slashEq | backslashEq | caretEq | ampEq
  -- arithmetic operators
  | plus | minus | star | slash | backslash | caret
  -- comparison operators
  | lt | gt | ltEq | gtEq | neq
  -- bitwise operators
  | amp | pipe | bang | shl | shr
  -- keywords: procedures
  | kwBeginProg | kwEndProg | kwFunction | kwEndFunction | kwSub | kwEndSub | kwReturn | kwExit
  | kwCall
  -- keywords: control flow
  | kwIf | kwThen | kwElseIf | kwElse | kwEndIf | kwFor | kwTo | kwStep | kwNext | kwWhile
  | kwWend | kwDo | kwLoop | kwUntil | kwSelect | kwCase | kwIs | kwEndSelect
  -- keywords: measurement scheduling
  | kwScan | kwNextScan | kwSubScan | kwNextSubScan | kwSlowSequence | kwEndSequence
  -- keywords: menus
  | kwDisplayMenu | kwEndMenu | kwSubMenu | kwEndSubMenu | kwMenuItem
  -- keywords: data tables
  | kwDataTable | kwEndTable | kwCallTable
  -- keywords: declarations
  | kwPublic | kwDim | kwConst | kwConstTable | kwEndConstTable | kwAlias | kwUnits | kwAs
  -- keywords: operators
  | kwMod | kwIntdv | kwAnd | kwOr | kwXor | kwImp | kwNot
  -- keywords: literals and directives
  | kwTrue | kwFalse | kwInclude
  -- directive markers
  | ppIf | ppIfDef | ppElseIf | ppElse | ppEndIf | ppUndef
  -- literals and names
  | number | quotedString | unitsText | ident
  -- text in no class, and the end of the input
  | error | eof
  deriving DecidableEq, Repr

/-- A text of which nothing is known is in no class. -/
instance : Inhabited TokenKind := ⟨.error⟩

namespace TokenKind

/-- Every kind, in the order of the kinds' numbers. -/
def all : List TokenKind :=
  [.whitespace, .newline, .comment, .lParen, .rParen, .comma, .dot, .eq, .starEq, .plusEq,
   .minusEq, .slashEq, .backslashEq, .caretEq, .ampEq, .plus, .minus, .star, .slash, .backslash,
   .caret, .lt, .gt, .ltEq, .gtEq, .neq, .amp, .pipe, .bang, .shl, .shr, .kwBeginProg, .kwEndProg,
   .kwFunction, .kwEndFunction, .kwSub, .kwEndSub, .kwReturn, .kwExit, .kwCall, .kwIf, .kwThen,
   .kwElseIf, .kwElse, .kwEndIf, .kwFor, .kwTo, .kwStep, .kwNext, .kwWhile, .kwWend, .kwDo,
   .kwLoop, .kwUntil, .kwSelect, .kwCase, .kwIs, .kwEndSelect, .kwScan, .kwNextScan, .kwSubScan,
   .kwNextSubScan, .kwSlowSequence, .kwEndSequence, .kwDisplayMenu, .kwEndMenu, .kwSubMenu,
   .kwEndSubMenu, .kwMenuItem, .kwDataTable, .kwEndTable, .kwCallTable, .kwPublic, .kwDim,
   .kwConst, .kwConstTable, .kwEndConstTable, .kwAlias, .kwUnits, .kwAs, .kwMod, .kwIntdv, .kwAnd,
   .kwOr, .kwXor, .kwImp, .kwNot, .kwTrue, .kwFalse, .kwInclude, .ppIf, .ppIfDef, .ppElseIf,
   .ppElse, .ppEndIf, .ppUndef, .number, .quotedString, .unitsText, .ident, .error, .eof]

/-- The number of a kind: its place in `all`. -/
def code (k : TokenKind) : Nat := k.ctorIdx

theorem getElem?_all_code (k : TokenKind) : all[k.code]? = some k := by cases k <;> rfl

theorem code_lt (k : TokenKind) : k.code < all.length := by cases k <;> decide

/-- The identifier of a kind in listings of tokens and trees. -/
def name : TokenKind → String
  | .whitespace => "Whitespace"
  | .newline => "Newline"
  | .comment => "Comment"
  | .lParen => "LParen"
  | .rParen => "RParen"
  | .comma => "Comma"
  | .dot => "Dot"
  | .eq => "Eq"
  | .starEq => "StarEq"
  | .plusEq => "PlusEq"
  | .minusEq => "MinusEq"
  | .slashEq => "SlashEq"
  | .backslashEq => "BackslashEq"
  | .caretEq => "CaretEq"
  | .ampEq => "AmpEq"
  | .plus => "Plus"
  | .minus => "Minus"
  | .star => "Star"
  | .slash => "Slash"
  | .backslash => "Backslash"
  | .caret => "Caret"
  | .lt => "Lt"
  | .gt => "Gt"
  | .ltEq => "LtEq"
  | .gtEq => "GtEq"
  | .neq => "Neq"
  | .amp => "Amp"
  | .pipe => "Pipe"
  | .bang => "Bang"
  | .shl => "Shl"
  | .shr => "Shr"
  | .kwBeginProg => "KwBeginProg"
  | .kwEndProg => "KwEndProg"
  | .kwFunction => "KwFunction"
  | .kwEndFunction => "KwEndFunction"
  | .kwSub => "KwSub"
  | .kwEndSub => "KwEndSub"
  | .kwReturn => "KwReturn"
  | .kwExit => "KwExit"
  | .kwCall => "KwCall"
  | .kwIf => "KwIf"
  | .kwThen => "KwThen"
  | .kwElseIf => "KwElseIf"
  | .kwElse => "KwElse"
  | .kwEndIf => "KwEndIf"
  | .kwFor => "KwFor"
  | .kwTo => "KwTo"
  | .kwStep => "KwStep"
  | .kwNext => "KwNext"
  | .kwWhile => "KwWhile"
  | .kwWend => "KwWend"
  | .kwDo => "KwDo"
  | .kwLoop => "KwLoop"
  | .kwUntil => "KwUntil"
  | .kwSelect => "KwSelect"
  | .kwCase => "KwCase"
  | .kwIs => "KwIs"
  | .kwEndSelect => "KwEndSelect"
  | .kwScan => "KwScan"
  | .kwNextScan => "KwNextScan"
  | .kwSubScan => "KwSubScan"
  | .kwNextSubScan => "KwNextSubScan"
  | .kwSlowSequence => "KwSlowSequence"
  | .kwEndSequence => "KwEndSequence"
  | .kwDisplayMenu => "KwDisplayMenu"
  | .kwEndMenu => "KwEndMenu"
  | .kwSubMenu => "KwSubMenu"
  | .kwEndSubMenu => "KwEndSubMenu"
  | .kwMenuItem => "KwMenuItem"
  | .kwDataTable => "KwDataTable"
  | .kwEndTable => "KwEndTable"
  | .kwCallTable => "KwCallTable"
  | .kwPublic => "KwPublic"
  | .kwDim => "KwDim"
  | .kwConst => "KwConst"
  | .kwConstTable => "KwConstTable"
  | .kwEndConstTable => "KwEndConstTable"
  | .kwAlias => "KwAlias"
  | .kwUnits => "KwUnits"
  | .kwAs => "KwAs"
  | .kwMod => "KwMod"
  | .kwIntdv => "KwIntdv"
  | .kwAnd => "KwAnd"
  | .kwOr => "KwOr"
  | .kwXor => "KwXor"
  | .kwImp => "KwImp"
  | .kwNot => "KwNot"
  | .kwTrue => "KwTrue"
  | .kwFalse => "KwFalse"
  | .kwInclude => "KwInclude"
  | .ppIf => "PpIf"
  | .ppIfDef => "PpIfDef"
  | .ppElseIf => "PpElseIf"
  | .ppElse => "PpElse"
  | .ppEndIf => "PpEndIf"
  | .ppUndef => "PpUndef"
  | .number => "Number"
  | .quotedString => "QuotedString"
  | .unitsText => "UnitsText"
  | .ident => "Ident"
  | .error => "Error"
  | .eof => "Eof"

/-- The kind with a given identifier. -/
def ofName? (s : String) : Option TokenKind := all.find? (·.name == s)

/-- How a kind with one spelling is written; letters may stand in either case. -/
def spelling? : TokenKind → Option String
  | .lParen => some "("
  | .rParen => some ")"
  | .comma => some ","
  | .dot => some "."
  | .eq => some "="
  | .starEq => some "*="
  | .plusEq => some "+="
  | .minusEq => some "-="
  | .slashEq => some "/="
  | .backslashEq => some "\\="
  | .caretEq => some "^="
  | .ampEq => some "&="
  | .plus => some "+"
  | .minus => some "-"
  | .star => some "*"
  | .slash => some "/"
  | .backslash => some "\\"
  | .caret => some "^"
  | .lt => some "<"
  | .gt => some ">"
  | .ltEq => some "<="
  | .gtEq => some ">="
  | .neq => some "<>"
  | .amp => some "&"
  | .pipe => some "|"
  | .bang => some "!"
  | .shl => some "<<"
  | .shr => some ">>"
  | .kwBeginProg => some "BeginProg"
  | .kwEndProg => some "EndProg"
  | .kwFunction => some "Function"
  | .kwEndFunction => some "EndFunction"
  | .kwSub => some "Sub"
  | .kwEndSub => some "EndSub"
  | .kwReturn => some "Return"
  | .kwExit => some "Exit"
  | .kwCall => some "Call"
  | .kwIf => some "If"
  | .kwThen => some "Then"
  | .kwElseIf => some "ElseIf"
  | .kwElse => some "Else"
  | .kwEndIf => some "EndIf"
  | .kwFor => some "For"
  | .kwTo => some "To"
  | .kwStep => some "Step"
  | .kwNext => some "Next"
  | .kwWhile => some "While"
  | .kwWend => some "Wend"
  | .kwDo => some "Do"
  | .kwLoop => some "Loop"
  | .kwUntil => some "Until"
  | .kwSelect => some "Select"
  | .kwCase => some "Case"
  | .kwIs => some "Is"
  | .kwEndSelect => some "EndSelect"
  | .kwScan => some "Scan"
  | .kwNextScan => some "NextScan"
  | .kwSubScan => some "SubScan"
  | .kwNextSubScan => some "NextSubScan"
  | .kwSlowSequence => some "SlowSequence"
  | .kwEndSequence => some "EndSequence"
  | .kwDisplayMenu => some "DisplayMenu"
  | .kwEndMenu => some "EndMenu"
  | .kwSubMenu => some "SubMenu"
  | .kwEndSubMenu => some "EndSubMenu"
  | .kwMenuItem => some "MenuItem"
  | .kwDataTable => some "DataTable"
  | .kwEndTable => some "EndTable"
  | .kwCallTable => some "CallTable"
  | .kwPublic => some "Public"
  | .kwDim => some "Dim"
  | .kwConst => some "Const"
  | .kwConstTable => some "ConstTable"
  | .kwEndConstTable => some "EndConstTable"
  | .kwAlias => some "Alias"
  | .kwUnits => some "Units"
  | .kwAs => some "As"
  | .kwMod => some "MOD"
  | .kwIntdv => some "INTDV"
  | .kwAnd => some "AND"
  | .kwOr => some "OR"
  | .kwXor => some "XOR"
  | .kwImp => some "IMP"
  | .kwNot => some "NOT"
  | .kwTrue => some "True"
  | .kwFalse => some "False"
  | .kwInclude => some "Include"
  | .ppIf => some "#If"
  | .ppIfDef => some "#IfDef"
  | .ppElseIf => some "#ElseIf"
  | .ppElse => some "#Else"
  | .ppEndIf => some "#EndIf"
  | .ppUndef => some "#UnDef"
  | _ => none

/-- What a message calls a lexeme of this kind: its spelling in backquotes, or a description. -/
def displayName : TokenKind → String
  | .whitespace => "whitespace"
  | .newline => "end of line"
  | .comment => "comment"
  | .number => "number"
  | .quotedString => "string"
  | .unitsText => "units text"
  | .ident => "identifier"
  | .error => "invalid token"
  | .eof => "end of input"
  | k => match k.spelling? with
    | some s => "`" ++ s ++ "`"
    | none => ""

/-! ### Classes -/

/-- Blanks, line breaks and comments: no part of a statement. -/
def isTrivia : TokenKind → Bool
  | .whitespace | .newline | .comment => true
  | _ => false

/-- The keywords are the kinds from `kwBeginProg` to `kwInclude`. -/
def isKeyword (k : TokenKind) : Bool :=
  kwBeginProg.code ≤ k.code && k.code ≤ kwInclude.code

/-- Kinds made of name characters: a number that runs into one of them is malformed. -/
def isWord (k : TokenKind) : Bool := k == ident || k == number || k.isKeyword

/-- `=` and the operators that combine it with another one. -/
def isAssignment : TokenKind → Bool
  | .eq | .starEq | .plusEq | .minusEq | .slashEq | .backslashEq | .caretEq | .ampEq => true
  | _ => false

/-- `=`, `<>` and the four orderings. -/
def isComparison : TokenKind → Bool
  | .eq | .neq | .lt | .ltEq | .gt | .gtEq => true
  | _ => false

/-- Kinds that may stand first in an expression. -/
def startsExpression : TokenKind → Bool
  | .ident | .number | .quotedString | .kwTrue | .kwFalse
  | .lParen | .minus | .plus | .kwNot | .bang => true
  | _ => false

/-- Kinds that may stand first in a statement. -/
def startsStatement : TokenKind → Bool
  | .ident | .kwBeginProg | .kwFunction | .kwSub | .kwReturn | .kwExit | .kwCall
  | .kwIf | .kwFor | .kwWhile | .kwDo | .kwSelect
  | .kwScan | .kwSubScan | .kwSlowSequence
  | .kwDisplayMenu | .kwSubMenu | .kwMenuItem | .kwDataTable | .kwCallTable
  | .kwPublic | .kwDim | .kwConst | .kwConstTable | .kwAlias | .kwUnits
  | .kwInclude | .ppIf | .ppIfDef | .ppUndef => true
  | _ => false

/-! ### Operators -/

/-- How tightly an infix operator binds to its left and right operands.  The right power is one
more than the left, so every level is left associative. -/
def infixPower? : TokenKind → Option (Nat × Nat)
  | .plus | .minus => some (1, 2)
  | .star | .slash | .backslash | .kwMod | .kwIntdv => some (3, 4)
  | .caret => some (5, 6)
  | .eq | .neq | .lt | .ltEq | .gt | .gtEq => some (7, 8)
  | .kwAnd | .kwOr | .kwXor | .kwImp => some (9, 10)
  | .amp | .pipe => some (11, 12)
  | .shr | .shl => some (13, 14)
  | _ => none

/-- How tightly a sign or a negation binds to its operand: more than any infix operator. -/
def prefixPower? : TokenKind → Option Nat
  | .kwNot | .bang | .plus | .minus => some 15
  | _ => none

theorem infixPower?_right {k : TokenKind} {l r : Nat} (h : k.infixPower? = some (l, r)) :
    r = l + 1 := by
  cases k <;> simp_all [infixPower?] <;> omega

end TokenKind

end CRBasic
