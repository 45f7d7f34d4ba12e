import CRBasic.Token.Kind
import CRBasic.Lexer.Pattern

/-!
# The lexical rules

One pattern for each class of lexeme.  Of the rules that match at the start of a text the one with
the longest match wins, and of several equally long matches the rule that stands first: so a
keyword wins against a name, and a closed string against an open one.
-/

namespace CRBasic

namespace Lexer

open Pattern

/-! ### Patterns of the classes without a fixed spelling -/

/-- Spaces, tabs and form feeds. -/
def blanks : Pattern := plus (chars [' ', '\t', '\x0c'])

/-- A carriage return, a line feed, or the two together. -/
def lineBreak : Pattern :=
  anyOf [sequence [chars ['\r'], chars ['\n']], chars ['\n'], chars ['\r']]

/-- An apostrophe and the rest of its line. -/
def commentText : Pattern := sequence [chars ['\x27'], star (.oneOf (.allBut ['\r', '\n']))]

/-- A name starts with a letter or an underscore and goes on with these and digits. -/
def nameText : Pattern := sequence [.oneOf .nameStart, star (.oneOf .nameRest)]

/-- The suffixes of a number for an unsigned and a long integer, together and in either order. -/
def longSuffixes : List Pattern :=
  [sequence [chars ['u', 'U'], chars ['l', 'L']], sequence [chars ['l', 'L'], chars ['u', 'U']]]

/-- A suffix of a decimal or binary number, which may also ask for a float. -/
def numberSuffix : Pattern := anyOf (longSuffixes ++ [chars ['l', 'L', 'u', 'U', 'f', 'F']])

/-- A suffix of a hexadecimal number, where `F` is a digit. -/
def hexSuffix : Pattern := anyOf (longSuffixes ++ [chars ['l', 'L', 'u', 'U']])

def digits : Pattern := plus (.oneOf .digit)

def exponent : Pattern := sequence [chars ['e', 'E'], optional (chars ['+', '-']), digits]

/-- Binary numbers, such as `&b101`. -/
def binaryNumber : Pattern :=
  sequence [chars ['&'], chars ['b', 'B'], plus (chars ['0', '1']), optional numberSuffix]

/-- Hexadecimal numbers, such as `&hFF`. -/
def hexNumber : Pattern :=
  sequence [chars ['&'], chars ['h', 'H'], plus (.oneOf .hexDigit), optional hexSuffix]

/-- Decimal numbers that start with a digit, such as `42`, `3.5` and `1.e-3`. -/
def decimalNumber : Pattern :=
  sequence [digits, optional (sequence [chars ['.'], star (.oneOf .digit)]), optional exponent,
    optional numberSuffix]

/-- Decimal numbers that start with the point, such as `.5`. -/
def fractionNumber : Pattern :=
  sequence [chars ['.'], digits, optional exponent, optional numberSuffix]

/-- A double quote and what may follow it in a string: a backslash joins the character after it. -/
def openString : Pattern :=
  sequence [chars ['\x22'],
    star (.either (.oneOf (.allBut ['\x22', '\\', '\r', '\n']))
      (sequence [chars ['\\'], .oneOf (.allBut ['\r', '\n'])]))]

/-- A string with both of its quotes. -/
def closedString : Pattern := sequence [openString, chars ['\x22']]

/-- A string whose line ends before the closing quote, perhaps just after a backslash. -/
def unclosedString : Pattern := sequence [openString, optional (chars ['\\'])]

/-! ### The rules -/

/-- A rule: texts that match the pattern are lexemes of the kind. -/
structure Rule where
  kind : TokenKind
  pattern : Pattern
  deriving DecidableEq, Repr

/-- The rules of the kinds with one spelling: in either case for letters. -/
def spelledRules : List Rule :=
  TokenKind.all.filterMap fun k => k.spelling?.map fun s => ⟨k, caseless s⟩

/-- All rules, the first of equals first. -/
def rules : List Rule :=
  spelledRules ++
    [⟨.whitespace, blanks⟩, ⟨.newline, lineBreak⟩, ⟨.comment, commentText⟩,
     ⟨.number, binaryNumber⟩, ⟨.number, hexNumber⟩, ⟨.number, decimalNumber⟩,
     ⟨.number, fractionNumber⟩, ⟨.quotedString, closedString⟩, ⟨.ident, nameText⟩,
     ⟨.error, unclosedString⟩]

/-- The better of a match found so far and the match of one more rule. -/
def better (best : Option (TokenKind × Nat)) (text : List Char) (r : Rule) :
    Option (TokenKind × Nat) :=
  match best, r.pattern.longest text with
  | none, some n => some (r.kind, n)
  | some (k, m), some n => if m < n then some (r.kind, n) else some (k, m)
  | best, none => best

/-- The kind and length of the longest match of any rule at the start of a text. -/
def longestMatch (text : List Char) : Option (TokenKind × Nat) :=
  rules.foldl (fun best r => better best text r) none

end Lexer

end CRBasic
