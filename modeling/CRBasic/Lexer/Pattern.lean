/-!
# Patterns

The classes of lexeme are regular languages, written as data.  `Pattern.longest` finds the longest
match at the start of a text: it reads the text once, and after each character goes on with the
derivative of the pattern, the pattern of what may still follow.  `Pattern.Matches` says on its own
which texts a pattern describes.
-/

namespace CRBasic

/-- A set of characters: those in one of some inclusive ranges, or all others. -/
structure CharSet where
  /-- The ranges, with both ends. -/
  ranges : List (Char × Char)
  /-- Whether the set holds the characters outside the ranges. -/
  complement : Bool := false
  deriving DecidableEq, Repr

namespace CharSet

def contains (s : CharSet) (c : Char) : Bool :=
  (s.ranges.any fun (lo, hi) => decide (lo ≤ c) && decide (c ≤ hi)) != s.complement

def these (cs : List Char) : CharSet := ⟨cs.map fun c => (c, c), false⟩

def allBut (cs : List Char) : CharSet := ⟨cs.map fun c => (c, c), true⟩

def digit : CharSet := ⟨[('0', '9')], false⟩

/-- The hexadecimal digits, in either case. -/
def hexDigit : CharSet := ⟨[('0', '9'), ('A', 'F'), ('a', 'f')], false⟩

/-- The characters that may start a name. -/
def nameStart : CharSet := ⟨[('A', 'Z'), ('a', 'z'), ('_', '_')], false⟩

/-- The characters that may continue a name. -/
def nameRest : CharSet := ⟨[('A', 'Z'), ('a', 'z'), ('_', '_'), ('0', '9')], false⟩

end CharSet

/-- A regular expression over characters. -/
inductive Pattern where
  /-- Matches no text. -/
  | nothing
  /-- Matches the empty text. -/
  | empty
  /-- Matches one character of a set. -/
  | oneOf (set : CharSet)
  /-- Matches a text of the first pattern followed by one of the second. -/
  | seq (first second : Pattern)
  /-- Matches the texts of either pattern. -/
  | either (first second : Pattern)
  /-- Matches any number of texts of a pattern, one after the other. -/
  | star (item : Pattern)
  deriving DecidableEq, Repr

namespace Pattern

/-- The texts that a pattern describes. -/
inductive Matches : Pattern → List Char → Prop where
  | empty : Matches .empty []
  | oneOf {s : CharSet} {c : Char} (h : s.contains c = true) : Matches (.oneOf s) [c]
  | seq {p q : Pattern} {u v : List Char} (hu : Matches p u) (hv : Matches q v) :
      Matches (.seq p q) (u ++ v)
  | first {p : Pattern} (q : Pattern) {u : List Char} (hu : Matches p u) : Matches (.either p q) u
  | second (p : Pattern) {q : Pattern} {u : List Char} (hu : Matches q u) : Matches (.either p q) u
  | starNil (p : Pattern) : Matches (.star p) []
  | starCons {p : Pattern} {u v : List Char} (hu : Matches p u) (hv : Matches (.star p) v) :
      Matches (.star p) (u ++ v)

/-! ### Forms built from the basic ones -/

def plus (p : Pattern) : Pattern := .seq p (.star p)

def optional (p : Pattern) : Pattern := .either p .empty

/-- One pattern after the other. -/
def sequence : List Pattern → Pattern
  | [] => .empty
  | [p] => p
  | p :: ps => .seq p (sequence ps)

/-- Any of some patterns. -/
def anyOf : List Pattern → Pattern
  | [] => .nothing
  | [p] => p
  | p :: ps => .either p (anyOf ps)

def chars (cs : List Char) : Pattern := .oneOf (.these cs)

/-- Exactly the given text. -/
def exactly (s : String) : Pattern := sequence (s.toList.map fun c => chars [c])

/-- The given text with each letter in either case. -/
def caseless (s : String) : Pattern := sequence (s.toList.map fun c => chars [c.toLower, c.toUpper])

/-! ### Matching -/

/-- Whether a pattern matches the empty text. -/
def nullable : Pattern → Bool
  | .nothing => false
  | .empty => true
  | .oneOf _ => false
  | .seq p q => p.nullable && q.nullable
  | .either p q => p.nullable || q.nullable
  | .star _ => true

/-- Sequence, simplified where one side matches nothing or only the empty text. -/
def andThen : Pattern → Pattern → Pattern
  | .nothing, _ => .nothing
  | .empty, q => q
  | p, q => .seq p q

/-- Choice, simplified where one side matches nothing. -/
def orElse : Pattern → Pattern → Pattern
  | .nothing, q => q
  | p, .nothing => p
  | p, q => .either p q

/-- What may follow the character `c` in a text of the pattern. -/
def derivative (c : Char) : Pattern → Pattern
  | .nothing => .nothing
  | .empty => .nothing
  | .oneOf s => if s.contains c then .empty else .nothing
  | .seq p q =>
    let rest := (p.derivative c).andThen q
    if p.nullable then rest.orElse (q.derivative c) else rest
  | .either p q => (p.derivative c).orElse (q.derivative c)
  | .star p => (p.derivative c).andThen (.star p)

/-- Whether the pattern is the one that matches nothing. -/
def isNothing : Pattern → Bool
  | .nothing => true
  | _ => false

/-- The length of the longest match at the start of a text. -/
def longest (p : Pattern) : List Char → Option Nat
  | [] => if p.nullable then some 0 else none
  | c :: cs =>
    let rest := p.derivative c
    match if rest.isNothing then none else rest.longest cs with
    | some n => some (n + 1)
    | none => if p.nullable then some 0 else none

end Pattern

end CRBasic
