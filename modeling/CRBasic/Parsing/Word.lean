import CRBasic.Lexer.Lexeme

/-!
# Words

The grammar sees the lexemes of a text without blanks, line breaks and comments.  Statements end
with their line, so a word knows whether it is the first one of its line.
-/

namespace CRBasic

/-- A lexeme as the grammar sees it. -/
structure Word where
  /-- The kind. -/
  kind : TokenKind
  /-- The characters. -/
  text : List Char
  /-- Whether a line break, or the start of the text, lies between this word and the one before. -/
  startsLine : Bool
  deriving DecidableEq, Repr

namespace Word

/-- The words among some lexemes; the flag tells whether the next one starts a line. -/
def ofLexemes (startsLine : Bool) : List Lexeme → List Word
  | [] => []
  | x :: xs =>
    if x.kind.isTrivia then ofLexemes (startsLine || x.kind == .newline) xs
    else ⟨x.kind, x.text, startsLine⟩ :: ofLexemes false xs

/-- The byte ranges of the words among lexemes that stand one after the other from an offset on. -/
def rangesFrom (offset : Nat) : List Lexeme → List ByteRange
  | [] => []
  | x :: xs =>
    let range := (x.token offset).range
    if x.kind.isTrivia then rangesFrom range.stop xs else range :: rangesFrom range.stop xs

theorem length_rangesFrom (offset : Nat) (startsLine : Bool) (xs : List Lexeme) :
    (rangesFrom offset xs).length = (ofLexemes startsLine xs).length := by
  induction xs generalizing offset startsLine with
  | nil => rfl
  | cons x xs ih =>
    simp only [rangesFrom, ofLexemes]
    split
    · exact ih _ _
    · simp [ih _ false]

/-- The words on the line of the first word, from that word on. -/
def line : List Word → List Word
  | [] => []
  | w :: ws => w :: ws.takeWhile (!·.startsLine)

/-- Whether an assignment operator stands among some words outside the parentheses opened there,
before any word outside them whose kind is a stop. -/
def assignsBefore (isStop : TokenKind → Bool) (depth : Nat) : List Word → Bool
  | [] => false
  | w :: ws =>
    if w.kind = .lParen then assignsBefore isStop (depth + 1) ws
    else if w.kind = .rParen then assignsBefore isStop (depth - 1) ws
    else if depth = 0 && w.kind.isAssignment then true
    else if depth = 0 && isStop w.kind then false
    else assignsBefore isStop depth ws

end Word

/-! ### Places between words -/

/-- An end of a word, told by counting words. -/
inductive Edge where
  /-- Where the word after the first `n` words starts; the end of the text if there is none. -/
  | startAfter (n : Nat)
  /-- Where the first `n` words end; the start of the text for none, its end for too many. -/
  | endOf (n : Nat)
  deriving DecidableEq, Repr

namespace Edge

/-- The same edge in a count that starts `n` words earlier. -/
def shift (n : Nat) : Edge → Edge
  | startAfter m => startAfter (n + m)
  | endOf m => endOf (n + m)

/-- The byte offset of an edge, from the ranges of the words and the length of the text. -/
def offset (ranges : Array ByteRange) (size : Nat) : Edge → Nat
  | startAfter n => (ranges[n]?.map (·.start)).getD size
  | endOf 0 => 0
  | endOf (n + 1) => (ranges[n]?.map (·.stop)).getD size

end Edge

end CRBasic
