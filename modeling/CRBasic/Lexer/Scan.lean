import CRBasic.Lexer.Lexeme
import CRBasic.Text.Blank

/-!
# Scanning

A scan goes through a text from left to right and yields its lexemes.  Two things need more than
the lexical rules:

* a number that runs into a name, a keyword or another number is one malformed lexeme;
* after `Units`, a name and `=` the rest of the line, up to a comment, is free text.

Either may find one lexeme more than the one it yields; that one waits in `pending`.
-/

namespace CRBasic

namespace Lexer

/-- How far a declaration of units has been read. -/
inductive UnitsProgress where
  /-- Not inside one. -/
  | outside
  /-- After `Units`: an `=` on the same line announces the text. -/
  | awaitingEq
  /-- After the `=`: the text comes next. -/
  | awaitingText
  deriving DecidableEq, Repr

/-- The progress after a lexeme of the given kind. -/
def UnitsProgress.after : UnitsProgress → TokenKind → UnitsProgress
  | _, .kwUnits => .awaitingEq
  | .awaitingEq, .eq => .awaitingText
  | .awaitingEq, .newline => .outside
  | p, _ => p

/-- The first lexeme of a text by the rules, and the text after it.  Where no rule matches, one
character is in error. -/
def munch : List Char → Option (Lexeme × List Char)
  | [] => none
  | c :: cs =>
    match longestMatch (c :: cs) with
    | some (k, n) => some (⟨k, (c :: cs).take n⟩, (c :: cs).drop n)
    | none => some (⟨.error, [c]⟩, cs)

/-- What follows a number. -/
structure WordRun where
  /-- The text of the words that the number runs into. -/
  text : List Char
  /-- The lexeme after them, if there is one. -/
  next : List Lexeme
  /-- The text after that lexeme. -/
  rest : List Char
  deriving DecidableEq, Repr

/-- Takes words for as long as they follow without a gap; looks at no more than `n` lexemes. -/
def wordRun : Nat → List Char → WordRun
  | 0, cs => ⟨[], [], cs⟩
  | n + 1, cs =>
    match munch cs with
    | none => ⟨[], [], cs⟩
    | some (x, rest) =>
      if x.kind.isWord then
        let run := wordRun n rest
        { run with text := x.text ++ run.text }
      else ⟨[], [x], rest⟩

/-- The free text at the start of a text: the blanks before it, the text itself, what follows. -/
def unitsText? (cs : List Char) : Option (List Char × List Char × List Char) :=
  let blank := cs.takeWhile fun c => c == ' ' || c == '\t'
  let rest := cs.drop blank.length
  let text := trimEnd (rest.takeWhile fun c => !(c == '\r' || c == '\n' || c == '\x27'))
  if text.isEmpty then none else some (blank, text, rest.drop text.length)

/-- The state of a scan. -/
structure Scan where
  /-- The text not yet looked at. -/
  rest : List Char
  /-- Lexemes found but not yet yielded. -/
  pending : List Lexeme := []
  /-- How far a declaration of units has been read. -/
  units : UnitsProgress := .outside
  deriving DecidableEq, Repr

namespace Scan

/-- Yields a lexeme of a statement: its kind may begin or go on with a declaration of units. -/
def yieldCode (x : Lexeme) (pending : List Lexeme) (rest : List Char) (units : UnitsProgress) :
    Lexeme × Scan :=
  (x, ⟨rest, pending, units.after x.kind⟩)

/-- The next lexeme by the rules, a number together with the words that it runs into. -/
def nextCode (rest : List Char) (units : UnitsProgress) : Option (Lexeme × Scan) :=
  match munch rest with
  | none => none
  | some (x, rest) =>
    if x.kind = .number then
      let run := wordRun rest.length rest
      let x := if run.text.isEmpty then x else ⟨.error, x.text ++ run.text⟩
      some (yieldCode x run.next run.rest units)
    else some (yieldCode x [] rest units)

/-- The next lexeme and the scan after it; none at the end of the text. -/
def next (s : Scan) : Option (Lexeme × Scan) :=
  match s.pending with
  | x :: pending => some (yieldCode x pending s.rest s.units)
  | [] =>
    match s.units with
    | .awaitingText =>
      match unitsText? s.rest with
      | some ([], text, rest) => some (⟨.unitsText, text⟩, ⟨rest, [], .outside⟩)
      | some (blank, text, rest) =>
        some (⟨.whitespace, blank⟩, ⟨rest, [⟨.unitsText, text⟩], .outside⟩)
      | none => nextCode s.rest .outside
    | units => nextCode s.rest units

/-- The next `n` lexemes, or all if there are fewer. -/
def take : Nat → Scan → List Lexeme
  | 0, _ => []
  | n + 1, s =>
    match s.next with
    | none => []
    | some (x, t) => x :: take n t

/-- The number of characters that a scan has not yet yielded: no scan yields more lexemes. -/
def size (s : Scan) : Nat := (Lexeme.joined s.pending).length + s.rest.length

/-- All lexemes that a scan has not yet yielded. -/
def remaining (s : Scan) : List Lexeme := s.take s.size

end Scan

end Lexer

/-- The lexemes of a text. -/
def lexemes (source : List Char) : List Lexeme := (Lexer.Scan.mk source [] .outside).remaining

/-- The tokens of a text. -/
def lex (source : List Char) : List Token := Lexeme.tokens 0 (lexemes source)

/-- The tokens of a text with their characters. -/
def lexWithText (source : List Char) : List (Token × List Char) :=
  (lex source).zip ((lexemes source).map (·.text))

/-! ### Reading token by token -/

/-- A reader of the tokens of one text. -/
structure Lexer where
  source : List Char
  /-- The offset at which the next token starts. -/
  offset : Nat := 0
  /-- The scan of what remains. -/
  scan : Lexer.Scan
  deriving DecidableEq, Repr

namespace Lexer

/-- A reader at the start of a text. -/
def ofText (source : List Char) : Lexer := { source, scan := ⟨source, [], .outside⟩ }

/-- The next token and the reader after it; none at the end of the text. -/
def next (r : Lexer) : Option (Token × Lexer) :=
  r.scan.next.map fun (x, scan) =>
    let t := x.token r.offset
    (t, { r with offset := t.range.stop, scan })

/-- Reads all that remains: the number of tokens, and the reader at the end of the text. -/
def drain (r : Lexer) : Nat × Lexer :=
  (r.scan.remaining.length, { r with offset := byteLength r.source, scan := ⟨[], [], .outside⟩ })

end Lexer

end CRBasic
