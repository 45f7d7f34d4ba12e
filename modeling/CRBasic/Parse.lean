import CRBasic.Grammar.Statement
import CRBasic.Lexer.Tokenize
import CRBasic.Tree.Builder
import CRBasic.Tree.Outline

/-!
# Parsing a text

A text is read into lexemes, the words among them are parsed into events, and the events become a
tree over all the lexemes.  Parsing has a result for every text: what does not fit is reported and
kept in the tree.
-/

namespace CRBasic

namespace Parsing

/-- How deep rules may call each other, and how often an item may repeat, in a text of so many
words.  Every call and every repetition takes a word first, so this is never used up. -/
def fuelFor (words : List Word) : Nat := words.length + 2

/-- The state after all words have been parsed. -/
def finalState (options : ParseOptions) (words : List Word) : State :=
  let fuel := fuelFor words
  let start := State.initial options words
  match Grammar.sourceFile.run (Script.runRule Grammar.script fuel) fuel start with
  | some (_, s) => s
  | none => start

/-- The events of some words. -/
def events (options : ParseOptions) (words : List Word) : List Event :=
  (finalState options words).events.toList

/-- The problems that the grammar finds in some words, in the order in which they are found. -/
def reports (options : ParseOptions) (words : List Word) : List Report :=
  (finalState options words).reports.toList

end Parsing

/-- What parsing a text yields. -/
structure Parse where
  tree : Tree
  /-- The problems, ordered by where they start; those of the lexemes first. -/
  diagnostics : List Diagnostic
  lineIndex : LineIndex
  deriving Repr

namespace Parse

/-- Whether a text has no problems. -/
def ok (p : Parse) : Bool := p.diagnostics.isEmpty

/-- The outline of the tree. -/
def outline (p : Parse) : String := p.tree.outline

end Parse

/-- Parses a text with the given options. -/
def parseWith (options : ParseOptions) (source : List Char) : Parse :=
  let xs := lexemes source
  let words := Word.ofLexemes true xs
  let final := Parsing.finalState options words
  let ranges := (Word.rangesFrom 0 xs).toArray
  let size := byteLength source
  let problems := Problem.ofLexemes 0 xs ++ final.reports.toList.map (·.toProblem ranges size)
  let index := LineIndex.ofText source
  { tree := Tree.ofEvents xs final.events.toList
    diagnostics := (Problem.sortByStart problems).map (Problem.resolve index)
    lineIndex := index }

/-- Parses a text with the default options. -/
def parse (source : List Char) : Parse := parseWith {} source

end CRBasic
