import CRBasic.Parsing.Event
import CRBasic.Tree.Basic

/-!
# Building trees

Events name only the words of a text; building a tree also places the blanks, line breaks and
comments between them.

* What lies before a word belongs to the node that the word belongs to.
* When a node starts, a comment on a line of its own belongs to the node with all that follows it;
  what lies before the first such comment belongs to the node around.
* A block body that ends when no word is left takes the rest of the text, and so does the root.
-/

namespace CRBasic

/-! ### Parents that start later -/

namespace Event

/-- The node that starts `distance` events later, and the nodes around it in turn: the distance and
kind of each, innermost first.  The list holds the events from the next one on. -/
def parents : Nat → List Event → List (Nat × NodeKind)
  | 0, _ => []
  | _, [] => []
  | 1, start kind parent? :: es =>
    (1, kind) :: (parents (parent?.getD 0) es).map fun (n, k) => (n + 1, k)
  | 1, _ => []
  | distance + 2, _ :: es => (parents (distance + 1) es).map fun (n, k) => (n + 1, k)

end Event

/-- An event with the parents of nodes in place: a group of nodes starts, outermost first. -/
inductive BuildStep where
  /-- Nodes of these kinds start, each inside the one before. -/
  | openNodes (kinds : List NodeKind)
  /-- The next word is added. -/
  | token (kind : TokenKind)
  | closeNode
  deriving DecidableEq, Repr

namespace BuildStep

/-- The steps that events stand for.  A `start` that an earlier node points to is left out where it
stands; `claimed` holds the distances of those from the next event. -/
def ofEvents (claimed : List Nat) : List Event → List BuildStep
  | [] => []
  | e :: es =>
    let later := (claimed.filter (· ≠ 0)).map (· - 1)
    if claimed.contains 0 then ofEvents later es
    else
      match e with
      | .start kind parent? =>
        let around := Event.parents (parent?.getD 0) es
        openNodes ((kind :: around.map (·.2)).reverse) ::
          ofEvents (around.map (·.1 - 1) ++ later) es
      | .token kind => token kind :: ofEvents later es
      | .finish => closeNode :: ofEvents later es
      | .hole => ofEvents later es

end BuildStep

/-! ### Placing the lexemes -/

/-- A node that has not ended, with its children so far, the last one first. -/
structure OpenNode where
  kind : NodeKind
  /-- The children so far, in reverse. -/
  children : List Tree
  deriving Repr

/-- A tree under construction. -/
structure Builder where
  /-- The lexemes not yet placed. -/
  rest : List Lexeme
  /-- Whether no lexeme has been placed. -/
  atStart : Bool := true
  /-- The nodes that have not ended, innermost first. -/
  nodes : List OpenNode := []
  /-- The root, once it has ended. -/
  root? : Option Tree := none
  deriving Repr

namespace Builder

/-- Adds a tree to the innermost node. -/
def add (b : Builder) (t : Tree) : Builder :=
  match b.nodes with
  | [] => b
  | n :: outer => { b with nodes := ⟨n.kind, t :: n.children⟩ :: outer }

/-- Places lexemes into the innermost node, and leaves the given rest. -/
def addLexemes (b : Builder) (xs rest : List Lexeme) : Builder :=
  let b := xs.foldl (fun b x => b.add (.leaf x.kind x.text)) b
  { b with rest, atStart := b.atStart && xs.isEmpty }

/-- Places the blanks, line breaks and comments before the next word. -/
def addTrivia (b : Builder) : Builder :=
  b.addLexemes (b.rest.takeWhile (·.kind.isTrivia)) (b.rest.dropWhile (·.kind.isTrivia))

/-- Splits lexemes before the first comment on a line of its own, or the first word. -/
def splitLeading (lineStart : Bool) : List Lexeme → List Lexeme × List Lexeme
  | [] => ([], [])
  | x :: xs =>
    if !x.kind.isTrivia || (lineStart && x.kind == .comment) then ([], x :: xs)
    else
      let (leading, rest) := splitLeading (lineStart || x.kind == .newline) xs
      (x :: leading, rest)

/-- Starts nodes, each inside the one before.  What belongs to the node around them is placed
first. -/
def openNodes (b : Builder) (kinds : List NodeKind) : Builder :=
  let b :=
    if b.nodes.isEmpty then b
    else
      let (leading, rest) := splitLeading b.atStart b.rest
      b.addLexemes leading rest
  kinds.foldl (fun b kind => { b with nodes := ⟨kind, []⟩ :: b.nodes }) b

/-- Places the next word, as a leaf of the given kind. -/
def addWord (b : Builder) (kind : TokenKind) : Builder :=
  let b := b.addTrivia
  match b.rest with
  | [] => b
  | x :: rest => { b.add (.leaf kind x.text) with rest, atStart := false }

def closeNode (b : Builder) : Builder :=
  match b.nodes with
  | [] => b
  | [_] =>
    match (b.addLexemes b.rest []).nodes with
    | n :: _ => { b with rest := [], nodes := [], root? := some (.node n.kind n.children.reverse) }
    | [] => b
  | n :: _ =>
    let b := if n.kind == .stmtList && b.rest.all (·.kind.isTrivia) then b.addTrivia else b
    match b.nodes with
    | n :: outer => { b with nodes := outer }.add (.node n.kind n.children.reverse)
    | [] => b

def step (b : Builder) : BuildStep → Builder
  | .openNodes kinds => b.openNodes kinds
  | .token kind => b.addWord kind
  | .closeNode => b.closeNode

end Builder

/-- The tree that events describe over the lexemes of a text. -/
def Tree.ofEvents (xs : List Lexeme) (events : List Event) : Tree :=
  let b := (BuildStep.ofEvents [] events).foldl Builder.step { rest := xs }
  b.root?.getD (.node .sourceFile [])

end CRBasic
