import CRBasic.Tree.Basic

/-!
# Nodes in their place

A `Node` is a node of a tree together with the offset at which it starts.  Its elements are its
parts in their places.
-/

namespace CRBasic

/-- A node and its place. -/
structure Node where
  start : Nat
  kind : NodeKind
  children : List Tree
  deriving Repr

/-- A leaf and its place. -/
structure Leaf where
  start : Nat
  kind : TokenKind
  text : List Char
  deriving DecidableEq, Repr

/-- A part of a node in its place. -/
inductive Element where
  | node (node : Node)
  | leaf (leaf : Leaf)
  deriving Repr

namespace Leaf

/-- The bytes of a leaf. -/
def range (x : Leaf) : ByteRange := ⟨x.start, x.start + byteLength x.text⟩

/-- The written form: kind, range and text. -/
def display (x : Leaf) : String :=
  x.kind.name ++ "@" ++ x.range.display ++ " " ++ String.ofList x.text

end Leaf

namespace Element

def kind : Element → ElementKind
  | node n => .node n.kind
  | leaf x => .token x.kind

/-- The element as a node, if it is one. -/
def node? : Element → Option Node
  | node n => some n
  | leaf _ => none

/-- The element as a word, if it is one: a leaf that is no blank, line break or comment. -/
def word? : Element → Option Leaf
  | node _ => none
  | leaf x => if x.kind.isTrivia then none else some x

def isNode (k : NodeKind) (e : Element) : Bool := e.kind == .node k

def isLeaf (k : TokenKind) (e : Element) : Bool := e.kind == .token k

/-- The elements of trees that stand one after the other from an offset on. -/
def ofTrees (start : Nat) : List Tree → List Element
  | [] => []
  | .leaf kind text :: ts => leaf ⟨start, kind, text⟩ :: ofTrees (start + byteLength text) ts
  | .node kind children :: ts =>
    node ⟨start, kind, children⟩ :: ofTrees (start + Tree.widthOfAll children) ts

end Element

namespace Node

/-- The bytes of a node. -/
def range (n : Node) : ByteRange := ⟨n.start, n.start + Tree.widthOfAll n.children⟩

/-- The written form: kind and range. -/
def display (n : Node) : String := n.kind.name ++ "@" ++ n.range.display

/-- The parts of a node in their places. -/
def elements (n : Node) : List Element := Element.ofTrees n.start n.children

def childNodes (n : Node) : List Node := n.elements.filterMap (·.node?)

/-- The parts that are words. -/
def words (n : Node) : List Leaf := n.elements.filterMap (·.word?)

end Node

namespace Tree

mutual

/-- The nodes of a tree that starts at an offset, each before those inside it. -/
def nodes (start : Nat) : Tree → List Node
  | leaf _ _ => []
  | node kind children => ⟨start, kind, children⟩ :: nodesOfAll start children

/-- The nodes of trees that stand one after the other from an offset on. -/
def nodesOfAll (start : Nat) : List Tree → List Node
  | [] => []
  | t :: ts => t.nodes start ++ nodesOfAll (start + t.width) ts

end

end Tree

end CRBasic
