import CRBasic.Tree.Node

/-!
# Views

A view is a node known to be of one kind.  The modules of this folder give the parts of each form by
role.  A part is absent where the text does not have it.
-/

namespace CRBasic

/-- A node of a given kind. -/
structure View (kind : NodeKind) where
  node : Node
  kind_eq : node.kind = kind

namespace View

/-- The view of a node, if it is of the given kind. -/
def ofNode? (kind : NodeKind) (n : Node) : Option (View kind) :=
  if h : n.kind = kind then some ⟨n, h⟩ else none

/-- The written form of the node. -/
def display {kind : NodeKind} (v : View kind) : String := v.node.display

theorem ofNode?_node {kind : NodeKind} (v : View kind) : ofNode? kind v.node = some v := by
  simp [ofNode?, v.kind_eq]

end View

namespace Node

/-- The parts of a node that are of a given kind. -/
def childrenOf (n : Node) (kind : NodeKind) : List (View kind) :=
  n.childNodes.filterMap (View.ofNode? kind)

/-- The first part of a node that is of a given kind. -/
def child? (n : Node) (kind : NodeKind) : Option (View kind) :=
  n.childNodes.findSome? (View.ofNode? kind)

/-- The first part of a node that is a word. -/
def firstWord? (n : Node) : Option Leaf := n.words.head?

end Node

end CRBasic
