import CRBasic.Proofs.Tree.Layout
import CRBasic.View.Basic

/-!
# Shapes of nodes

The shape of a node is its tree without blanks, line breaks and comments.  It tells the shapes of
the parts that are nodes, and the parts that are words (`hasParts_of_shape`).
-/

namespace CRBasic

namespace Tree

/-- A tree that is a node. -/
def node? : Tree → Option Tree
  | leaf _ _ => none
  | node kind children => some (node kind children)

/-- A tree that is a lexeme. -/
def leaf? : Tree → Option Lexeme
  | leaf kind text => some ⟨kind, text⟩
  | node _ _ => none

@[simp] theorem node?_leaf (kind : TokenKind) (text : List Char) : (leaf kind text).node? = none :=
  rfl

@[simp] theorem leaf?_leaf (kind : TokenKind) (text : List Char) :
    (leaf kind text).leaf? = some ⟨kind, text⟩ := rfl

end Tree

namespace Draft

/-- The parts that are drafts. -/
def nodesOf : List (Piece Draft) → List Draft
  | [] => []
  | .word _ :: ps => nodesOf ps
  | .node d :: ps => d :: nodesOf ps

/-- The parts that are words. -/
def ownWords : List (Piece Draft) → List Word
  | [] => []
  | .word w :: ps => w :: ownWords ps
  | .node _ :: ps => ownWords ps

theorem mem_ownWords {w : Word} {ps : List (Piece Draft)} : w ∈ ownWords ps ↔ .word w ∈ ps := by
  induction ps with
  | nil => simp [ownWords]
  | cons p ps ih => cases p <;> simp [ownWords, ih]

theorem ownWords_append (ps qs : List (Piece Draft)) :
    ownWords (ps ++ qs) = ownWords ps ++ ownWords qs := by
  induction ps with
  | nil => rfl
  | cons p ps ih => cases p <;> simp [ownWords, ih]

theorem node?_tree (d : Draft) : d.tree.node? = some d.tree := by
  cases d <;> rfl

theorem leaf?_tree (d : Draft) : d.tree.leaf? = none := by
  cases d <;> rfl

theorem filterMap_node?_treesOfAll (ps : List (Piece Draft)) :
    (treesOfAll ps).filterMap Tree.node? = (nodesOf ps).map tree := by
  induction ps with
  | nil => rfl
  | cons p ps ih =>
    cases p with
    | word w => exact ih
    | node d => rw [treesOfAll, List.filterMap_cons_some d.node?_tree, ih, nodesOf, List.map_cons]

theorem filterMap_leaf?_treesOfAll (ps : List (Piece Draft)) :
    (treesOfAll ps).filterMap Tree.leaf? = (ownWords ps).map Word.lexeme := by
  induction ps with
  | nil => rfl
  | cons p ps ih =>
    cases p with
    | word w => exact congrArg (w.lexeme :: ·) ih
    | node d => rw [treesOfAll, List.filterMap_cons_none d.leaf?_tree, ih, ownWords]

end Draft

namespace Element

@[simp] theorem node?_node (n : Node) : (node n).node? = some n := rfl

@[simp] theorem node?_leaf (x : Leaf) : (leaf x).node? = none := rfl

@[simp] theorem word?_node (n : Node) : (node n).word? = none := rfl

theorem word?_leaf (x : Leaf) :
    (leaf x).word? = if x.kind.isTrivia then none else some x := rfl

end Element

/-- The lexeme of a leaf. -/
def Leaf.lexeme (x : Leaf) : Lexeme := ⟨x.kind, x.text⟩

namespace Node

/-- The tree of a node without blanks, line breaks and comments. -/
def shape (n : Node) : Tree := .node n.kind (Tree.withoutTriviaOfAll n.children)

theorem kind_eq_of_shape {n : Node} {d : Draft} (h : n.shape = d.tree) : n.kind = d.kind := by
  cases d <;> exact (Tree.node.inj h).1

theorem shapes_ofTrees (start : Nat) (ts : List Tree) :
    ((Element.ofTrees start ts).filterMap (·.node?)).map shape =
      (Tree.withoutTriviaOfAll ts).filterMap Tree.node? := by
  induction ts generalizing start with
  | nil => rfl
  | cons t ts ih =>
    cases t with
    | leaf kind text =>
      simp only [Element.ofTrees, Tree.withoutTriviaOfAll]
      split <;> simp [List.filterMap_cons, ih]
    | node kind children =>
      simp [Element.ofTrees, Tree.withoutTriviaOfAll, Tree.withoutTrivia, Tree.node?,
        shape, ih]

theorem lexemes_ofTrees (start : Nat) (ts : List Tree) :
    ((Element.ofTrees start ts).filterMap (·.word?)).map Leaf.lexeme =
      (Tree.withoutTriviaOfAll ts).filterMap Tree.leaf? := by
  induction ts generalizing start with
  | nil => rfl
  | cons t ts ih =>
    cases t with
    | leaf kind text =>
      simp only [Element.ofTrees, Tree.withoutTriviaOfAll]
      split <;> rename_i hkind <;>
        simp [Element.word?_leaf, hkind, Leaf.lexeme, ih]
    | node kind children =>
      simp [Element.ofTrees, Tree.withoutTriviaOfAll, Tree.withoutTrivia, Tree.leaf?,
        List.filterMap_cons, ih]

/-- A node has the given parts, apart from blanks, line breaks and comments. -/
structure HasParts (n : Node) (kind : NodeKind) (ps : List (Piece Draft)) : Prop where
  kind_eq : n.kind = kind
  childNodes_eq : n.childNodes.map shape = (Draft.nodesOf ps).map Draft.tree
  words_eq : n.words.map Leaf.lexeme = (Draft.ownWords ps).map Word.lexeme

theorem hasParts_of_shape {n : Node} {kind : NodeKind} {ps : List (Piece Draft)}
    (h : n.shape = .node kind (Draft.treesOfAll ps)) : n.HasParts kind ps := by
  obtain ⟨hkind, hchildren⟩ := Tree.node.inj h
  refine ⟨hkind, ?_, ?_⟩
  · rw [← Draft.filterMap_node?_treesOfAll, ← hchildren]
    exact shapes_ofTrees n.start n.children
  · rw [← Draft.filterMap_leaf?_treesOfAll, ← hchildren]
    exact lexemes_ofTrees n.start n.children

theorem HasParts.firstWord?_eq {n : Node} {kind : NodeKind} {ps : List (Piece Draft)} {w : Word}
    {ws : List Word} (h : n.HasParts kind ps) (hps : Draft.ownWords ps = w :: ws) :
    ∃ x, n.firstWord? = some x ∧ x.lexeme = w.lexeme := by
  obtain ⟨x, xs, hx, hlexeme, -⟩ := List.map_eq_cons_iff.1 (hps ▸ h.words_eq)
  exact ⟨x, by rw [firstWord?, hx, List.head?_cons], hlexeme⟩

end Node

end CRBasic
