import CRBasic.Proofs.Lossless
import CRBasic.Proofs.Tree.Layout
import CRBasic.View.Expression

/-!
# Statements of a tree

The statements of a tree are the nodes that are parts of the root or of a statement list.  They are among
its outer nodes, those that are parts of no expression.  What holds of each outer node, and of the nodes that
come before it in the tree, is told from part to part (`Tree.AllOuter`).
-/

namespace CRBasic

open Lexeme

/-- The kinds of the nodes that hold statements. -/
def NodeKind.holdsStatements : NodeKind → Bool
  | .sourceFile | .stmtList => true
  | _ => false

/-- What holds statements is no expression. -/
theorem NodeKind.isForm_of_holdsStatements {kind : NodeKind} (h : kind.holdsStatements) :
    Expr.isForm kind = false := by
  cases kind <;> first | rfl | cases h

namespace Tree

section Outer

variable (P : List Nat → Node → Prop)

mutual

/-- Something holds of every outer node of a tree, and of the offsets at which the nodes before it start.
The tree is a part of a node of the given kind. -/
def AllOuter (parent : NodeKind) (starts : List Nat) (start : Nat) : Tree → Prop
  | leaf _ _ => True
  | node kind children =>
    (Expr.isForm parent = false → P starts ⟨start, kind, children⟩) ∧
      AllOuterOfAll kind (starts ++ [start]) start children

/-- Something holds of every outer node of some trees, and of the offsets at which the nodes before it
start. -/
def AllOuterOfAll (parent : NodeKind) (starts : List Nat) (start : Nat) : List Tree → Prop
  | [] => True
  | t :: ts =>
    t.AllOuter parent starts start ∧
      AllOuterOfAll parent (starts ++ (t.nodes start).map (·.start)) (start + t.width) ts

end

end Outer

variable {P : List Nat → Node → Prop} {parent : NodeKind} {starts : List Nat} {start : Nat}

theorem allOuterOfAll_append {ts us : List Tree} :
    AllOuterOfAll P parent starts start (ts ++ us) ↔ AllOuterOfAll P parent starts start ts ∧
      AllOuterOfAll P parent (starts ++ (nodesOfAll start ts).map (·.start)) (start + widthOfAll ts)
        us := by
  induction ts generalizing starts start with
  | nil => simp [AllOuterOfAll, nodesOfAll, widthOfAll]
  | cons t ts ih =>
    simp [AllOuterOfAll, nodesOfAll, widthOfAll, ih, and_assoc, Nat.add_assoc]

theorem nodesOfAll_ofLexemes (start : Nat) (xs : List Lexeme) : nodesOfAll start (ofLexemes xs) = [] := by
  induction xs generalizing start with
  | nil => rfl
  | cons x xs ih => exact ih _

theorem allOuterOfAll_ofLexemes (xs : List Lexeme) :
    AllOuterOfAll P parent starts start (ofLexemes xs) := by
  induction xs generalizing starts start with
  | nil => trivial
  | cons x xs ih => exact ⟨trivial, ih⟩

/-- What holds of all outer nodes of some trees holds of each of the trees that is a node. -/
theorem AllOuterOfAll.exists_of_mem {ts : List Tree} {n : Node}
    (h : AllOuterOfAll P parent starts start ts) (hparent : Expr.isForm parent = false)
    (hn : n ∈ (Element.ofTrees start ts).filterMap (·.node?)) :
    ∃ before after, nodesOfAll start ts = before ++ n :: after ∧
      P (starts ++ before.map (·.start)) n := by
  induction ts generalizing starts start with
  | nil => cases hn
  | cons t ts ih =>
    obtain ⟨ht, hts⟩ := h
    cases t with
    | leaf kind text =>
      obtain ⟨before, after, hnodes, hP⟩ := ih hts hn
      exact ⟨before, after, hnodes, by simpa [nodes] using hP⟩
    | node kind children =>
      rcases List.mem_cons.1 hn with rfl | hn
      · exact ⟨[], _, rfl, by simpa using ht.1 hparent⟩
      · obtain ⟨before, after, hnodes, hP⟩ := ih hts hn
        refine ⟨(node kind children).nodes start ++ before, after, ?_, by simpa using hP⟩
        have hnodes : nodesOfAll (start + (node kind children).width) ts = before ++ n :: after := hnodes
        rw [nodesOfAll, hnodes, List.append_assoc]

mutual

/-- What holds of all outer nodes of a tree holds of each node in it that is a part of no expression. -/
theorem AllOuter.exists_of_mem {p n : Node} (hp : Expr.isForm p.kind = false) (hn : n ∈ p.childNodes) :
    ∀ (t : Tree) {parent : NodeKind} {starts : List Nat} {start : Nat},
      t.AllOuter P parent starts start → p ∈ t.nodes start →
      ∃ before after, t.nodes start = before ++ n :: after ∧ P (starts ++ before.map (·.start)) n
  | leaf kind text, parent, starts, start, h, hmem => by cases hmem
  | node kind children, parent, starts, start, h, hmem => by
    have hinside : ∃ before after, nodesOfAll start children = before ++ n :: after ∧
        P ((starts ++ [start]) ++ before.map (·.start)) n := by
      rcases List.mem_cons.1 hmem with rfl | hmem
      · exact h.2.exists_of_mem hp hn
      · exact AllOuterOfAll.exists_inside hp hn children h.2 hmem
    obtain ⟨before, after, hnodes, hP⟩ := hinside
    exact ⟨⟨start, kind, children⟩ :: before, after, by rw [nodes, hnodes]; rfl, by simpa using hP⟩

theorem AllOuterOfAll.exists_inside {p n : Node} (hp : Expr.isForm p.kind = false)
    (hn : n ∈ p.childNodes) : ∀ (ts : List Tree) {parent : NodeKind} {starts : List Nat} {start : Nat},
      AllOuterOfAll P parent starts start ts → p ∈ nodesOfAll start ts →
      ∃ before after, nodesOfAll start ts = before ++ n :: after ∧
        P (starts ++ before.map (·.start)) n
  | [], parent, starts, start, h, hmem => by cases hmem
  | t :: ts, parent, starts, start, h, hmem => by
    rcases List.mem_append.1 hmem with hmem | hmem
    · obtain ⟨before, after, hnodes, hP⟩ := AllOuter.exists_of_mem hp hn t h.1 hmem
      exact ⟨before, after ++ nodesOfAll (start + t.width) ts, by rw [nodesOfAll, hnodes]; simp, hP⟩
    · obtain ⟨before, after, hnodes, hP⟩ := AllOuterOfAll.exists_inside hp hn ts h.2 hmem
      exact ⟨t.nodes start ++ before, after, by rw [nodesOfAll, hnodes]; simp, by simpa using hP⟩

end

end Tree

end CRBasic
