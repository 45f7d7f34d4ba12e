import CRBasic.Proofs.Blocks.Matching
import CRBasic.Proofs.Lexer.Reader
import CRBasic.Proofs.Tree.Beginnings

/-!
# Comments before statements

The comments on lines of their own in a gap go to the nodes that start in the gap, one to each
(`beginsIn_of_mem_childNodes`).  A statement behind another one begins with the first comment, but if a
statement list starts in the same gap, it takes that comment, and its first statement begins with the second
one.
-/

namespace CRBasic

open Parsing Lexeme

/-- Every node with words that is a part of no expression begins in the gap before its first word with the
comment whose number is that of the nodes before it that start in the gap. -/
theorem exists_beginsIn (options : ParseOptions) (source : List Char) {p n : Node}
    (hp : p ∈ (parseWith options source).tree.nodes 0) (houter : Expr.isForm p.kind = false)
    (hn : n ∈ p.childNodes) (hword : ∃ x ∈ Tree.leavesOfAll n.children, x.kind.isTrivia = false) :
    ∃ (before after : List Node) (g : Gap (lexemes source)),
      (parseWith options source).tree.nodes 0 = before ++ n :: after ∧
        n.BeginsIn g (countBehind g.front (before.map (·.start))) := by
  obtain ⟨parts, hparts, hevents, hwords⟩ :=
    exists_readsAs options (Word.ofLexemes true (lexemes source))
  obtain ⟨t, hlaid, -, -⟩ := hparts.exists_laid
  obtain ⟨ts, htree, hbegins⟩ := Draft.allOuter_root
    (fun x hx => text_ne_nil_of_mem_lexemes hx)
    (fun d hd e he => (hlaid.placed d hd e he).wraps) (words_lexemes hwords)
  rw [← hevents, ← tree_parseWith] at htree
  -- The root is no outer node, as if it were a part of an expression.
  have hroot : (parseWith options source).tree.AllOuter (Node.Follows (lexemes source)) .identifier
      [] 0 := by
    rw [htree]
    exact ⟨nofun, hbegins⟩
  obtain ⟨before, after, hnodes, hfollows⟩ := hroot.exists_of_mem houter hn _ hp
  obtain ⟨g, hg⟩ := hfollows hword
  exact ⟨before, after, g, hnodes, hg⟩

/-- Every statement with words begins in the gap before its first word with the comment on a line of its own
whose number, counted from 0, is that of the nodes before it that start in the gap.  If there are not so many
comments, it begins with the word. -/
theorem beginsIn_of_mem_childNodes (options : ParseOptions) (source : List Char) {p n : Node}
    (hp : p ∈ (parseWith options source).tree.nodes 0) (hlist : p.kind.holdsStatements)
    (hn : n ∈ p.childNodes) (hword : ∃ x ∈ Tree.leavesOfAll n.children, x.kind.isTrivia = false) :
    ∃ (before after : List Node) (g : Gap (lexemes source)),
      (parseWith options source).tree.nodes 0 = before ++ n :: after ∧
        n.BeginsIn g (countBehind g.front (before.map (·.start))) :=
  exists_beginsIn options source hp (NodeKind.isForm_of_holdsStatements hlist) hn hword

/-- In `While x` with a comment on the line above `y = 1`, the comment goes to the statement list, and the
assignment begins with its name. -/
theorem beginsIn_of_mem_childNodes_while :
    ∃ p ∈ (parseWith {} "While x\n' c\ny = 1\nWend".toList).tree.nodes 0, ∃ n ∈ p.childNodes,
      (p.kind, p.start, n.kind, n.start) = (.stmtList, 8, .assignment, 12) ∧
      ∃ (before after : List Node) (g : Gap (lexemes "While x\n' c\ny = 1\nWend".toList)),
        (parseWith {} "While x\n' c\ny = 1\nWend".toList).tree.nodes 0 = before ++ n :: after ∧
          n.BeginsIn g (countBehind g.front (before.map (·.start))) := by
  have hlist : (((parseWith {} "While x\n' c\ny = 1\nWend".toList).tree.nodes 0).map fun p =>
      (p.kind, p.start, p.childNodes.map fun n =>
        (n.kind, n.start, (Tree.leavesOfAll n.children).any (!·.kind.isTrivia))))[3]? =
          some (.stmtList, 8, [(.assignment, 12, true)]) := by
    decide +kernel
  rw [List.getElem?_map, Option.map_eq_some_iff] at hlist
  obtain ⟨p, hp, hparts⟩ := hlist
  simp only [Prod.mk.injEq, List.map_eq_singleton_iff] at hparts
  obtain ⟨hkind, hstart, n, hchildren, hkind', hstart', hword⟩ := hparts
  have hp := List.mem_of_getElem? hp
  have hn : n ∈ p.childNodes := by simp [hchildren]
  refine ⟨p, hp, n, hn, by simp [hkind, hstart, hkind', hstart'], ?_⟩
  exact beginsIn_of_mem_childNodes {} _ hp (by rw [hkind]; rfl) hn (by simpa using hword)

end CRBasic
