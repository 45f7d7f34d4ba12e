import CRBasic.Proofs.Blocks.Draft
import CRBasic.Proofs.Lines.Blocks

/-!
# Nodes on one line

In the tree of every text no line break stands between two words of a node of a kind that stands on one
line (`newline_not_mem_between`).
-/

namespace CRBasic

namespace Word

/-- The word after a line break starts a line. -/
theorem ofLexemes_break (b : Bool) (xs : List Lexeme) {z : Lexeme} (hz : z.kind = .newline)
    (ys : List Lexeme) : ofLexemes b (xs ++ z :: ys) = ofLexemes b xs ++ ofLexemes true ys := by
  obtain ⟨c, hc⟩ := exists_ofLexemes_append b xs (z :: ys)
  rw [hc, ofLexemes, hz]
  simp [TokenKind.isTrivia]

theorem startsLine_of_break {b : Bool} {xs ys : List Lexeme} {z : Lexeme} (hz : z.kind = .newline)
    {w : Word} (hw : (ofLexemes b (xs ++ z :: ys))[(Lexeme.words xs).length]? = some w) :
    w.startsLine := by
  rw [ofLexemes_break b xs hz, ← length_ofLexemes b, List.getElem?_append_right (Nat.le_refl _),
    Nat.sub_self, ← List.head?_eq_getElem?] at hw
  exact startsLine_of_head? w hw

/-- No line break stands between words on one line. -/
theorem OnLine.ne_newline {xs : List Lexeme} {m n : Nat} {b : Bool} (h : OnLine (ofLexemes b xs) m n)
    (hn : n ≤ (Lexeme.words xs).length) {front back : List Lexeme} {z : Lexeme}
    (hsplit : xs = front ++ z :: back) (hm : m ≤ (Lexeme.words front).length)
    (hlt : (Lexeme.words front).length < n) : z.kind ≠ .newline := by
  intro hz
  have hlength : (Lexeme.words front).length < (ofLexemes b xs).length := by
    rw [length_ofLexemes]
    exact Nat.lt_of_lt_of_le hlt hn
  obtain ⟨w, hw⟩ : ∃ w, (ofLexemes b xs)[(Lexeme.words front).length]? = some w :=
    ⟨_, List.getElem?_eq_getElem hlength⟩
  have hline := h _ w hm hlt hw
  subst hsplit
  have hstart := startsLine_of_break hz hw
  rw [hline] at hstart
  cases hstart

/-- If only the first of some words starts a line, no line break stands between two of them. -/
theorem OneLine.ne_newline {b : Bool} {before mid after : List Lexeme} {x y : Lexeme}
    (h : OneLine (ofLexemes b (before ++ x :: (mid ++ y :: after)))) (hx : x.kind.isTrivia = false)
    (hy : y.kind.isTrivia = false) : ∀ z ∈ mid, z.kind ≠ .newline := by
  intro z hz
  obtain ⟨us, vs, rfl⟩ := List.append_of_mem hz
  have hsplit : before ++ x :: ((us ++ z :: vs) ++ y :: after) =
      (before ++ x :: us) ++ z :: (vs ++ y :: after) := by simp
  have hxmem : x ∈ Lexeme.words (before ++ x :: us) := List.mem_filter.2 ⟨by simp, by rw [hx]; rfl⟩
  have hymem : y ∈ Lexeme.words (z :: (vs ++ y :: after)) :=
    List.mem_filter.2 ⟨by simp, by rw [hy]; rfl⟩
  refine h.onLine.ne_newline (Nat.le_refl _) hsplit (List.length_pos_of_mem hxmem) ?_
  rw [hsplit, Lexeme.words_append (before ++ x :: us), List.length_append]
  exact Nat.lt_add_of_pos_right (List.length_pos_of_mem hymem)

end Word

namespace Tree

mutual

/-- Every node of a tree shows one of the drafts inside the one that the tree shows. -/
theorem Shows.exists_of_mem_nodes {P : Draft → Prop} : ∀ (t : Tree) {d : Draft} {start : Nat}
    {n : Node}, t.Shows d → d.All P → n ∈ t.nodes start →
      ∃ e, P e ∧ (Tree.node n.kind n.children).Shows e
  | leaf kind text, d, start, n, _, _, hn => by simp [nodes] at hn
  | node kind children, d, start, n, ht, hd, hn => by
    rcases List.mem_cons.1 hn with rfl | hn
    · exact ⟨d, (Draft.all_iff.1 hd).1, ht⟩
    · obtain ⟨children', hnode, hchildren⟩ := ht.exists_children
      obtain ⟨-, rfl⟩ := node.inj hnode
      exact ShowAll.exists_of_mem_nodes children hchildren (Draft.all_iff.1 hd).2 hn

theorem ShowAll.exists_of_mem_nodes {P : Draft → Prop} : ∀ (ts : List Tree)
    {ps : List (Piece Draft)} {start : Nat} {n : Node}, ShowAll ts ps →
      (∀ d, .node d ∈ ps → d.All P) → n ∈ nodesOfAll start ts →
      ∃ e, P e ∧ (Tree.node n.kind n.children).Shows e
  | [], ps, start, n, _, _, hn => by simp [nodesOfAll] at hn
  | t :: ts, ps, start, n, hts, hps, hn => by
    cases hts.cases with
    | @trivia kind text _ _ _ hmore =>
      have hn : n ∈ nodesOfAll (start + (leaf kind text).width) ts := hn
      exact ShowAll.exists_of_mem_nodes ts hmore hps hn
    | @word w _ _ _ hmore =>
      have hn : n ∈ nodesOfAll (start + (leaf w.kind w.text).width) ts := hn
      exact ShowAll.exists_of_mem_nodes ts hmore (fun d hd => hps d (List.mem_cons_of_mem _ hd)) hn
    | node ht hmore =>
      rcases List.mem_append.1 hn with hn | hn
      · exact Shows.exists_of_mem_nodes t ht (hps _ List.mem_cons_self) hn
      · exact ShowAll.exists_of_mem_nodes ts hmore (fun d hd => hps d (List.mem_cons_of_mem _ hd)) hn

end

end Tree

open Parsing

/-- No line break stands between two words of a node of a kind that stands on one line. -/
theorem newline_not_mem_between (options : ParseOptions) (source : List Char) {n : Node}
    (hn : n ∈ (parseWith options source).tree.nodes 0) (hkind : n.kind.isLine)
    {before mid after : List Lexeme} {x y : Lexeme}
    (hleaves : Tree.leavesOfAll n.children = before ++ x :: (mid ++ y :: after))
    (hx : x.kind.isTrivia = false) (hy : y.kind.isTrivia = false) :
    ∀ z ∈ mid, z.kind ≠ .newline := by
  obtain ⟨parts, hparts, -⟩ := exists_readsAs options (Word.ofLexemes true (lexemes source))
  have hlined : (Draft.node .sourceFile parts).Lined :=
    Draft.lined_iff.2 ⟨nofun, (lined_of_readsAs hparts).1⟩
  obtain ⟨d, hd, hshows⟩ := Tree.Shows.exists_of_mem_nodes _ hparts.shows hlined hn
  obtain ⟨b, hwords⟩ := hshows.words
  have hsame : n.kind = d.kind := ElementKind.node.inj hshows.kind_eq
  rw [Tree.leaves, hleaves] at hwords
  have hline : Word.OneLine d.words := hd (hsame ▸ hkind)
  rw [← hwords] at hline
  exact hline.ne_newline hx hy

/-- The assignment in `y = (1 +`, with nothing behind the operator, ends before the line break. -/
theorem newline_not_mem_between_unclosed :
    ∃ n ∈ (parseWith {} "y = (1 +\nz = 2".toList).tree.nodes 0, ∃ mid,
      n.kind = .assignment ∧
      Tree.leavesOfAll n.children = ⟨.ident, ['y']⟩ :: (mid ++ [⟨.plus, ['+']⟩]) ∧
      ∀ z ∈ mid, z.kind ≠ .newline := by
  have hsecond : (((parseWith {} "y = (1 +\nz = 2".toList).tree.nodes 0).map fun n =>
      (n.kind, Tree.leavesOfAll n.children))[1]? = some (.assignment,
        [⟨.ident, ['y']⟩, ⟨.whitespace, [' ']⟩, ⟨.eq, ['=']⟩, ⟨.whitespace, [' ']⟩,
          ⟨.lParen, ['(']⟩, ⟨.number, ['1']⟩, ⟨.whitespace, [' ']⟩, ⟨.plus, ['+']⟩]) := by
    decide +kernel
  rw [List.getElem?_map, Option.map_eq_some_iff] at hsecond
  obtain ⟨n, hn, hparts⟩ := hsecond
  obtain ⟨hkind, hleaves⟩ := Prod.mk.inj hparts
  have hmem := List.mem_of_getElem? hn
  let mid : List Lexeme := [⟨.whitespace, [' ']⟩, ⟨.eq, ['=']⟩, ⟨.whitespace, [' ']⟩,
    ⟨.lParen, ['(']⟩, ⟨.number, ['1']⟩, ⟨.whitespace, [' ']⟩]
  have hsplit : Tree.leavesOfAll n.children =
      [] ++ (⟨.ident, ['y']⟩ : Lexeme) :: (mid ++ ⟨.plus, ['+']⟩ :: []) := hleaves
  exact ⟨n, hmem, mid, hkind, hsplit,
    newline_not_mem_between {} _ hmem (by rw [hkind]; rfl) hsplit rfl rfl⟩

end CRBasic
