import CRBasic.Proofs.Tree.Shape

/-!
# Nodes and drafts

The nodes of a tree and the drafts inside the one that it shows are the same, blanks and comments
apart: every node has the shape of such a draft (`exists_inside`), and every such draft is the shape of
a node (`exists_mem_nodes`).
-/

namespace CRBasic

namespace Draft

/-- A draft is another one, or a part of a draft inside it. -/
inductive Inside : Draft → Draft → Prop where
  | refl (d : Draft) : Inside d d
  | node {d e : Draft} {kind : NodeKind} {parts : List (Piece Draft)} (he : .node e ∈ parts)
      (h : Inside d e) : Inside d (.node kind parts)
  | first {d first : Draft} {kind : NodeKind} {parts : List (Piece Draft)} (h : Inside d first) :
      Inside d (.around kind first parts)
  | around {d e first : Draft} {kind : NodeKind} {parts : List (Piece Draft)}
      (he : .node e ∈ parts) (h : Inside d e) : Inside d (.around kind first parts)

theorem Inside.trans {c d e : Draft} (h : c.Inside d) (h' : d.Inside e) : c.Inside e := by
  induction h' with
  | refl => exact h
  | node he _ ih => exact .node he ih
  | first _ ih => exact .first ih
  | around he _ ih => exact .around he ih

/-- The drafts whose trees are the parts of a draft's tree. -/
def drafts : Draft → List Draft
  | node _ parts => nodesOf parts
  | around _ first parts => first :: nodesOf parts

theorem mem_nodesOf {d : Draft} {ps : List (Piece Draft)} : d ∈ nodesOf ps ↔ .node d ∈ ps := by
  induction ps with
  | nil => simp [nodesOf]
  | cons p ps ih => cases p <;> simp [nodesOf, ih]

theorem Inside.of_mem_drafts {d e c : Draft} (he : e ∈ c.drafts) (h : d.Inside e) : d.Inside c := by
  cases c with
  | node kind parts => exact .node (mem_nodesOf.1 he) h
  | around kind first parts =>
    rcases List.mem_cons.1 he with rfl | he
    · exact .first h
    · exact .around (mem_nodesOf.1 he) h

/-- The trees of the parts of a draft. -/
def partTrees : Draft → List Tree
  | node _ parts => treesOfAll parts
  | around _ first parts => first.tree :: treesOfAll parts

theorem tree_eq (d : Draft) : ∃ kind, d.tree = .node kind d.partTrees := by
  cases d with
  | node kind parts => exact ⟨kind, rfl⟩
  | around kind first parts => exact ⟨kind, rfl⟩

theorem filterMap_node?_partTrees (d : Draft) :
    d.partTrees.filterMap Tree.node? = d.drafts.map tree := by
  cases d with
  | node kind parts => exact filterMap_node?_treesOfAll parts
  | around kind first parts =>
    rw [partTrees, drafts, List.filterMap_cons_some first.node?_tree, filterMap_node?_treesOfAll,
      List.map_cons]

end Draft

namespace Tree

mutual

/-- Every node of a tree has the shape of a draft inside the one that the tree shows. -/
theorem exists_inside : ∀ (t : Tree) {d : Draft} {start : Nat} {n : Node},
    t.withoutTrivia = d.tree → n ∈ t.nodes start → ∃ e : Draft, e.Inside d ∧ n.shape = e.tree
  | leaf kind text, d, start, n, ht, hn => by simp [nodes] at hn
  | node kind children, d, start, n, ht, hn => by
    rcases List.mem_cons.1 hn with rfl | hn
    · exact ⟨d, .refl d, ht⟩
    · obtain ⟨kind', hd⟩ := d.tree_eq
      have hchildren : withoutTriviaOfAll children = d.partTrees := (node.inj (ht.trans hd)).2
      have hnodes : (withoutTriviaOfAll children).filterMap node? = d.drafts.map Draft.tree := by
        rw [hchildren, Draft.filterMap_node?_partTrees]
      obtain ⟨c, hc, e, he, hshape⟩ := exists_insideOfAll children hnodes hn
      exact ⟨e, .of_mem_drafts hc he, hshape⟩

theorem exists_insideOfAll : ∀ (ts : List Tree) {ds : List Draft} {start : Nat} {n : Node},
    (withoutTriviaOfAll ts).filterMap node? = ds.map Draft.tree → n ∈ nodesOfAll start ts →
      ∃ d ∈ ds, ∃ e : Draft, e.Inside d ∧ n.shape = e.tree
  | [], ds, start, n, hts, hn => by simp [nodesOfAll] at hn
  | leaf kind text :: ts, ds, start, n, hts, hn => by
    have hn : n ∈ nodesOfAll (start + byteLength text) ts := by
      simpa [nodesOfAll, nodes, width] using hn
    refine exists_insideOfAll ts ?_ hn
    rw [withoutTriviaOfAll] at hts
    split at hts
    · exact hts
    · rwa [List.filterMap_cons_none (node?_leaf _ _)] at hts
  | node kind children :: ts, ds, start, n, hts, hn => by
    have hcons : (withoutTriviaOfAll (node kind children :: ts)).filterMap node? =
        (node kind children).withoutTrivia :: (withoutTriviaOfAll ts).filterMap node? := rfl
    rw [hcons] at hts
    obtain ⟨d, ds', rfl, hd, hds⟩ := List.map_eq_cons_iff.1 hts.symm
    rcases List.mem_append.1 hn with hn | hn
    · obtain ⟨e, he, hshape⟩ := exists_inside (node kind children) hd.symm hn
      exact ⟨d, List.mem_cons_self, e, he, hshape⟩
    · obtain ⟨c, hc, h⟩ := exists_insideOfAll ts hds.symm hn
      exact ⟨c, List.mem_cons_of_mem _ hc, h⟩

end

theorem exists_withoutTrivia_eq {u : Tree} {ts : List Tree} (h : u ∈ withoutTriviaOfAll ts) :
    ∃ t ∈ ts, t.withoutTrivia = u := by
  induction ts with
  | nil => simp [withoutTriviaOfAll] at h
  | cons t ts ih =>
    have hmore (h : u ∈ withoutTriviaOfAll ts) : ∃ t' ∈ t :: ts, t'.withoutTrivia = u := by
      obtain ⟨t', ht', hu⟩ := ih h
      exact ⟨t', List.mem_cons_of_mem t ht', hu⟩
    cases t with
    | leaf kind text =>
      rw [withoutTriviaOfAll] at h
      split at h
      · exact hmore h
      · rcases List.mem_cons.1 h with rfl | h
        · exact ⟨leaf kind text, List.mem_cons_self, rfl⟩
        · exact hmore h
    | node kind children =>
      rcases List.mem_cons.1 h with rfl | h
      · exact ⟨node kind children, List.mem_cons_self, rfl⟩
      · exact hmore h

/-- A node with some property in one of several trees is found among the nodes of all. -/
theorem exists_mem_nodesOfAll {P : Node → Prop} {t : Tree} {ts : List Tree} (ht : t ∈ ts)
    (h : ∀ start, ∃ n ∈ t.nodes start, P n) (start : Nat) : ∃ n ∈ nodesOfAll start ts, P n := by
  induction ts generalizing start with
  | nil => cases ht
  | cons u ts ih =>
    rcases List.mem_cons.1 ht with rfl | ht
    · obtain ⟨n, hn, hP⟩ := h start
      exact ⟨n, List.mem_append_left _ hn, hP⟩
    · obtain ⟨n, hn, hP⟩ := ih ht (start + u.width)
      exact ⟨n, List.mem_append_right _ hn, hP⟩

theorem tree_mem_treesOfAll {d : Draft} {ps : List (Piece Draft)} (h : .node d ∈ ps) :
    d.tree ∈ Draft.treesOfAll ps := by
  have hd := List.mem_map_of_mem (f := Draft.tree) (Draft.mem_nodesOf.2 h)
  rw [← Draft.filterMap_node?_treesOfAll] at hd
  obtain ⟨t, ht, hnode⟩ := List.mem_filterMap.1 hd
  cases t with
  | leaf kind text => cases hnode
  | node kind children => exact Option.some.inj hnode ▸ ht

/-- A tree that shows a draft is a node with children that show the parts of the draft. -/
theorem exists_children {t : Tree} {d : Draft} (h : t.withoutTrivia = d.tree) :
    ∃ kind children, t = node kind children ∧ withoutTriviaOfAll children = d.partTrees := by
  obtain ⟨kind', hd⟩ := d.tree_eq
  cases t with
  | leaf kind text =>
    rw [hd] at h
    cases h
  | node kind children => exact ⟨kind, children, rfl, (node.inj (h.trans hd)).2⟩

/-- Every draft inside the one that a tree shows is the shape of a node. -/
theorem exists_mem_nodes {d e : Draft} (h : e.Inside d) {t : Tree} (ht : t.withoutTrivia = d.tree)
    (start : Nat) : ∃ n ∈ t.nodes start, n.shape = e.tree := by
  have hpart {d c : Draft} (hc : c.tree ∈ d.partTrees)
      (ih : ∀ {t : Tree}, t.withoutTrivia = c.tree → ∀ start, ∃ n ∈ t.nodes start, n.shape = e.tree)
      {t : Tree} (ht : t.withoutTrivia = d.tree) (start : Nat) :
      ∃ n ∈ t.nodes start, n.shape = e.tree := by
    obtain ⟨kind, children, rfl, hchildren⟩ := exists_children ht
    rw [← hchildren] at hc
    obtain ⟨u, hu, huc⟩ := exists_withoutTrivia_eq hc
    obtain ⟨n, hn, hshape⟩ := exists_mem_nodesOfAll hu (ih huc) start
    exact ⟨n, List.mem_cons_of_mem _ hn, hshape⟩
  induction h generalizing t start with
  | refl =>
    obtain ⟨kind, children, rfl, -⟩ := exists_children ht
    exact ⟨⟨start, kind, children⟩, List.mem_cons_self, ht⟩
  | node he _ ih => exact hpart (tree_mem_treesOfAll he) ih ht start
  | first _ ih => exact hpart List.mem_cons_self ih ht start
  | around he _ ih => exact hpart (List.mem_cons_of_mem _ (tree_mem_treesOfAll he)) ih ht start

end Tree

end CRBasic
