import CRBasic.Proofs.Lossless

/-!
# Where nodes end

A node of a text stands where its lexemes stand.  It ends in a word or in a node, but a statement list with
no word behind it ends where the text ends (`exists_place_parseWith`).  The nodes that a node ends in, one
inside the other, all end at the same place (`Node.stop_eq_of_mem_lastNodes`).
-/

namespace CRBasic

namespace Tree

open Lexeme

variable {n : Node}

mutual

/-- A node stands among the lexemes of the tree that it is in. -/
theorem Tidy.exists_place : ∀ (t : Tree) {start : Nat} {after : List Lexeme}, t.Tidy after →
    n ∈ t.nodes start → ∃ front back, t.leaves = front ++ leavesOfAll n.children ++ back ∧
      n.start = start + byteLength (joined front) ∧ EndsBefore (back ++ after) n.kind n.children
  | leaf _ _, _, _, _, hn => by cases hn
  | node kind children, start, after, ht, hn => by
    rcases List.mem_cons.1 hn with rfl | hn
    · exact ⟨[], [], by simp [leaves], rfl, ht.1⟩
    · exact TidyAll.exists_place children ht.2 hn

theorem TidyAll.exists_place : ∀ (ts : List Tree) {start : Nat} {after : List Lexeme}, TidyAll after ts →
    n ∈ nodesOfAll start ts → ∃ front back, leavesOfAll ts = front ++ leavesOfAll n.children ++ back ∧
      n.start = start + byteLength (joined front) ∧ EndsBefore (back ++ after) n.kind n.children
  | [], _, _, _, hn => by cases hn
  | t :: ts, start, after, hts, hn => by
    rcases List.mem_append.1 hn with hn | hn
    · obtain ⟨front, back, hleaves, hstart, hend⟩ := Tidy.exists_place t hts.1 hn
      exact ⟨front, back ++ leavesOfAll ts, by simp [leavesOfAll, hleaves], hstart, by simpa using hend⟩
    · obtain ⟨front, back, hleaves, hstart, hend⟩ := TidyAll.exists_place ts hts.2 hn
      refine ⟨t.leaves ++ front, back, by simp [leavesOfAll, hleaves], ?_, hend⟩
      rw [hstart, width_eq, joined_append, byteLength_append, Nat.add_assoc]

end

end Tree

/-! ### Texts -/

/-- A node of a text stands among the lexemes of the text, at the offset where its own lexemes start. -/
theorem exists_place_parseWith {options : ParseOptions} {source : List Char} {n : Node}
    (hn : n ∈ (parseWith options source).tree.nodes 0) (hroot : n.kind ≠ .sourceFile) :
    ∃ front back, lexemes source = front ++ Tree.leavesOfAll n.children ++ back ∧
      n.start = byteLength (Lexeme.joined front) ∧ Tree.EndsBefore back n.kind n.children := by
  obtain ⟨parts, hevents, hwords⟩ :=
    Parsing.exists_draft options (Word.ofLexemes true (lexemes source))
  obtain ⟨ts, htree, hleaves, -, htidy⟩ := Draft.ofEvents_root .sourceFile (words_lexemes hwords)
  rw [tree_parseWith, hevents, htree] at hn
  rcases List.mem_cons.1 hn with rfl | hn
  · exact absurd rfl hroot
  · obtain ⟨front, back, hplace, hstart, hend⟩ := Tree.TidyAll.exists_place ts htidy hn
    exact ⟨front, back, hleaves.symm.trans hplace, by simpa using hstart, by simpa using hend⟩

/-- In the tree of a text only the root and the statement lists may end in a blank, a line break or a
comment. -/
theorem endInPart_parseWith {options : ParseOptions} {source : List Char} {n : Node}
    (hn : n ∈ (parseWith options source).tree.nodes 0) (hroot : n.kind ≠ .sourceFile)
    (hlist : n.kind ≠ .stmtList) : Tree.EndInPart n.children := by
  obtain ⟨_, _, -, -, hend⟩ := exists_place_parseWith hn hroot
  exact hend.elim (fun h => absurd h.1 hlist) And.left

/-! ### The nodes that a node ends in -/

namespace Tree

mutual

/-- A node, and the nodes that it ends in: its last part if that is a node, the last part of this one, and
so on. -/
def lastNodes (start : Nat) : Tree → List Node
  | leaf _ _ => []
  | node kind children => ⟨start, kind, children⟩ :: lastNodesOfAll start children

/-- The nodes that some trees end in. -/
def lastNodesOfAll (start : Nat) : List Tree → List Node
  | [] => []
  | t :: ts => if ts.isEmpty then t.lastNodes start else lastNodesOfAll (start + t.width) ts

end

theorem lastNodesOfAll_concat (start : Nat) (ts : List Tree) (t : Tree) :
    lastNodesOfAll start (ts ++ [t]) = t.lastNodes (start + widthOfAll ts) := by
  induction ts generalizing start with
  | nil => rfl
  | cons u ts ih => simp [lastNodesOfAll, ih, widthOfAll, Nat.add_assoc]

theorem widthOfAll_append (ts us : List Tree) :
    widthOfAll (ts ++ us) = widthOfAll ts + widthOfAll us := by
  rw [widthOfAll_eq, leavesOfAll_append, Lexeme.joined_append, byteLength_append, ← widthOfAll_eq,
    ← widthOfAll_eq]

mutual

/-- The nodes in a node of a tree are nodes of the tree. -/
theorem mem_nodes_of_mem_children : ∀ (t : Tree) {start : Nat} {n m : Node}, n ∈ t.nodes start →
    m ∈ nodesOfAll n.start n.children → m ∈ t.nodes start
  | leaf _ _, _, _, _, hn, _ => by cases hn
  | node kind children, start, n, m, hn, hm => by
    refine List.mem_cons_of_mem _ ?_
    rcases List.mem_cons.1 hn with rfl | hn
    · exact hm
    · exact mem_nodesOfAll_of_mem_children children hn hm

theorem mem_nodesOfAll_of_mem_children : ∀ (ts : List Tree) {start : Nat} {n m : Node},
    n ∈ nodesOfAll start ts → m ∈ nodesOfAll n.start n.children → m ∈ nodesOfAll start ts
  | [], _, _, _, hn, _ => by cases hn
  | t :: ts, start, n, m, hn, hm => by
    rcases List.mem_append.1 hn with hn | hn
    · exact List.mem_append_left _ (mem_nodes_of_mem_children t hn hm)
    · exact List.mem_append_right _ (mem_nodesOfAll_of_mem_children ts hn hm)

end

end Tree

namespace Node

/-- A node, and the nodes that it ends in. -/
def lastNodes (n : Node) : List Node := (Tree.node n.kind n.children).lastNodes n.start

variable {n m : Node} {us cs : List Tree} {k : NodeKind}

theorem mem_lastNodes_self (n : Node) : n ∈ n.lastNodes := List.mem_cons_self

theorem mem_nodes_of_last {t : Tree} {start : Nat} (hmem : n ∈ t.nodes start)
    (hn : n.children = us ++ [.node k cs]) :
    (⟨n.start + Tree.widthOfAll us, k, cs⟩ : Node) ∈ t.nodes start := by
  refine Tree.mem_nodes_of_mem_children t hmem ?_
  rw [hn, Tree.nodesOfAll_append]
  exact List.mem_append_right _ List.mem_cons_self

/-- A node ends in whatever its last part ends in. -/
theorem mem_lastNodes_of_last (hn : n.children = us ++ [.node k cs])
    (hm : m ∈ (⟨n.start + Tree.widthOfAll us, k, cs⟩ : Node).lastNodes) : m ∈ n.lastNodes := by
  refine List.mem_cons_of_mem _ ?_
  rw [hn, Tree.lastNodesOfAll_concat]
  exact hm

/-- A node ends where its last part ends. -/
theorem stop_eq_of_last (hn : n.children = us ++ [.node k cs]) :
    (⟨n.start + Tree.widthOfAll us, k, cs⟩ : Node).range.stop = n.range.stop := by
  simp [range, hn, Tree.widthOfAll_append, Tree.widthOfAll, Tree.width, Nat.add_assoc]

end Node

end CRBasic
