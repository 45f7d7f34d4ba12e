import CRBasic.Proofs.Blocks.Draft
import CRBasic.Proofs.Lossless

/-!
# Where nodes stand

What holds of every draft inside another one, behind so many words of the text, holds of what the nodes
of a tree show, behind the words in front of them (`Tree.Shows.exists_standing`).
-/

namespace CRBasic

namespace Draft

mutual

/-- A draft behind `n` words has some property, and so have all drafts inside it where they stand. -/
def AllAt (P : Nat → Draft → Prop) (n : Nat) : Draft → Prop
  | node kind parts => P n (node kind parts) ∧ AllPartsAt P n parts
  | around kind first parts =>
    P n (around kind first parts) ∧ first.AllAt P n ∧ AllPartsAt P (n + first.words.length) parts

/-- The drafts among some parts behind `n` words have some property, and so have all drafts inside
them. -/
def AllPartsAt (P : Nat → Draft → Prop) (n : Nat) : List (Piece Draft) → Prop
  | [] => True
  | .word _ :: ps => AllPartsAt P (n + 1) ps
  | .node d :: ps => d.AllAt P n ∧ AllPartsAt P (n + d.words.length) ps

end

variable {P : Nat → Draft → Prop} {n : Nat} {d : Draft} {ps qs : List (Piece Draft)}

theorem allAt_iff : d.AllAt P n ↔ P n d ∧ AllPartsAt P n d.pieces := by
  cases d <;> rfl

theorem allPartsAt_append : AllPartsAt P n (ps ++ qs) ↔
    AllPartsAt P n ps ∧ AllPartsAt P (n + (wordsOfAll ps).length) qs := by
  induction ps generalizing n with
  | nil => simp [AllPartsAt, wordsOfAll]
  | cons p ps ih =>
    cases p with
    | word w => simp [AllPartsAt, wordsOfAll, ih, Nat.add_assoc, Nat.add_comm 1]
    | node d => simp [AllPartsAt, wordsOfAll, ih, Nat.add_assoc, and_assoc]

end Draft

/-- A node of a tree shows a draft, which stands behind some of the lexemes of the tree. -/
structure Node.Stands (n : Node) (start : Nat) (xs front : List Lexeme) (d : Draft) : Prop where
  shows : (Tree.node n.kind n.children).Shows d
  leaves : ∃ back, xs = front ++ Tree.leavesOfAll n.children ++ back
  start_eq : n.start = start + byteLength (Lexeme.joined front)

theorem Node.Stands.behind {n : Node} {start : Nat} {xs ys front : List Lexeme} {d : Draft}
    (h : n.Stands (start + byteLength (Lexeme.joined ys)) xs front d) (zs : List Lexeme) :
    n.Stands start (ys ++ xs ++ zs) (ys ++ front) d := by
  obtain ⟨back, hback⟩ := h.leaves
  refine ⟨h.shows, ⟨back ++ zs, by simp [hback]⟩, ?_⟩
  rw [h.start_eq, Lexeme.joined_append, byteLength_append, Nat.add_assoc]

namespace Tree

open Draft

variable {P : Nat → Draft → Prop}

theorem length_words_leaves {t : Tree} {d : Draft} (h : t.Shows d) :
    (Lexeme.words t.leaves).length = d.words.length := by
  rw [words_leaves h.shape, List.length_map]

mutual

/-- Every node of a tree shows one of the drafts inside the one that the tree shows, where that stands. -/
theorem Shows.exists_standing : ∀ (t : Tree) {d : Draft} {m start : Nat} {n : Node}, t.Shows d →
    d.AllAt P m → n ∈ t.nodes start → ∃ e front, n.Stands start t.leaves front e ∧
      P (m + (Lexeme.words front).length) e
  | leaf kind text, d, m, start, n, _, _, hn => by simp [nodes] at hn
  | node kind children, d, m, start, n, ht, hd, hn => by
    rcases List.mem_cons.1 hn with rfl | hn
    · exact ⟨d, [], ⟨ht, ⟨[], by simp [leaves]⟩, rfl⟩, (allAt_iff.1 hd).1⟩
    · obtain ⟨children', hnode, hchildren⟩ := ht.exists_children
      obtain ⟨-, rfl⟩ := node.inj hnode
      exact ShowAll.exists_standing children hchildren (allAt_iff.1 hd).2 hn

theorem ShowAll.exists_standing : ∀ (ts : List Tree) {ps : List (Piece Draft)} {m start : Nat}
    {n : Node}, ShowAll ts ps → AllPartsAt P m ps → n ∈ nodesOfAll start ts →
      ∃ e front, n.Stands start (leavesOfAll ts) front e ∧ P (m + (Lexeme.words front).length) e
  | [], ps, m, start, n, _, _, hn => by simp [nodesOfAll] at hn
  | t :: ts, ps, m, start, n, hts, hps, hn => by
    have hlater {m' : Nat} {ps' : List (Piece Draft)} (hmore : ShowAll ts ps')
        (hps' : AllPartsAt P m' ps') (hm : m' = m + (Lexeme.words t.leaves).length)
        (hn : n ∈ nodesOfAll (start + t.width) ts) : ∃ e front,
          n.Stands start (leavesOfAll (t :: ts)) front e ∧ P (m + (Lexeme.words front).length) e := by
      obtain ⟨e, front, hstands, he⟩ := ShowAll.exists_standing ts hmore hps' hn
      rw [width_eq] at hstands
      have hbehind := hstands.behind []
      rw [List.append_nil] at hbehind
      refine ⟨e, t.leaves ++ front, hbehind, ?_⟩
      rw [hm, Nat.add_assoc, ← List.length_append, ← Lexeme.words_append] at he
      exact he
    cases hts.cases with
    | trivia hkind hmore =>
      refine hlater hmore hps ?_ hn
      simp [leaves, Lexeme.words, hkind]
    | word hkind hmore =>
      refine hlater hmore hps ?_ hn
      simp [leaves, Lexeme.words, hkind]
    | node ht hmore =>
      rcases List.mem_append.1 hn with hn | hn
      · obtain ⟨e, front, ⟨hshows, ⟨back, hback⟩, hstart⟩, he⟩ := Shows.exists_standing t ht hps.1 hn
        exact ⟨e, front, ⟨hshows, ⟨back ++ leavesOfAll ts, by simp [leavesOfAll, hback]⟩, hstart⟩, he⟩
      · exact hlater hmore hps.2 (by rw [length_words_leaves ht]) hn

end

end Tree

end CRBasic
