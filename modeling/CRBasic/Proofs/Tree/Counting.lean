import CRBasic.Proofs.Tree.Gaps
import CRBasic.Proofs.Tree.Statements

/-!
# Counting comments

A builder that starts nodes in a gap counts the comments there by these nodes: the comments that it still
finds are those after as many as there are nodes (`Builder.Counts`).  This is so behind every word, and stays
so when a node starts or ends.
-/

namespace CRBasic

open Lexeme

namespace Builder

/-- How far a builder has come in a text: behind its last word, and some blanks and comments behind that
word.  The nodes that have started did so at the given offsets. -/
structure Reached (xs : List Lexeme) (starts : List Nat) (front gap : List Lexeme) (b : Builder) :
    Prop where
  text_ne_nil : ∀ x ∈ xs, x.text ≠ []
  append_eq : front ++ gap ++ b.rest = xs
  isTrivia : ∀ x ∈ gap, x.kind.isTrivia
  isTrivia_getLast : ∀ x ∈ front.getLast?, x.kind.isTrivia = false
  atStart : b.atStart = (front ++ gap).isEmpty
  starts_le : ∀ n ∈ starts, n ≤ byteLength (joined (front ++ gap))

/-- The comments that a builder still finds before the next word are those after as many as nodes have
started. -/
def Counts (starts : List Nat) (front gap : List Lexeme) (b : Builder) : Prop :=
  ∀ ahead w more, b.rest = ahead ++ w :: more → (∀ x ∈ ahead, x.kind.isTrivia) →
    w.kind.isTrivia = false → ownLineComments b.atStart ahead =
      (ownLineComments front.isEmpty (gap ++ ahead)).drop (countBehind front starts)

variable {xs front gap front' gap' : List Lexeme} {starts : List Nat} {b c : Builder} {n m : OpenNode}
  {outer : List OpenNode} {ts us : List Tree}

/-! ### Offsets -/

theorem Reached.offset {starts' : List Nat} (h : Reached xs starts front gap b)
    (h' : Reached xs starts' front' gap' c) (hleaves : Tree.leavesOfAll ts ++ c.rest = b.rest) :
    byteLength (joined (front' ++ gap')) = byteLength (joined (front ++ gap)) + Tree.widthOfAll ts := by
  have hsame : front ++ gap ++ Tree.leavesOfAll ts ++ c.rest = front' ++ gap' ++ c.rest := by
    rw [List.append_assoc (front ++ gap), hleaves, h.append_eq, h'.append_eq]
  rw [← List.append_cancel_right hsame, joined_append, byteLength_append, Tree.widthOfAll_eq]

/-! ### Single steps -/

theorem rest_openNodes (h : b.nodes = n :: outer) (kinds : List NodeKind) :
    (b.openNodes kinds).rest = (splitLeading b.atStart b.rest).2 := by
  simp only [openNodes, h, List.isEmpty_cons, Bool.false_eq_true, if_false]
  exact rest_foldl_open _ _

theorem atStart_openNodes (h : b.nodes = n :: outer) (kinds : List NodeKind) :
    (b.openNodes kinds).atStart = (b.atStart && (splitLeading b.atStart b.rest).1.isEmpty) := by
  have hfold (c : Builder) :
      (kinds.foldl (fun b kind => { b with nodes := ⟨kind, []⟩ :: b.nodes }) c).atStart = c.atStart := by
    induction kinds generalizing c with
    | nil => rfl
    | cons kind kinds ih => rw [List.foldl_cons, ih]
  simp only [openNodes, h, List.isEmpty_cons, Bool.false_eq_true, if_false, hfold]
  exact atStart_addLexemes b _ _

section Open

variable {skipped rest : List Lexeme} (hsplit : splitLeading b.atStart b.rest = (skipped, rest))
include hsplit

theorem rest_eq_of_splitLeading : b.rest = skipped ++ rest ∧ ∀ x ∈ skipped, x.kind.isTrivia := by
  have happend := splitLeading_append b.atStart b.rest
  have htrivia := isTrivia_splitLeading b.atStart b.rest
  rw [hsplit] at happend htrivia
  exact ⟨happend.symm, htrivia⟩

/-- A node that starts, and has words in the end, begins with the comment that is found. -/
theorem Reached.follows (hr : Reached xs starts front gap b) (hc : Counts starts front gap b)
    {kind : NodeKind} {children : List Tree} {back : List Lexeme}
    (hrest : Tree.leavesOfAll children ++ back = rest) :
    Node.Follows xs starts ⟨byteLength (joined (front ++ (gap ++ skipped))), kind, children⟩ := by
  intro hword
  obtain ⟨hbefore, hskipped⟩ := rest_eq_of_splitLeading hsplit
  obtain ⟨lead, w, inner, hleaves, htrivia, hw⟩ := exists_first_word hword
  have hrest : rest = lead ++ w :: (inner ++ back) := by simp [← hrest, hleaves]
  have hahead : ∀ x ∈ skipped ++ lead, x.kind.isTrivia := List.forall_mem_append.2 ⟨hskipped, htrivia⟩
  subst hrest
  obtain ⟨hlead, -⟩ := splitLeading_spec hsplit htrivia
  have hcounts := hc (skipped ++ lead) w (inner ++ back) (by rw [hbefore, List.append_assoc]) hahead hw
  let g : Gap xs :=
    { front, trivia := gap ++ (skipped ++ lead), word := w, back := inner ++ back
      append_eq := by rw [← hr.append_eq, hbefore]; simp
      isTrivia := List.forall_mem_append.2 ⟨hr.isTrivia, hahead⟩
      isTrivia_word := hw
      isTrivia_getLast := hr.isTrivia_getLast }
  have hleading : g.leading (countBehind front starts) = lead := by
    rw [hlead, hcounts, List.getElem?_drop]
    rfl
  refine ⟨g, ?_, inner, ?_⟩
  · rw [hleading]
    simp [g, joined_append, Nat.add_assoc]
  · rw [hleading]
    exact hleaves

variable (h : b.nodes = n :: outer) (hr : Reached xs starts front gap b)
include h hr

/-- Nodes start after what is passed over. -/
theorem Reached.openNodes (kinds : List NodeKind) :
    Reached xs (starts ++ kinds.map fun _ => byteLength (joined (front ++ (gap ++ skipped))))
      front (gap ++ skipped) (b.openNodes kinds) := by
  obtain ⟨hrest, hskipped⟩ := rest_eq_of_splitLeading hsplit
  refine ⟨hr.text_ne_nil, ?_, List.forall_mem_append.2 ⟨hr.isTrivia, hskipped⟩, hr.isTrivia_getLast,
    ?_, ?_⟩
  · rw [rest_openNodes h, hsplit, ← List.append_assoc front, List.append_assoc, ← hrest, hr.append_eq]
  · rw [atStart_openNodes h, hsplit, hr.atStart, Bool.eq_iff_iff]
    simp [and_assoc]
  · refine List.forall_mem_append.2 ⟨fun k hk => Nat.le_trans (hr.starts_le k hk) ?_, by simp⟩
    rw [← List.append_assoc, joined_append (front ++ gap), byteLength_append]
    exact Nat.le_add_right _ _

/-- A node that starts takes a comment away. -/
theorem Counts.openNode (hc : Counts starts front gap b) (kind : NodeKind) :
    Counts (starts ++ [byteLength (joined (front ++ (gap ++ skipped)))]) front (gap ++ skipped)
      (b.openNodes [kind]) := by
  intro lead w more hlead htrivia hw
  obtain ⟨hrest, hskipped⟩ := rest_eq_of_splitLeading hsplit
  have hr' := hr.openNodes hsplit h [kind]
  rw [rest_openNodes h, hsplit] at hlead
  subst hlead
  obtain ⟨-, hmore⟩ := splitLeading_spec hsplit htrivia
  have hcounts := hc (skipped ++ lead) w more (by rw [hrest, List.append_assoc])
    (List.forall_mem_append.2 ⟨hskipped, htrivia⟩) hw
  rw [List.append_assoc gap]
  by_cases hnil : front ++ (gap ++ skipped) = []
  · -- Nothing has been passed over since the start of the text, so the next node starts there too.
    have hstart := hr'.atStart
    rw [hnil] at hstart
    simp only [List.append_eq_nil_iff] at hnil
    obtain ⟨rfl, rfl, rfl⟩ := hnil
    have hcount : countBehind [] (starts ++ [byteLength (joined ([] ++ ([] ++ [])))]) = 0 :=
      countBehind_eq_zero (k := 0) hr'.starts_le (.inl rfl)
    rw [hstart, hcount]
    rfl
  · obtain ⟨x, hx⟩ := List.exists_mem_of_ne_nil _ hnil
    have hmem : x ∈ xs := by
      rw [← hr'.append_eq]
      exact List.mem_append_left _ (by simpa using hx)
    have hpos := byteLength_joined_pos hx (hr.text_ne_nil x hmem)
    have hle : byteLength (joined front) ≤ byteLength (joined (front ++ (gap ++ skipped))) := by
      rw [joined_append, byteLength_append]
      exact Nat.le_add_right _ _
    have hcount := countBehind_concat starts hpos hle
    have hstart : (b.openNodes [kind]).atStart = false := by
      rw [hr'.atStart]
      simpa using hnil
    rw [hstart, hmore, hcounts, List.tail_drop, hcount]

end Open

/-- A word ends the gap before it. -/
theorem Reached.addWord (hr : Reached xs starts front gap b) (h : b.nodes = n :: outer) {w : Word}
    {ws : List Lexeme} (hw : Lexeme.words b.rest = w.lexeme :: ws) :
    ∃ front', Reached xs starts front' [] (b.addWord w.kind) ∧
      Counts starts front' [] (b.addWord w.kind) := by
  obtain ⟨hadds, -, hstart⟩ := addWord_spec h hw
  have hword := isTrivia_of_words_eq_cons hw
  have hleaves := hadds.leaves
  rw [Tree.leavesOfAll_append, Tree.leavesOfAll_ofLexemes] at hleaves
  let ahead := b.rest.takeWhile (·.kind.isTrivia)
  have happend : front ++ gap ++ (ahead ++ [w.lexeme]) ++ (b.addWord w.kind).rest = xs := by
    rw [← hr.append_eq, ← hleaves]
    simp [Tree.leavesOfAll, Tree.leaves, Word.lexeme, ahead]
  have hpos : 0 < byteLength (joined [w.lexeme]) :=
    byteLength_joined_pos List.mem_cons_self (hr.text_ne_nil _ (by simp [← happend]))
  have hlt : byteLength (joined (front ++ gap)) <
      byteLength (joined (front ++ gap ++ (ahead ++ [w.lexeme]))) := by
    simp only [joined_append, byteLength_append] at hpos ⊢
    omega
  refine ⟨front ++ gap ++ (ahead ++ [w.lexeme]),
    ⟨hr.text_ne_nil, by simpa using happend, by simp, ?_, ?_, ?_⟩, ?_⟩
  · rw [← List.append_assoc, List.getLast?_concat]
    simpa [Word.lexeme] using hword
  · rw [hstart]
    simp
  · intro k hk
    rw [List.append_nil]
    exact Nat.le_trans (hr.starts_le k hk) (Nat.le_of_lt hlt)
  · intro ahead' v more _ _ _
    have hne : (front ++ gap ++ (ahead ++ [w.lexeme])).isEmpty = false := by simp
    rw [hstart, countBehind_eq_zero hr.starts_le (.inr hlt), hne]
    rfl

/-- Nothing is found behind the last word of a text. -/
theorem Reached.closeNode (hr : Reached xs starts front gap b) (hc : Counts starts front gap b)
    {ys : List Lexeme} (hys : ∀ y ∈ ys, y.kind.isTrivia)
    (hend : ys = [] ∨ ∀ x ∈ b.rest, x.kind.isTrivia) (hrest : ys ++ b.closeNode.rest = b.rest)
    (hstart : b.closeNode.atStart = (b.atStart && ys.isEmpty)) :
    Reached xs starts front (gap ++ ys) b.closeNode ∧ Counts starts front (gap ++ ys) b.closeNode := by
  constructor
  · refine ⟨hr.text_ne_nil, ?_, List.forall_mem_append.2 ⟨hr.isTrivia, hys⟩, hr.isTrivia_getLast, ?_,
      fun k hk => ?_⟩
    · rw [← List.append_assoc, List.append_assoc, hrest, hr.append_eq]
    · rw [hstart, hr.atStart, Bool.eq_iff_iff]
      simp [and_assoc]
    · refine Nat.le_trans (hr.starts_le k hk) ?_
      rw [← List.append_assoc, joined_append (front ++ gap), byteLength_append]
      exact Nat.le_add_right _ _
  · intro ahead w more hahead htrivia hw
    obtain rfl | hend := hend
    · have hsame : b.closeNode.rest = b.rest := hrest
      rw [hstart, List.isEmpty_nil, Bool.and_true, List.append_nil]
      exact hc ahead w more (hsame ▸ hahead) htrivia hw
    · have hmem : w ∈ b.rest := by simp [← hrest, hahead]
      rw [hend w hmem] at hw
      cases hw

end Builder

end CRBasic
