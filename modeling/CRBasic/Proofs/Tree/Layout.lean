import CRBasic.Proofs.Tree.Steps
import CRBasic.Tree.Node
import Mathlib.Data.List.TakeWhile

/-!
# Placing the lexemes

Building a tree along the steps of a draft places every lexeme once and in order, blanks, line breaks
and comments included; without these the tree is that of the draft (`ofEvents_root`).  They stand before
the parts of a node: only the root and a statement list at the end of the text may end in them
(`Tree.Tidy`).
-/

namespace CRBasic

/-! ### Trees without blanks and comments -/

namespace Tree

mutual

/-- A tree without its leaves that are blanks, line breaks or comments. -/
def withoutTrivia : Tree → Tree
  | leaf kind text => leaf kind text
  | node kind children => node kind (withoutTriviaOfAll children)

/-- Trees without the leaves that are blanks, line breaks or comments. -/
def withoutTriviaOfAll : List Tree → List Tree
  | [] => []
  | leaf kind text :: ts =>
    if kind.isTrivia then withoutTriviaOfAll ts else leaf kind text :: withoutTriviaOfAll ts
  | node kind children :: ts => withoutTrivia (node kind children) :: withoutTriviaOfAll ts

end

/-- Lexemes as leaves. -/
def ofLexemes (xs : List Lexeme) : List Tree := xs.map fun x => leaf x.kind x.text

@[simp] theorem leavesOfAll_append (ts us : List Tree) :
    leavesOfAll (ts ++ us) = leavesOfAll ts ++ leavesOfAll us := by
  induction ts with
  | nil => simp [leavesOfAll]
  | cons t ts ih => simp [leavesOfAll, ih]

@[simp] theorem leavesOfAll_ofLexemes (xs : List Lexeme) : leavesOfAll (ofLexemes xs) = xs := by
  induction xs with
  | nil => simp [ofLexemes, leavesOfAll]
  | cons x xs ih => simpa [ofLexemes, leavesOfAll, leaves] using ih

@[simp] theorem withoutTriviaOfAll_append (ts us : List Tree) :
    withoutTriviaOfAll (ts ++ us) = withoutTriviaOfAll ts ++ withoutTriviaOfAll us := by
  induction ts with
  | nil => simp [withoutTriviaOfAll]
  | cons t ts ih =>
    cases t with
    | leaf kind text =>
      simp only [List.cons_append, withoutTriviaOfAll, ih]
      split <;> rfl
    | node kind children => simp [withoutTriviaOfAll, ih]

theorem withoutTriviaOfAll_ofLexemes {xs : List Lexeme} (h : ∀ x ∈ xs, x.kind.isTrivia) :
    withoutTriviaOfAll (ofLexemes xs) = [] := by
  induction xs with
  | nil => simp [ofLexemes, withoutTriviaOfAll]
  | cons x xs ih =>
    have hx := h x List.mem_cons_self
    have := ih fun y hy => h y (List.mem_cons_of_mem _ hy)
    simp_all [ofLexemes, withoutTriviaOfAll]

theorem nodesOfAll_append (start : Nat) (ts us : List Tree) : nodesOfAll start (ts ++ us) =
    nodesOfAll start ts ++ nodesOfAll (start + widthOfAll ts) us := by
  induction ts generalizing start with
  | nil => simp [nodesOfAll, widthOfAll]
  | cons t ts ih => simp [nodesOfAll, widthOfAll, ih, Nat.add_assoc]

/-! ### Where nodes end -/

/-- The last of some trees, if there is any, is no blank, line break or comment. -/
def EndInPart (ts : List Tree) : Prop :=
  ∀ kind text, ts.getLast? = some (leaf kind text) → kind.isTrivia = false

/-- A node before the given lexemes, the rest of the text, ends in a part.  Only a statement list may take
the rest of the text instead, and it does so if there is no word in it. -/
def EndsBefore (after : List Lexeme) (kind : NodeKind) (children : List Tree) : Prop :=
  (kind = .stmtList ∧ after = []) ∨
    (EndInPart children ∧ (kind = .stmtList → ∃ x ∈ after, x.kind.isTrivia = false))

mutual

/-- All nodes of a tree before the given lexemes end where they should. -/
def Tidy (after : List Lexeme) : Tree → Prop
  | leaf _ _ => True
  | node kind children => EndsBefore after kind children ∧ TidyAll after children

/-- All nodes of some trees before the given lexemes end where they should. -/
def TidyAll (after : List Lexeme) : List Tree → Prop
  | [] => True
  | t :: ts => t.Tidy (leavesOfAll ts ++ after) ∧ TidyAll after ts

end

theorem EndInPart.append {ts us : List Tree} (hus : EndInPart us)
    (hts : us = [] → EndInPart ts) : EndInPart (ts ++ us) := by
  cases us with
  | nil =>
    rw [List.append_nil]
    exact hts rfl
  | cons u us =>
    intro kind text h
    rw [List.getLast?_append, List.getLast?_cons, Option.some_or, ← List.getLast?_cons] at h
    exact hus kind text h

theorem endInPart_of_withoutTrivia {t u : Tree} (h : withoutTriviaOfAll [t] = [u]) :
    EndInPart [t] := by
  intro kind text hlast
  obtain rfl : t = leaf kind text := by simpa using hlast
  rw [withoutTriviaOfAll] at h
  split at h
  · cases h
  · next htrivia => simpa using htrivia

theorem tidyAll_append {after : List Lexeme} {ts us : List Tree} :
    TidyAll after (ts ++ us) ↔ TidyAll (leavesOfAll us ++ after) ts ∧ TidyAll after us := by
  induction ts with
  | nil => simp [TidyAll]
  | cons t ts ih => simp [TidyAll, ih, and_assoc]

theorem tidyAll_ofLexemes (after xs : List Lexeme) : TidyAll after (ofLexemes xs) := by
  induction xs with
  | nil => exact trivial
  | cons x xs ih => exact ⟨trivial, ih⟩

end Tree

/-! ### Words among lexemes -/

/-- The lexeme of a word. -/
def Word.lexeme (w : Word) : Lexeme := ⟨w.kind, w.text⟩

namespace Lexeme

/-- The lexemes that are words. -/
def words (xs : List Lexeme) : List Lexeme := xs.filter fun x => !x.kind.isTrivia

theorem words_append (xs ys : List Lexeme) : words (xs ++ ys) = words xs ++ words ys :=
  List.filter_append ..

theorem words_eq_nil {xs : List Lexeme} (h : ∀ x ∈ xs, x.kind.isTrivia) : words xs = [] := by
  rw [words, List.filter_eq_nil_iff]
  intro x hx
  simp [h x hx]

theorem isTrivia_of_words_eq_nil {xs : List Lexeme} (h : words xs = []) :
    ∀ x ∈ xs, x.kind.isTrivia := by
  simpa [words, List.filter_eq_nil_iff] using h

theorem exists_first_word {ys : List Lexeme} (h : ∃ x ∈ ys, x.kind.isTrivia = false) :
    ∃ lead w inner, ys = lead ++ w :: inner ∧ (∀ x ∈ lead, x.kind.isTrivia) ∧
      w.kind.isTrivia = false := by
  have hfind : (ys.find? (!·.kind.isTrivia)).isSome := by simpa using h
  obtain ⟨w, hw⟩ := Option.isSome_iff_exists.1 hfind
  obtain ⟨hword, lead, inner, rfl, hlead⟩ := List.find?_eq_some_iff_append.1 hw
  exact ⟨lead, w, inner, rfl, by simpa using hlead, by simpa using hword⟩

theorem words_ofLexemes (startsLine : Bool) (xs : List Lexeme) :
    (Word.ofLexemes startsLine xs).map Word.lexeme = words xs := by
  induction xs generalizing startsLine with
  | nil => rfl
  | cons x xs ih =>
    by_cases hx : x.kind.isTrivia
    · simpa [Word.ofLexemes, words, hx] using ih _
    · simpa [Word.ofLexemes, words, hx, Word.lexeme] using ih false

end Lexeme

/-! ### Single steps -/

namespace Builder

variable {b b' c : Builder} {n m : OpenNode} {outer : List OpenNode} {ts us : List Tree}

/-- The innermost node has got some more children, which hold the lexemes placed. -/
structure Adds (b : Builder) (n : OpenNode) (outer : List OpenNode) (ts : List Tree)
    (b' : Builder) : Prop where
  nodes : b'.nodes = ⟨n.kind, ts.reverse ++ n.children⟩ :: outer
  leaves : Tree.leavesOfAll ts ++ b'.rest = b.rest
  tidy : Tree.TidyAll b'.rest ts

theorem Adds.trans (h : Adds b n outer ts b')
    (h' : Adds b' ⟨n.kind, ts.reverse ++ n.children⟩ outer us c) : Adds b n outer (ts ++ us) c := by
  constructor
  · simp [h'.nodes]
  · rw [Tree.leavesOfAll_append, List.append_assoc, h'.leaves, h.leaves]
  · exact Tree.tidyAll_append.2 ⟨h'.leaves.symm ▸ h.tidy, h'.tidy⟩

theorem nodes_add (h : b.nodes = n :: outer) (t : Tree) :
    (b.add t).nodes = ⟨n.kind, t :: n.children⟩ :: outer := by
  simp only [add, h]

theorem nodes_foldl_add (h : b.nodes = n :: outer) (xs : List Lexeme) :
    (xs.foldl (fun b x => b.add (.leaf x.kind x.text)) b).nodes =
      ⟨n.kind, (Tree.ofLexemes xs).reverse ++ n.children⟩ :: outer := by
  induction xs generalizing b n with
  | nil => simpa [Tree.ofLexemes] using h
  | cons x xs ih =>
    rw [List.foldl_cons, ih (nodes_add h _)]
    simp [Tree.ofLexemes]

theorem adds_addLexemes (h : b.nodes = n :: outer) {xs rest : List Lexeme}
    (hrest : xs ++ rest = b.rest) : Adds b n outer (Tree.ofLexemes xs) (b.addLexemes xs rest) :=
  ⟨nodes_foldl_add h xs, by simpa [addLexemes] using hrest, Tree.tidyAll_ofLexemes _ xs⟩

/-- Lexemes placed that are no words leave the words that follow. -/
theorem words_rest {xs rest : List Lexeme} (hrest : xs ++ rest = b.rest)
    (hxs : ∀ x ∈ xs, x.kind.isTrivia) : Lexeme.words rest = Lexeme.words b.rest := by
  rw [← hrest, Lexeme.words_append, Lexeme.words_eq_nil hxs, List.nil_append]

theorem splitLeading_append (lineStart : Bool) (xs : List Lexeme) :
    (splitLeading lineStart xs).1 ++ (splitLeading lineStart xs).2 = xs := by
  induction xs generalizing lineStart with
  | nil => rfl
  | cons x xs ih =>
    rw [splitLeading]
    split
    · rfl
    · exact congrArg (x :: ·) (ih _)

theorem isTrivia_splitLeading (lineStart : Bool) (xs : List Lexeme) :
    ∀ x ∈ (splitLeading lineStart xs).1, x.kind.isTrivia := by
  induction xs generalizing lineStart with
  | nil => simp [splitLeading]
  | cons x xs ih =>
    rw [splitLeading]
    split
    · simp
    · next h =>
      intro y hy
      rcases List.mem_cons.1 hy with rfl | hy
      · simp_all
      · exact ih _ y hy

theorem nodes_foldl_open (b : Builder) (kinds : List NodeKind) :
    (kinds.foldl (fun b kind => { b with nodes := ⟨kind, []⟩ :: b.nodes }) b).nodes =
      kinds.reverse.map (fun kind => ⟨kind, []⟩) ++ b.nodes := by
  induction kinds generalizing b with
  | nil => rfl
  | cons kind kinds ih => simp [ih]

theorem rest_foldl_open (b : Builder) (kinds : List NodeKind) :
    (kinds.foldl (fun b kind => { b with nodes := ⟨kind, []⟩ :: b.nodes }) b).rest = b.rest := by
  induction kinds generalizing b with
  | nil => rfl
  | cons kind kinds ih => simp [ih]

/-- Nodes start after what belongs to the node around them. -/
theorem openNodes_spec (h : b.nodes = n :: outer) (kinds : List NodeKind) :
    ∃ b', Adds b n outer (Tree.ofLexemes (splitLeading b.atStart b.rest).1) b' ∧
      Lexeme.words b'.rest = Lexeme.words b.rest ∧
      (b.openNodes kinds).nodes = kinds.reverse.map (fun kind => ⟨kind, []⟩) ++ b'.nodes ∧
      (b.openNodes kinds).rest = b'.rest := by
  have hsplit := splitLeading_append b.atStart b.rest
  refine ⟨_, adds_addLexemes h hsplit, words_rest hsplit (isTrivia_splitLeading _ _), ?_, ?_⟩
  · simp only [openNodes, h, List.isEmpty_cons, Bool.false_eq_true, if_false]
    exact nodes_foldl_open _ _
  · simp only [openNodes, h, List.isEmpty_cons, Bool.false_eq_true, if_false]
    exact rest_foldl_open _ _

theorem isTrivia_takeWhile (xs : List Lexeme) :
    ∀ x ∈ xs.takeWhile (·.kind.isTrivia), x.kind.isTrivia := by
  induction xs with
  | nil => simp
  | cons x xs ih =>
    rw [List.takeWhile_cons]
    split
    · next hx =>
      intro y hy
      rcases List.mem_cons.1 hy with rfl | hy
      · exact hx
      · exact ih y hy
    · simp

theorem adds_addTrivia (h : b.nodes = n :: outer) :
    Adds b n outer (Tree.ofLexemes (b.rest.takeWhile (·.kind.isTrivia))) b.addTrivia :=
  adds_addLexemes h (List.takeWhile_append_dropWhile ..)

/-- If a word is left, it is the first lexeme after some blanks and comments. -/
theorem dropWhile_eq_cons {xs ws : List Lexeme} {w : Lexeme} (h : Lexeme.words xs = w :: ws) :
    ∃ rest, xs.dropWhile (·.kind.isTrivia) = w :: rest ∧ Lexeme.words rest = ws := by
  induction xs with
  | nil => simp [Lexeme.words] at h
  | cons x xs ih =>
    by_cases hx : x.kind.isTrivia
    · rw [List.dropWhile_cons, if_pos hx]
      exact ih (by simpa [Lexeme.words, hx] using h)
    · rw [List.dropWhile_cons, if_neg hx]
      have hcons : x :: Lexeme.words xs = w :: ws := by simpa [Lexeme.words, hx] using h
      cases hcons
      exact ⟨xs, rfl, rfl⟩

theorem adds_leaf {x : Lexeme} {rest : List Lexeme} (h : b.nodes = n :: outer)
    (hrest : b.rest = x :: rest) :
    Adds b n outer [.leaf x.kind x.text]
      { b.add (.leaf x.kind x.text) with rest, atStart := false } :=
  ⟨nodes_add h _, by simp [Tree.leavesOfAll, Tree.leaves, hrest], trivial, trivial⟩

theorem isTrivia_of_words_eq_cons {xs ws : List Lexeme} {w : Word}
    (h : Lexeme.words xs = w.lexeme :: ws) : w.kind.isTrivia = false := by
  have hw : w.lexeme ∈ Lexeme.words xs := by simp [h]
  simpa [Lexeme.words, Word.lexeme] using (List.mem_filter.1 hw).2

/-- The next word is placed after the blanks and comments before it. -/
theorem addWord_spec {w : Word} {ws : List Lexeme} (h : b.nodes = n :: outer)
    (hw : Lexeme.words b.rest = w.lexeme :: ws) :
    Adds b n outer (Tree.ofLexemes (b.rest.takeWhile (·.kind.isTrivia)) ++ [.leaf w.kind w.text])
        (b.addWord w.kind) ∧
      Lexeme.words (b.addWord w.kind).rest = ws ∧ (b.addWord w.kind).atStart = false := by
  obtain ⟨rest, hrest, hwords⟩ := dropWhile_eq_cons hw
  have htrivia := adds_addTrivia h
  have hnext : b.addTrivia.rest = w.lexeme :: rest := hrest
  have hadd : b.addWord w.kind =
      { b.addTrivia.add (.leaf w.kind w.text) with rest, atStart := false } := by
    simp only [addWord, hnext]
    rfl
  rw [hadd]
  exact ⟨htrivia.trans (adds_leaf htrivia.nodes hnext), hwords, rfl⟩

/-- A word is what is left of itself and the blanks and comments before it. -/
theorem withoutTrivia_word {xs : List Lexeme} {w : Word} (hxs : ∀ x ∈ xs, x.kind.isTrivia)
    (hw : w.kind.isTrivia = false) :
    Tree.withoutTriviaOfAll (Tree.ofLexemes xs ++ [.leaf w.kind w.text]) = [.leaf w.kind w.text] ∧
      Tree.EndInPart (Tree.ofLexemes xs ++ [.leaf w.kind w.text]) := by
  have hleaf : Tree.withoutTriviaOfAll [.leaf w.kind w.text] = [.leaf w.kind w.text] := by
    simp [Tree.withoutTriviaOfAll, hw]
  refine ⟨?_, (Tree.endInPart_of_withoutTrivia hleaf).append nofun⟩
  rw [Tree.withoutTriviaOfAll_append, Tree.withoutTriviaOfAll_ofLexemes hxs]
  exact hleaf

theorem atStart_add (t : Tree) : (b.add t).atStart = b.atStart := by
  unfold add
  split <;> rfl

theorem atStart_addLexemes (b : Builder) (xs rest : List Lexeme) :
    (b.addLexemes xs rest).atStart = (b.atStart && xs.isEmpty) := by
  have hadd (xs : List Lexeme) (b : Builder) :
      (xs.foldl (fun b x => b.add (.leaf x.kind x.text)) b).atStart = b.atStart := by
    induction xs generalizing b with
    | nil => rfl
    | cons x xs ih => rw [List.foldl_cons, ih, atStart_add]
  exact congrArg (· && xs.isEmpty) (hadd xs b)

/-- A node ends; a statement list after blanks and comments that end the text, if no word is left. -/
theorem closeNode_spec (h : b.nodes = n :: m :: outer) :
    ∃ xs : List Lexeme, (∀ x ∈ xs, x.kind.isTrivia) ∧
      ((n.kind = .stmtList ∧ b.closeNode.rest = []) ∨
        (xs = [] ∧ (n.kind = .stmtList → ∃ x ∈ b.closeNode.rest, x.kind.isTrivia = false))) ∧
      (xs = [] ∨ ∀ x ∈ b.rest, x.kind.isTrivia) ∧
      xs ++ b.closeNode.rest = b.rest ∧ b.closeNode.atStart = (b.atStart && xs.isEmpty) ∧
      b.closeNode.nodes = ⟨m.kind,
        .node n.kind (n.children.reverse ++ Tree.ofLexemes xs) :: m.children⟩ :: outer := by
  obtain ⟨xs, c, hc, hxs, hkind, hend, hatStart, hlast⟩ :
      ∃ (xs : List Lexeme) (c : Builder),
        c = (if n.kind == .stmtList && b.rest.all (·.kind.isTrivia) then b.addTrivia else b) ∧
        (∀ x ∈ xs, x.kind.isTrivia) ∧
        ((n.kind = .stmtList ∧ c.rest = []) ∨
          (xs = [] ∧ (n.kind = .stmtList → ∃ x ∈ c.rest, x.kind.isTrivia = false))) ∧
        (xs = [] ∨ ∀ x ∈ b.rest, x.kind.isTrivia) ∧ c.atStart = (b.atStart && xs.isEmpty) ∧
        Adds b n (m :: outer) (Tree.ofLexemes xs) c := by
    split
    · next hend =>
      obtain ⟨hkind, hrest⟩ := Bool.and_eq_true_iff.1 hend
      have htrivia := List.all_eq_true.1 hrest
      exact ⟨_, _, rfl, isTrivia_takeWhile b.rest,
        .inl ⟨beq_iff_eq.1 hkind, List.dropWhile_eq_nil_iff.2 htrivia⟩, .inr htrivia,
        atStart_addLexemes b _ _, adds_addTrivia h⟩
    · next hopen =>
      refine ⟨[], b, rfl, by simp, .inr ⟨rfl, fun hkind => ?_⟩, .inl rfl, by simp,
        ⟨by simpa [Tree.ofLexemes] using h, by simp, trivial⟩⟩
      simpa [hkind] using hopen
  have hleaves := hlast.leaves
  rw [Tree.leavesOfAll_ofLexemes] at hleaves
  have hclose : b.closeNode = { c with nodes := m :: outer }.add
      (.node n.kind (n.children.reverse ++ Tree.ofLexemes xs)) := by
    simp only [closeNode, h, ← hc, hlast.nodes]
    simp
  have hrest : b.closeNode.rest = c.rest := by
    rw [hclose]
    rfl
  refine ⟨xs, hxs, ?_, hend, ?_, ?_, ?_⟩
  · rw [hrest]
    exact hkind
  · rw [hrest]
    exact hleaves
  · rw [hclose, atStart_add]
    exact hatStart
  · rw [hclose]
    rfl

/-- The root takes what is left of the text. -/
theorem closeNode_root (h : b.nodes = [n]) : b.closeNode.nodes = [] ∧
    b.closeNode.root? = some (.node n.kind (n.children.reverse ++ Tree.ofLexemes b.rest)) := by
  have hlast := adds_addLexemes h (List.append_nil b.rest)
  simp only [closeNode, h, hlast.nodes]
  simp

/-- A node with the children that it has got ends. -/
theorem Adds.closeNode {kind : NodeKind} (h : Adds b ⟨kind, []⟩ (m :: outer) ts b')
    (hend : Tree.EndInPart ts) :
    ∃ xs : List Lexeme, (∀ x ∈ xs, x.kind.isTrivia) ∧ (xs = [] ∨ ∀ x ∈ b'.rest, x.kind.isTrivia) ∧
      xs ++ b'.closeNode.rest = b'.rest ∧ b'.closeNode.atStart = (b'.atStart && xs.isEmpty) ∧
      Adds b m outer [.node kind (ts ++ Tree.ofLexemes xs)] b'.closeNode := by
  obtain ⟨xs, hxs, hkind, hlast, hrest, hatStart, hnodes⟩ := closeNode_spec h.nodes
  refine ⟨xs, hxs, hlast, hrest, hatStart, by simpa using hnodes, ?_, ⟨?_, ?_⟩, trivial⟩
  · simp [Tree.leavesOfAll, Tree.leaves, hrest, h.leaves]
  · rcases hkind with hkind | ⟨rfl, hkind⟩
    · exact .inl hkind
    · exact .inr ⟨by simpa [Tree.ofLexemes] using hend, hkind⟩
  · refine Tree.tidyAll_append.2 ⟨?_, Tree.tidyAll_ofLexemes _ xs⟩
    rw [Tree.leavesOfAll_ofLexemes]
    exact hrest.symm ▸ h.tidy

theorem withoutTrivia_node {kind : NodeKind} {xs : List Lexeme} (hxs : ∀ x ∈ xs, x.kind.isTrivia) :
    Tree.withoutTriviaOfAll [.node kind (ts ++ Tree.ofLexemes xs)] =
      [.node kind (Tree.withoutTriviaOfAll ts)] := by
  simp [Tree.withoutTriviaOfAll, Tree.withoutTrivia, Tree.withoutTriviaOfAll_ofLexemes hxs]

end Builder

/-! ### Whole drafts -/

namespace Draft

open Builder

mutual

/-- The steps of a node that has started add its tree to the node around it. -/
theorem foldl_inside : ∀ (d : Draft) {b : Builder} {m : OpenNode} {outer : List OpenNode}
    {ws : List Lexeme}, b.nodes = d.spine.reverse.map (fun kind => ⟨kind, []⟩) ++ m :: outer →
      Lexeme.words b.rest = d.words.map Word.lexeme ++ ws →
      ∃ t, Adds b m outer [t] (d.inside.foldl Builder.step b) ∧
        Tree.withoutTriviaOfAll [t] = [d.tree] ∧
        Lexeme.words (d.inside.foldl Builder.step b).rest = ws
  | node kind parts, b, m, outer, ws, h, hw => by
    obtain ⟨ts, hts, htree, hend, hwords⟩ := foldl_stepsOfAll parts h hw
    obtain ⟨xs, hxs, -, hrest, -, ht⟩ := hts.closeNode hend
    rw [inside, List.foldl_append]
    exact ⟨_, ht, by rw [withoutTrivia_node hxs, htree, tree], (words_rest hrest hxs).trans hwords⟩
  | around kind first parts, b, m, outer, ws, h, hw => by
    rw [spine, List.reverse_cons, List.map_append, List.append_assoc] at h
    rw [words, List.map_append, List.append_assoc] at hw
    -- The node around is open already: the first part ends inside it like any other part.
    obtain ⟨t₁, h₁, htree₁, hwords₁⟩ := foldl_inside first h hw
    obtain ⟨ts, hts, htree, hend, hwords⟩ := foldl_stepsOfAll parts h₁.nodes hwords₁
    obtain ⟨xs, hxs, -, hrest, -, ht⟩ := (h₁.trans hts).closeNode
      (hend.append fun _ => Tree.endInPart_of_withoutTrivia htree₁)
    rw [inside, List.foldl_append, List.foldl_append]
    refine ⟨_, ht, ?_, (words_rest hrest hxs).trans hwords⟩
    rw [withoutTrivia_node hxs, Tree.withoutTriviaOfAll_append, htree₁, htree]
    rfl

/-- The steps of some parts add their trees to the innermost node. -/
theorem foldl_stepsOfAll : ∀ (parts : List (Piece Draft)) {b : Builder} {n : OpenNode}
    {outer : List OpenNode} {ws : List Lexeme}, b.nodes = n :: outer →
      Lexeme.words b.rest = (wordsOfAll parts).map Word.lexeme ++ ws →
      ∃ ts, Adds b n outer ts ((stepsOfAll parts).foldl Builder.step b) ∧
        Tree.withoutTriviaOfAll ts = treesOfAll parts ∧ Tree.EndInPart ts ∧
        Lexeme.words ((stepsOfAll parts).foldl Builder.step b).rest = ws
  | [], b, n, outer, ws, h, hw => by
    refine ⟨[], ⟨by simpa [stepsOfAll] using h, by simp [stepsOfAll, Tree.leavesOfAll], trivial⟩, ?_,
      nofun, hw⟩
    simp [treesOfAll, Tree.withoutTriviaOfAll]
  | .word w :: ps, b, n, outer, ws, h, hw => by
    obtain ⟨hts, hwords, -⟩ := addWord_spec h hw
    obtain ⟨htree, hend⟩ := withoutTrivia_word (isTrivia_takeWhile b.rest)
      (isTrivia_of_words_eq_cons hw)
    obtain ⟨us, hus, htree', hend', hwords'⟩ := foldl_stepsOfAll ps hts.nodes hwords
    refine ⟨_, hts.trans hus, ?_, hend'.append fun _ => hend, hwords'⟩
    rw [Tree.withoutTriviaOfAll_append, htree, htree', treesOfAll, List.singleton_append]
  | .node d :: ps, b, n, outer, ws, h, hw => by
    obtain ⟨b', hts, hwords, hnodes, hrest⟩ := openNodes_spec h d.spine
    rw [hts.nodes] at hnodes
    rw [wordsOfAll, List.map_append, List.append_assoc, ← hwords, ← hrest] at hw
    obtain ⟨t, ht, htree, hwords'⟩ := foldl_inside d hnodes hw
    have ht' : Adds b' _ outer [t] _ := ⟨ht.nodes, ht.leaves.trans hrest, ht.tidy⟩
    obtain ⟨us, hus, htree', hend, hwords''⟩ := foldl_stepsOfAll ps ht.nodes hwords'
    have hend : Tree.EndInPart ([t] ++ us) :=
      hend.append fun _ => Tree.endInPart_of_withoutTrivia htree
    rw [stepsOfAll, List.foldl_cons, List.foldl_append]
    refine ⟨_, hts.trans (ht'.trans hus), ?_, hend.append nofun, hwords''⟩
    rw [Tree.withoutTriviaOfAll_append, Tree.withoutTriviaOfAll_append,
      Tree.withoutTriviaOfAll_ofLexemes (isTrivia_splitLeading _ _), htree, htree']
    rfl

end

theorem steps_root (kind : NodeKind) (parts : List (Piece Draft)) :
    BuildStep.ofEvents [] ((node kind parts).events false) =
      (.openNodes [kind] :: stepsOfAll parts) ++ [.closeNode] := by
  rw [ofEvents_events, spine, inside, List.cons_append]

/-- The root takes what is left of the text behind its words. -/
theorem ofEvents_of_nodes {kind : NodeKind} {parts : List (Piece Draft)} {xs : List Lexeme} {b : Builder}
    {n : OpenNode} (hb : (stepsOfAll parts).foldl Builder.step (Builder.openNodes { rest := xs } [kind]) = b)
    (h : b.nodes = [n]) : Tree.ofEvents xs ((node kind parts).events false) =
      .node n.kind (n.children.reverse ++ Tree.ofLexemes b.rest) := by
  have hfold : (BuildStep.ofEvents [] ((node kind parts).events false)).foldl Builder.step
      { rest := xs } = b.closeNode := by
    rw [steps_root, List.foldl_append, ← hb]
    rfl
  simp only [Tree.ofEvents, hfold, (closeNode_root h).2]
  rfl

section Root

variable (kind : NodeKind) {parts : List (Piece Draft)} {xs : List Lexeme}
  (h : Lexeme.words xs = (wordsOfAll parts).map Word.lexeme)
include h

/-- Before the root ends it has all its words, and only blanks and comments are left. -/
theorem foldl_root : ∃ ts, Adds { rest := xs } ⟨kind, []⟩ [] ts
      ((.openNodes [kind] :: stepsOfAll parts).foldl Builder.step { rest := xs }) ∧
    Tree.withoutTriviaOfAll ts = treesOfAll parts ∧
    ∀ x ∈ ((.openNodes [kind] :: stepsOfAll parts).foldl Builder.step { rest := xs }).rest,
      x.kind.isTrivia := by
  have hopen : (Builder.openNodes { rest := xs } [kind]).nodes = [⟨kind, []⟩] := rfl
  have hwords : Lexeme.words (Builder.openNodes { rest := xs } [kind]).rest =
      (wordsOfAll parts).map Word.lexeme ++ [] := by
    rw [List.append_nil]
    exact h
  obtain ⟨ts, hts, htree, -, hrest⟩ := foldl_stepsOfAll parts hopen hwords
  exact ⟨ts, ⟨hts.nodes, hts.leaves, hts.tidy⟩, htree, Lexeme.isTrivia_of_words_eq_nil hrest⟩

/-- The root has all lexemes of the text in order, and without blanks and comments it is the tree of
its draft. -/
theorem ofEvents_root : ∃ ts, Tree.ofEvents xs ((node kind parts).events false) = .node kind ts ∧
    Tree.leavesOfAll ts = xs ∧ Tree.withoutTriviaOfAll ts = treesOfAll parts ∧ Tree.TidyAll [] ts := by
  obtain ⟨ts, hts, htree, hrest⟩ := foldl_root kind h
  generalize hb : (BuildStep.openNodes [kind] :: stepsOfAll parts).foldl Builder.step { rest := xs }
    = b at hts hrest
  refine ⟨ts ++ Tree.ofLexemes b.rest, ?_, ?_, ?_,
    Tree.tidyAll_append.2 ⟨?_, Tree.tidyAll_ofLexemes [] b.rest⟩⟩
  · rw [ofEvents_of_nodes hb hts.nodes]
    simp
  · rw [Tree.leavesOfAll_append, Tree.leavesOfAll_ofLexemes]
    exact hts.leaves
  · rw [Tree.withoutTriviaOfAll_append, Tree.withoutTriviaOfAll_ofLexemes hrest, List.append_nil]
    exact htree
  · rw [Tree.leavesOfAll_ofLexemes, List.append_nil]
    exact hts.tidy

end Root

end Draft

end CRBasic
