import CRBasic.Proofs.Blocks.Tree
import CRBasic.Proofs.Text.Problems
import CRBasic.Proofs.Tree.Nodes

/-!
# Blocks of a draft

The blocks of a tree that have not ended are those of the draft that the tree shows
(`Tree.unclosed_blocks`).
-/

namespace CRBasic

/-! ### Words of trees and drafts -/

namespace Tree

mutual

theorem leaves_withoutTrivia : ∀ t : Tree,
    leavesOfAll (withoutTriviaOfAll [t]) = Lexeme.words t.leaves
  | leaf kind text => by
    cases h : kind.isTrivia <;> simp [withoutTriviaOfAll, leavesOfAll, leaves, Lexeme.words, h]
  | node _ children => by
    have := leavesOfAll_withoutTriviaOfAll children
    simpa [withoutTriviaOfAll, withoutTrivia, leavesOfAll, leaves]

theorem leavesOfAll_withoutTriviaOfAll : ∀ ts : List Tree,
    leavesOfAll (withoutTriviaOfAll ts) = Lexeme.words (leavesOfAll ts)
  | [] => rfl
  | t :: ts => by
    have ht := leaves_withoutTrivia t
    have hts := leavesOfAll_withoutTriviaOfAll ts
    rw [← List.singleton_append, withoutTriviaOfAll_append, leavesOfAll_append, ht, hts,
      ← Lexeme.words_append]
    rfl

end

end Tree

namespace Draft

mutual

theorem leaves_tree : ∀ d : Draft, d.tree.leaves = d.words.map Word.lexeme
  | node _ parts => leavesOfAll_treesOfAll parts
  | around _ first parts => by
    have := leaves_tree first
    have := leavesOfAll_treesOfAll parts
    simp_all [tree, Tree.leaves, Tree.leavesOfAll, words]

theorem leavesOfAll_treesOfAll : ∀ ps : List (Piece Draft),
    Tree.leavesOfAll (treesOfAll ps) = (wordsOfAll ps).map Word.lexeme
  | [] => rfl
  | .word w :: ps => by
    have := leavesOfAll_treesOfAll ps
    simp_all [treesOfAll, Tree.leavesOfAll, Tree.leaves, wordsOfAll, Word.lexeme]
  | .node d :: ps => by
    have := leaves_tree d
    have := leavesOfAll_treesOfAll ps
    simp_all [treesOfAll, Tree.leavesOfAll, wordsOfAll]

end

/-! ### The parts of a draft -/

/-- The parts of a draft's node, the one that it was put around included. -/
def pieces : Draft → List (Piece Draft)
  | node _ parts => parts
  | around _ first parts => .node first :: parts

theorem tree_eq_node (d : Draft) : d.tree = .node d.kind (treesOfAll d.pieces) := by
  cases d <;> rfl

theorem words_eq (d : Draft) : d.words = wordsOfAll d.pieces := by
  cases d <;> rfl

/-- A draft has some property, and so have all drafts inside it. -/
def All (P : Draft → Prop) (d : Draft) : Prop := ∀ e : Draft, e.Inside d → P e

theorem all_iff {P : Draft → Prop} {d : Draft} :
    d.All P ↔ P d ∧ ∀ e, .node e ∈ d.pieces → e.All P := by
  constructor
  · intro h
    refine ⟨h d (.refl d), fun e he c hc => h c ?_⟩
    cases d with
    | node kind parts => exact .node he hc
    | around kind first parts =>
      rcases List.mem_cons.1 he with heq | he
      · cases heq
        exact .first hc
      · exact .around he hc
  · rintro ⟨hd, hparts⟩ e he
    cases he with
    | refl => exact hd
    | node he h => exact hparts _ he _ h
    | first h => exact hparts _ List.mem_cons_self _ h
    | around he h => exact hparts _ (List.mem_cons_of_mem _ he) _ h

/-! ### Blocks that have not ended -/

/-- Whether a part is a statement list. -/
def isBody : Piece Draft → Bool
  | .word _ => false
  | .node d => d.kind == .stmtList

/-- Whether an `If` with the given parts stands on one line. -/
def onOneLine (inBranch : Bool) (ps : List (Piece Draft)) : Bool :=
  match ps.dropWhile (!isBody ·),
    (wordsOfAll ps).drop (wordsOfAll (ps.takeWhile (!isBody ·))).length with
  | .node body :: _, w :: _ =>
    !(wordsOfAll (ps.takeWhile (!isBody ·))).isEmpty && !w.startsLine &&
      (!body.words.isEmpty || (!inBranch && w.kind == .kwElse))
  | _, _ => false

/-- The problem of a node of the given kind with the given parts, if it is a block that has not
ended. -/
def ownUnclosed (kind : NodeKind) (inBranch : Bool) (ps : List (Piece Draft)) : List Cause :=
  if kind.ends?.isNone || (kind == .ifStmt && onOneLine inBranch ps) then []
  else if (ownWords ps).any fun w => kind.ends?.any (·.1 == w.kind) then []
  else (kind.ends?.map fun (terminator, opener) => .unclosedBlock terminator opener).toList

/-- Whether an `Else` may end the statements in a part of a node of the given kind. -/
def branchIn (parent : NodeKind) (inBranch : Bool) (d : Draft) : Bool :=
  inBranch || (parent.hasBranch && d.kind == .stmtList)

theorem branchIn_of_ne {d : Draft} (h : d.kind ≠ .stmtList) (parent : NodeKind) (inBranch : Bool) :
    branchIn parent inBranch d = inBranch := by
  simp [branchIn, h]

mutual

/-- The problems of the blocks of a draft that have not ended, inner blocks first. -/
def unclosed (inBranch : Bool) : Draft → List Cause
  | node kind parts => unclosedOfAll kind inBranch parts ++ ownUnclosed kind inBranch parts
  | around kind first parts =>
    first.unclosed (branchIn kind inBranch first) ++ unclosedOfAll kind inBranch parts ++
      ownUnclosed kind inBranch (.node first :: parts)

/-- The problems of the blocks among the parts of a node of the given kind that have not ended. -/
def unclosedOfAll (parent : NodeKind) (inBranch : Bool) : List (Piece Draft) → List Cause
  | [] => []
  | .word _ :: ps => unclosedOfAll parent inBranch ps
  | .node d :: ps => d.unclosed (branchIn parent inBranch d) ++ unclosedOfAll parent inBranch ps

end

theorem unclosed_eq (inBranch : Bool) (d : Draft) : d.unclosed inBranch =
    unclosedOfAll d.kind inBranch d.pieces ++ ownUnclosed d.kind inBranch d.pieces := by
  cases d <;> rfl

theorem ownUnclosed_of_ends? {kind : NodeKind} (h : kind.ends? = none) (inBranch : Bool)
    (ps : List (Piece Draft)) : ownUnclosed kind inBranch ps = [] := by
  rw [ownUnclosed, h]
  rfl

theorem unclosedOfAll_append (parent : NodeKind) (inBranch : Bool) (ps qs : List (Piece Draft)) :
    unclosedOfAll parent inBranch (ps ++ qs) =
      unclosedOfAll parent inBranch ps ++ unclosedOfAll parent inBranch qs := by
  induction ps with
  | nil => rfl
  | cons p ps ih => cases p <;> simp [unclosedOfAll, ih]

end Draft

/-! ### Trees that show drafts -/

theorem Node.hasParts_of_tree {n : Node} {d : Draft} (h : n.shape = d.tree) :
    n.HasParts d.kind d.pieces :=
  hasParts_of_shape (h.trans d.tree_eq_node)

namespace Word

/-- Only the first word depends on what comes before. -/
theorem drop_ofLexemes (b c : Bool) (xs : List Lexeme) (n : Nat) :
    (ofLexemes b xs).drop (n + 1) = (ofLexemes c xs).drop (n + 1) := by
  induction xs generalizing b c with
  | nil => rfl
  | cons x xs ih =>
    rw [ofLexemes, ofLexemes]
    split
    · exact ih _ _
    · rfl

/-- What comes before the words after some lexemes is told by these lexemes. -/
theorem exists_ofLexemes_append (b : Bool) (xs ys : List Lexeme) :
    ∃ c, ofLexemes b (xs ++ ys) = ofLexemes b xs ++ ofLexemes c ys := by
  induction xs generalizing b with
  | nil => exact ⟨b, rfl⟩
  | cons x xs ih =>
    rw [List.cons_append, ofLexemes, ofLexemes]
    split
    · exact ih _
    · obtain ⟨c, hc⟩ := ih false
      exact ⟨c, by rw [hc, List.cons_append]⟩

theorem length_ofLexemes (b : Bool) (xs : List Lexeme) :
    (ofLexemes b xs).length = (Lexeme.words xs).length := by
  rw [← Lexeme.words_ofLexemes b xs, List.length_map]

end Word

namespace Tree

open Draft

theorem words_leaves {t : Tree} {d : Draft} (h : t.withoutTrivia = d.tree) :
    Lexeme.words t.leaves = d.words.map Word.lexeme := by
  obtain ⟨kind, children, rfl, -⟩ := exists_children h
  rw [← d.leaves_tree, ← h, withoutTrivia, leaves, leaves, leavesOfAll_withoutTriviaOfAll]

/-- Some trees show some parts: without blanks and comments they are the trees of the parts, and they
have the words of the parts, in the same lines. -/
structure ShowAll (ts : List Tree) (ps : List (Piece Draft)) : Prop where
  shape : withoutTriviaOfAll ts = treesOfAll ps
  words : ∃ b, Word.ofLexemes b (leavesOfAll ts) = wordsOfAll ps

/-- A tree shows a draft. -/
structure Shows (t : Tree) (d : Draft) : Prop where
  shape : t.withoutTrivia = d.tree
  words : ∃ b, Word.ofLexemes b t.leaves = d.words

theorem Shows.exists_children {t : Tree} {d : Draft} (h : t.Shows d) :
    ∃ children, t = node d.kind children ∧ ShowAll children d.pieces := by
  obtain ⟨kind, children, rfl, -⟩ := Tree.exists_children h.shape
  have hnode := h.shape
  rw [d.tree_eq_node] at hnode
  obtain ⟨rfl, hchildren⟩ := node.inj hnode
  exact ⟨children, rfl, hchildren, d.words_eq ▸ h.words⟩

/-- What some trees show, its first part and the others. -/
inductive ShowCases : List Tree → List (Piece Draft) → Prop where
  | nil : ShowCases [] []
  | trivia {kind : TokenKind} {text : List Char} {ts : List Tree} {ps : List (Piece Draft)}
      (hkind : kind.isTrivia) (h : ShowAll ts ps) : ShowCases (leaf kind text :: ts) ps
  | word {w : Word} {ts : List Tree} {ps : List (Piece Draft)} (hkind : w.kind.isTrivia = false)
      (h : ShowAll ts ps) : ShowCases (leaf w.kind w.text :: ts) (.word w :: ps)
  | node {t : Tree} {d : Draft} {ts : List Tree} {ps : List (Piece Draft)} (ht : t.Shows d)
      (h : ShowAll ts ps) : ShowCases (t :: ts) (.node d :: ps)

theorem ShowAll.cases {ts : List Tree} {ps : List (Piece Draft)} (h : ShowAll ts ps) :
    ShowCases ts ps := by
  obtain ⟨hshape, b, hwords⟩ := h
  rcases ts with - | ⟨⟨kind, text⟩ | ⟨kind, children⟩, ts⟩
  · rcases ps with - | ⟨w | d, ps⟩
    · exact .nil
    · cases hshape
    · cases hshape
  · rw [leavesOfAll, leaves, List.singleton_append, Word.ofLexemes] at hwords
    rw [withoutTriviaOfAll] at hshape
    cases hkind : kind.isTrivia with
    | true =>
      simp only [hkind, if_true] at hshape hwords
      exact .trivia hkind ⟨hshape, _, hwords⟩
    | false =>
      simp only [hkind, Bool.false_eq_true, if_false] at hshape hwords
      rcases ps with - | ⟨w | d, ps⟩
      · cases hshape
      · obtain ⟨hleaf, hrest⟩ := List.cons.inj hshape
        obtain ⟨rfl, rfl⟩ := leaf.inj hleaf
        exact .word hkind ⟨hrest, _, (List.cons.inj hwords).2⟩
      · rw [treesOfAll, d.tree_eq_node] at hshape
        cases hshape
  · rcases ps with - | ⟨w | d, ps⟩
    · cases hshape
    · cases hshape
    · obtain ⟨hd, hshape⟩ := List.cons.inj hshape
      rw [leavesOfAll, wordsOfAll] at hwords
      obtain ⟨c, hc⟩ := Word.exists_ofLexemes_append b (node kind children).leaves (leavesOfAll ts)
      rw [hc] at hwords
      have hlength : (Word.ofLexemes b (node kind children).leaves).length = d.words.length := by
        rw [Word.length_ofLexemes, words_leaves hd, List.length_map]
      obtain ⟨hleft, hright⟩ := List.append_inj hwords hlength
      exact .node ⟨hd, b, hleft⟩ ⟨hshape, c, hright⟩

theorem Shows.kind_eq {t : Tree} {d : Draft} (h : t.Shows d) : t.kind = .node d.kind := by
  obtain ⟨children, rfl, -⟩ := h.exists_children
  rfl

theorem Shows.isBody_eq {t : Tree} {d : Draft} (h : t.Shows d) :
    t.isBody = Draft.isBody (.node d) := by
  rw [Tree.isBody, h.kind_eq, Draft.isBody, Bool.eq_iff_iff, beq_iff_eq, beq_iff_eq]
  exact ElementKind.node.injEq .. ▸ Iff.rfl

/-- Some trees and the parts that they show have their first body at the same place. -/
theorem ShowAll.body {ts : List Tree} {ps : List (Piece Draft)} (h : ShowAll ts ps) :
    (Lexeme.words (leavesOfAll (ts.takeWhile (!isBody ·)))).length =
        (wordsOfAll (ps.takeWhile (!Draft.isBody ·))).length ∧
      ((ts.dropWhile (!isBody ·) = [] ∧ ps.dropWhile (!Draft.isBody ·) = []) ∨
        ∃ t ts' d ps', ts.dropWhile (!isBody ·) = t :: ts' ∧
          ps.dropWhile (!Draft.isBody ·) = .node d :: ps' ∧ t.Shows d) := by
  induction ts generalizing ps with
  | nil => cases h.cases with | nil => exact ⟨rfl, .inl ⟨rfl, rfl⟩⟩
  | cons t ts ih =>
    cases h.cases with
    | @trivia kind text _ _ hkind hmore =>
      obtain ⟨hlength, hrest⟩ := ih hmore
      have hleaf : (leaf kind text).isBody = false := rfl
      have hwords : Lexeme.words [⟨kind, text⟩] = [] := Lexeme.words_eq_nil (by simpa using hkind)
      simp only [List.takeWhile_cons, List.dropWhile_cons, hleaf, Bool.not_false, if_true,
        leavesOfAll, leaves, Lexeme.words_append, hwords, List.nil_append]
      exact ⟨hlength, hrest⟩
    | @word w _ ps hkind hmore =>
      obtain ⟨hlength, hrest⟩ := ih hmore
      have hleaf : (leaf w.kind w.text).isBody = false := rfl
      have hword : Draft.isBody (.word w) = false := rfl
      have hwords : Lexeme.words [⟨w.kind, w.text⟩] = [⟨w.kind, w.text⟩] := by
        simp [Lexeme.words, hkind]
      simp only [List.takeWhile_cons, List.dropWhile_cons, hleaf, hword, Bool.not_false, if_true,
        leavesOfAll, leaves, Lexeme.words_append, hwords, wordsOfAll, List.length_append, hlength]
      exact ⟨Nat.add_comm _ _, hrest⟩
    | @node _ d _ ps ht hmore =>
      obtain ⟨hlength, hrest⟩ := ih hmore
      simp only [List.takeWhile_cons, List.dropWhile_cons, ht.isBody_eq]
      cases hbody : Draft.isBody (.node d) with
      | true => exact ⟨rfl, .inr ⟨t, ts, d, ps, rfl, rfl, ht⟩⟩
      | false =>
        simp only [Bool.not_false, if_true, leavesOfAll, wordsOfAll, Lexeme.words_append,
          List.length_append, hlength, words_leaves ht.shape, List.length_map]
        exact ⟨trivial, hrest⟩

theorem ShowAll.onOneLine {ts : List Tree} {ps : List (Piece Draft)} (h : ShowAll ts ps)
    (inBranch : Bool) : Tree.onOneLine inBranch ts = Draft.onOneLine inBranch ps := by
  obtain ⟨hlength, hbody⟩ := h.body
  obtain ⟨b, hwords⟩ := h.words
  rw [Tree.onOneLine, Draft.onOneLine, hlength, ← hwords]
  rcases hbody with ⟨hts, hps⟩ | ⟨t, ts', d, ps', hts, hps, ht⟩
  · rw [hts, hps]
  · rw [hts, hps]
    have hempty : (Lexeme.words t.leaves).isEmpty = d.words.isEmpty := by
      rw [words_leaves ht.shape, List.isEmpty_map]
    cases hn : (wordsOfAll (ps.takeWhile (!Draft.isBody ·))) with
    | nil =>
      -- The first word of all starts a line.
      rw [List.length_nil, List.drop_zero, List.drop_zero]
      cases hfirst : Word.ofLexemes true (leavesOfAll ts) with
      | nil => cases Word.ofLexemes b (leavesOfAll ts) <;> rfl
      | cons w ws =>
        have hline : w.startsLine := Word.startsLine_of_head? w (by rw [hfirst]; rfl)
        cases Word.ofLexemes b (leavesOfAll ts) <;> simp [hline]
    | cons v vs =>
      rw [List.length_cons, Word.drop_ofLexemes true b]
      cases (Word.ofLexemes b (leavesOfAll ts)).drop (vs.length + 1) with
      | nil => rfl
      | cons w ws => simp [hempty]

/-! ### Blocks -/

theorem isClosed_of_shape {n : Node} {kind : NodeKind} {ps : List (Piece Draft)}
    (h : n.HasParts kind ps) :
    n.isClosed = (ownWords ps).any fun w => kind.ends?.any (·.1 == w.kind) := by
  have hany (f : Lexeme → Bool) : (n.words.map Leaf.lexeme).any f =
      ((ownWords ps).map Word.lexeme).any f := by rw [h.words_eq]
  rw [Node.isClosed, h.kind_eq]
  simpa [List.any_map, Function.comp_def, Leaf.lexeme, Word.lexeme] using
    hany fun x => kind.ends?.any (·.1 == x.kind)

theorem filterMap_unclosed? {kind : NodeKind} {ts : List Tree} {ps : List (Piece Draft)}
    (h : ShowAll ts ps) (inBranch : Bool) (start : Nat) :
    (if kind.ends?.isNone || (kind == .ifStmt && Tree.onOneLine inBranch ts) then []
      else [(⟨start, kind, ts⟩ : Node)]).filterMap Node.unclosed? = ownUnclosed kind inBranch ps := by
  have hparts : (⟨start, kind, ts⟩ : Node).HasParts kind ps :=
    Node.hasParts_of_shape (congrArg (node kind) h.shape)
  rw [h.onOneLine, ownUnclosed, ← isClosed_of_shape hparts]
  split
  · rfl
  · rw [List.filterMap_cons, List.filterMap_nil, Node.unclosed?]
    cases (⟨start, kind, ts⟩ : Node).isClosed with
    | true => rfl
    | false => cases kind.ends? <;> rfl

mutual

theorem unclosed_blocks : ∀ (t : Tree) {d : Draft} (inBranch : Bool) (start : Nat), t.Shows d →
    (t.blocks inBranch start).filterMap Node.unclosed? = d.unclosed inBranch
  | leaf kind text, d, inBranch, start, h => by
    obtain ⟨_, hleaf, -⟩ := h.exists_children
    cases hleaf
  | node kind children, d, inBranch, start, h => by
    obtain ⟨_, heq, hchildren⟩ := h.exists_children
    obtain ⟨rfl, rfl⟩ := node.inj heq
    rw [blocks, List.filterMap_append, unclosed_blocksOfAll children d.kind inBranch start hchildren,
      filterMap_unclosed? hchildren, unclosed_eq]

theorem unclosed_blocksOfAll : ∀ (ts : List Tree) {ps : List (Piece Draft)} (parent : NodeKind)
    (inBranch : Bool) (start : Nat), ShowAll ts ps →
    (blocksOfAll parent inBranch start ts).filterMap Node.unclosed? =
      unclosedOfAll parent inBranch ps
  | [], _, _, _, _, h => by cases h.cases with | nil => rfl
  | t :: ts, ps, parent, inBranch, start, h => by
    rw [blocksOfAll, List.filterMap_append]
    cases h.cases with
    | trivia _ hmore => exact unclosed_blocksOfAll ts parent inBranch _ hmore
    | @word w _ _ _ hmore =>
      have hrest := unclosed_blocksOfAll ts parent inBranch (start + (leaf w.kind w.text).width) hmore
      exact hrest
    | node ht hmore =>
      rw [unclosed_blocks t _ start ht, unclosed_blocksOfAll ts parent inBranch _ hmore, ht.isBody_eq]
      rfl

end

end Tree

open Parsing

/-- The tree of a text shows the draft of what the text is read as. -/
theorem Parsing.ReadsAs.shows {options : ParseOptions} {source : List Char}
    {parts : List (Piece Draft)} {reports : List Report}
    (h : ReadsAs options (Word.ofLexemes true (lexemes source)) parts reports) :
    (parseWith options source).tree.Shows (.node .sourceFile parts) := by
  obtain ⟨parts', h', -, hwords⟩ := exists_readsAs options (Word.ofLexemes true (lexemes source))
  obtain ⟨rfl, -⟩ := h'.unique h
  obtain ⟨ts, htree, hleaves, hshape⟩ := h.tree_eq
  rw [htree]
  refine ⟨?_, true, ?_⟩
  · rw [Tree.withoutTrivia, hshape]
    rfl
  · rw [Tree.leaves, hleaves]
    exact hwords.symm

end CRBasic
