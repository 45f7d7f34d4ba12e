import CRBasic.Proofs.Spelling.Lexemes
import CRBasic.Proofs.Tree.WellFormed

/-!
# The head of one clause in a tree

Where the steps that build a tree have the head of one clause written as two words, the trees are the
same but for this head (`Tree.Respelled`).  Before it the two builders differ in the lexemes that are
left only (`Builder.Apart`); after it they differ in one node that is open, or in one tree inside such
a node (`Builder.Respelled`).
-/

namespace CRBasic

open Lexeme

/-! ### Trees -/

/-- A tree, and the same tree with the lexeme `e` at the head of one clause written as the lexemes `es`.
Before it the clause has blanks, line breaks and comments only. -/
inductive Tree.Respelled (e : Lexeme) (es : List Lexeme) : Tree → Tree → Prop where
  | clause {trivia : List Lexeme} (htrivia : ∀ x ∈ trivia, x.kind.isTrivia) (children : List Tree) :
      Respelled e es (.node .elseIfClause (ofLexemes trivia ++ ofLexemes [e] ++ children))
        (.node .elseIfClause (ofLexemes trivia ++ ofLexemes es ++ children))
  | inside (kind : NodeKind) (before after : List Tree) {t t' : Tree} (h : Respelled e es t t') :
      Respelled e es (.node kind (before ++ t :: after)) (.node kind (before ++ t' :: after))

namespace Tree.Respelled

variable {e : Lexeme} {es : List Lexeme} {kind kind' : NodeKind} {ts ts' : List Tree}

/-- A node gets more children after the part that differs. -/
theorem append (h : Respelled e es (.node kind ts) (.node kind' ts')) (us : List Tree) :
    Respelled e es (.node kind (ts ++ us)) (.node kind' (ts' ++ us)) := by
  cases h with
  | clause htrivia children =>
    rw [List.append_assoc, List.append_assoc _ children]
    exact .clause htrivia (children ++ us)
  | inside kind before after h =>
    rw [List.append_assoc, List.append_assoc, List.cons_append, List.cons_append]
    exact .inside kind before (after ++ us) h

theorem kind_eq {t t' : Tree} (h : Respelled e es t t') : t'.kind = t.kind := by
  cases h <;> rfl

end Tree.Respelled

/-! ### Steps -/

namespace BuildStep

/-- The kind of the word that a step adds. -/
def token? : BuildStep → Option TokenKind
  | .token kind => some kind
  | _ => none

/-- Steps that leave the outermost of `n` nodes open. -/
def LeavesOpen (n : Nat) (steps : List BuildStep) : Prop :=
  StaysAbove 0 n steps ∧ 0 < steps.foldl openAfter n

theorem LeavesOpen.tail {n : Nat} {step : BuildStep} {steps : List BuildStep}
    (h : LeavesOpen n (step :: steps)) : LeavesOpen (step.openAfter n) steps :=
  ⟨h.1.2, h.2⟩

/-- A node that ends has another one around it. -/
theorem LeavesOpen.exists_nodes {b : Builder} {steps : List BuildStep}
    (h : LeavesOpen b.nodes.length (.closeNode :: steps)) :
    ∃ n m outer, b.nodes = n :: m :: outer := by
  obtain ⟨⟨hopen, habove⟩, hfold⟩ := h
  rcases hb : b.nodes with _ | ⟨n, _ | ⟨m, outer⟩⟩
  · rw [hb] at hopen
    cases hopen
  · rw [hb] at habove hfold
    cases steps with
    | nil => cases hfold
    | cons step steps => cases habove.1
  · exact ⟨n, m, outer, rfl⟩

/-- Steps with the same words are the same. -/
theorem Respelled.eq_of_tokens {steps steps' : List BuildStep} (h : Respelled steps steps')
    (htokens : steps.filterMap token? = steps'.filterMap token?) : steps = steps' := by
  induction h with
  | nil => rfl
  | same step _ ih =>
    refine congrArg (step :: ·) (ih ?_)
    cases step with
    | token kind => exact (List.cons.inj htokens).2
    | openNodes kinds => exact htokens
    | closeNode => exact htokens
  | clause around _ _ => cases (List.cons.inj htokens).1

end BuildStep

namespace Draft

open BuildStep

mutual

theorem tokens_inside : ∀ d : Draft, d.inside.filterMap token? = d.words.map (·.kind)
  | node kind parts => by
    rw [inside, List.filterMap_append, tokens_stepsOfAll parts, words]
    exact List.append_nil _
  | around kind first parts => by
    rw [inside, List.filterMap_append, List.filterMap_append, tokens_inside first,
      tokens_stepsOfAll parts, words, List.map_append]
    exact congrArg _ (List.append_nil _)

/-- The words that the steps of parts add are those of the parts. -/
theorem tokens_stepsOfAll : ∀ parts : List (Piece Draft),
    (stepsOfAll parts).filterMap token? = (wordsOfAll parts).map (·.kind)
  | [] => by simp [stepsOfAll, wordsOfAll]
  | .word w :: ps => by
    have hword : token? (.token w.kind) = some w.kind := rfl
    rw [stepsOfAll, List.filterMap_cons_some hword, tokens_stepsOfAll ps, wordsOfAll, List.map_cons]
  | .node d :: ps => by
    have hopen : token? (.openNodes d.spine) = none := rfl
    rw [stepsOfAll, List.filterMap_cons_none hopen, List.filterMap_append, tokens_inside d,
      tokens_stepsOfAll ps, wordsOfAll, List.map_append]

end

theorem tokens_of_words {xs : List Lexeme} {parts : List (Piece Draft)}
    (h : wordsOfAll parts = Word.ofLexemes true xs) :
    (stepsOfAll parts).filterMap token? = (Lexeme.words xs).map (·.kind) := by
  rw [tokens_stepsOfAll, h, ← words_ofLexemes true, List.map_map]
  rfl

/-- The steps of parts leave the node open that they are parts of. -/
theorem leavesOpen_stepsOfAll (parts : List (Piece Draft)) : LeavesOpen 1 (stepsOfAll parts) := by
  obtain ⟨habove, hfold⟩ := staysAbove_stepsOfAll parts Nat.one_pos
  exact ⟨habove, Nat.lt_of_lt_of_eq Nat.one_pos hfold.symm⟩

end Draft

/-! ### Single steps -/

/-- The tree of a node if it ends now. -/
def OpenNode.tree (n : OpenNode) : Tree := .node n.kind n.children.reverse

namespace Builder

variable {b b' : Builder} {n m : OpenNode} {outer : List OpenNode} {e z z' : Lexeme}
  {es xs xs' ys zs zs' pre rest : List Lexeme} {kind : TokenKind}

theorem add_withRest (b : Builder) (t : Tree) (r : List Lexeme) :
    ({ b with rest := r }).add t = { b.add t with rest := r } := by
  unfold add
  dsimp only
  split <;> rfl

theorem addLexemes_withRest (b : Builder) (xs rest r : List Lexeme) :
    ({ b with rest := r }).addLexemes xs rest = b.addLexemes xs rest := by
  have hfold (xs : List Lexeme) (b : Builder) :
      xs.foldl (fun b x => b.add (.leaf x.kind x.text)) { b with rest := r } =
        { xs.foldl (fun b x => b.add (.leaf x.kind x.text)) b with rest := r } := by
    induction xs generalizing b with
    | nil => rfl
    | cons x xs ih => rw [List.foldl_cons, List.foldl_cons, add_withRest, ih]
  simp only [addLexemes, hfold]

/-- The leading lexemes stand before the next word. -/
theorem splitLeading_word (hz : z.kind.isTrivia = false) (lineStart : Bool) (xs zs : List Lexeme) :
    splitLeading lineStart (xs ++ z :: zs) =
      ((splitLeading lineStart xs).1, (splitLeading lineStart xs).2 ++ z :: zs) := by
  induction xs generalizing lineStart with
  | nil => simp [splitLeading, hz]
  | cons x xs ih =>
    rw [List.cons_append, splitLeading, splitLeading]
    split
    · rfl
    · rw [ih]

theorem addWord_eq (hpre : ∀ x ∈ pre, x.kind.isTrivia) (hz : z.kind.isTrivia = false)
    (h : b.rest = pre ++ z :: rest) : b.addWord kind =
      { (b.addLexemes pre (z :: rest)).add (.leaf kind z.text) with rest, atStart := false } := by
  have htake : b.rest.takeWhile (·.kind.isTrivia) = pre := by
    rw [h, List.takeWhile_append_of_pos hpre, List.takeWhile_cons_of_neg (by simp [hz]),
      List.append_nil]
  have hdrop : b.rest.dropWhile (·.kind.isTrivia) = z :: rest := by
    rw [h, List.dropWhile_append_of_pos hpre, List.dropWhile_cons_of_neg (by simp [hz])]
  simp only [addWord, addTrivia, htake, hdrop]
  rfl

theorem addWord_spec_of_rest (hn : b.nodes = n :: outer) (hpre : ∀ x ∈ pre, x.kind.isTrivia)
    (hz : z.kind.isTrivia = false) (h : b.rest = pre ++ z :: rest) (kind : TokenKind) :
    (b.addWord kind).rest = rest ∧ (b.addWord kind).atStart = false ∧
      (b.addWord kind).nodes =
        ⟨n.kind, .leaf kind z.text :: ((Tree.ofLexemes pre).reverse ++ n.children)⟩ :: outer := by
  rw [addWord_eq hpre hz h]
  exact ⟨rfl, rfl, nodes_add (adds_addLexemes hn h.symm).nodes _⟩

/-! ### Before the words that differ -/

/-- Two builders that differ only in what is left of the text from the same place on. -/
structure Apart (xs zs zs' : List Lexeme) (b b' : Builder) : Prop where
  rest : b.rest = xs ++ zs
  eq : b' = { b with rest := xs ++ zs' }

namespace Apart

/-- A word that both have left is placed. -/
theorem addWord (h : Apart xs (z :: zs) (z' :: zs') b b') {x : Lexeme}
    (hx : x.kind.isTrivia = false) (hpre : ∀ y ∈ pre, y.kind.isTrivia) (hxs : xs = pre ++ x :: xs')
    (kind : TokenKind) :
    Apart xs' (z :: zs) (z' :: zs') (b.addWord kind) (b'.addWord kind) := by
  obtain ⟨hrest, rfl⟩ := h
  rw [hxs, List.append_assoc, List.cons_append] at hrest
  have hrest' : ({ b with rest := xs ++ z' :: zs' } : Builder).rest =
      pre ++ x :: (xs' ++ z' :: zs') := by
    rw [hxs, List.append_assoc, List.cons_append]
  rw [addWord_eq hpre hx hrest, addWord_eq hpre hx hrest',
    addLexemes_withRest b pre _ (xs ++ z' :: zs')]
  have hadd := add_withRest (b.addLexemes pre (x :: (xs' ++ z :: zs))) (.leaf kind x.text)
    (x :: (xs' ++ z' :: zs'))
  exact ⟨rfl, congrArg (fun c : Builder => { c with rest := xs' ++ z' :: zs', atStart := false }) hadd⟩

variable (hz : z.kind.isTrivia = false) (hz' : z'.kind.isTrivia = false)
  (h : Apart xs (z :: zs) (z' :: zs') b b')
include hz hz' h

theorem openNodes (kinds : List NodeKind) : ∃ xs', words xs' = words xs ∧
    Apart xs' (z :: zs) (z' :: zs') (b.openNodes kinds) (b'.openNodes kinds) := by
  obtain ⟨hrest, rfl⟩ := h
  have hfold (b : Builder) (r : List Lexeme) :
      kinds.foldl (fun b kind => { b with nodes := ⟨kind, []⟩ :: b.nodes }) { b with rest := r } =
        { kinds.foldl (fun b kind => { b with nodes := ⟨kind, []⟩ :: b.nodes }) b with rest := r } := by
    induction kinds generalizing b with
    | nil => rfl
    | cons kind kinds ih => rw [List.foldl_cons, List.foldl_cons, ← ih]
  unfold Builder.openNodes
  dsimp only
  split
  · exact ⟨xs, rfl, by rw [rest_foldl_open, hrest], hfold b _⟩
  · have hsplit := splitLeading_append b.atStart xs
    refine ⟨(splitLeading b.atStart xs).2, ?_, ?_, ?_⟩
    · rw [← hsplit, words_append, words_eq_nil (isTrivia_splitLeading _ _), List.nil_append,
        hsplit]
    · rw [rest_foldl_open, hrest, splitLeading_word hz]
      rfl
    · rw [hrest, splitLeading_word hz, splitLeading_word hz', addLexemes_withRest, ← hfold]
      rfl

/-- Where a word is left, a node that ends takes nothing of what is left. -/
theorem closeNode (hnodes : b.nodes = n :: m :: outer) :
    Apart xs (z :: zs) (z' :: zs') b.closeNode b'.closeNode := by
  obtain ⟨hrest, rfl⟩ := h
  have hword (xs : List Lexeme) {z : Lexeme} (hz : z.kind.isTrivia = false) (zs : List Lexeme) :
      (xs ++ z :: zs).all (·.kind.isTrivia) = false := by
    simp [hz]
  simp only [Builder.closeNode, hnodes, hrest, hword xs hz, hword xs hz', Bool.and_false,
    Bool.false_eq_true, if_false]
  exact ⟨rfl, rfl⟩

end Apart

/-! ### After them -/

/-- Two builders with the same lexemes left, whose open nodes differ in the head of one clause: it is the
lexeme `e` in the first one and the lexemes `es` in the second. -/
structure Respelled (e : Lexeme) (es : List Lexeme) (b b' : Builder) : Prop where
  rest : b'.rest = b.rest
  atStart : b'.atStart = b.atStart
  nodes : ∃ inner n n' outer, b.nodes = inner ++ n :: outer ∧ b'.nodes = inner ++ n' :: outer ∧
    Tree.Respelled e es n.tree n'.tree

namespace Respelled

variable (h : Respelled e es b b')
include h

theorem add (t : Tree) : Respelled e es (b.add t) (b'.add t) := by
  obtain ⟨hrest, hatStart, inner, n, n', outer, hn, hn', htree⟩ := h
  cases inner with
  | nil =>
    rw [List.nil_append] at hn hn'
    simp only [Builder.add, hn, hn']
    refine ⟨hrest, hatStart, [], _, _, outer, rfl, rfl, ?_⟩
    simpa [OpenNode.tree] using htree.append [t]
  | cons m inner =>
    rw [List.cons_append] at hn hn'
    simp only [Builder.add, hn, hn']
    exact ⟨hrest, hatStart, ⟨m.kind, t :: m.children⟩ :: inner, n, n', outer, rfl, rfl, htree⟩

theorem addLexemes (xs rest : List Lexeme) :
    Respelled e es (b.addLexemes xs rest) (b'.addLexemes xs rest) := by
  have hfold : Respelled e es (xs.foldl (fun b x => b.add (.leaf x.kind x.text)) b)
      (xs.foldl (fun b x => b.add (.leaf x.kind x.text)) b') := by
    induction xs generalizing b b' with
    | nil => exact h
    | cons x xs ih => exact ih (h.add _)
  exact ⟨rfl, congrArg (· && xs.isEmpty) hfold.atStart, hfold.nodes⟩

theorem addTrivia : Respelled e es b.addTrivia b'.addTrivia := by
  rw [Builder.addTrivia, Builder.addTrivia, h.rest]
  exact h.addLexemes _ _

theorem openNodes (kinds : List NodeKind) :
    Respelled e es (b.openNodes kinds) (b'.openNodes kinds) := by
  have hfold {b b' : Builder} (h : Respelled e es b b') :
      Respelled e es (kinds.foldl (fun b kind => { b with nodes := ⟨kind, []⟩ :: b.nodes }) b)
        (kinds.foldl (fun b kind => { b with nodes := ⟨kind, []⟩ :: b.nodes }) b') := by
    induction kinds generalizing b b' with
    | nil => exact h
    | cons kind kinds ih =>
      obtain ⟨hrest, hatStart, inner, n, n', outer, hn, hn', htree⟩ := h
      exact ih ⟨hrest, hatStart, ⟨kind, []⟩ :: inner, n, n', outer, congrArg (_ :: ·) hn,
        congrArg (_ :: ·) hn', htree⟩
  have hopen : b.nodes.isEmpty = false ∧ b'.nodes.isEmpty = false := by
    obtain ⟨-, -, inner, n, n', outer, hn, hn', -⟩ := h
    simp [hn, hn']
  simp only [Builder.openNodes, hopen.1, hopen.2, h.rest, h.atStart, Bool.false_eq_true, if_false]
  exact hfold (h.addLexemes _ _)

theorem addWord (kind : TokenKind) : Respelled e es (b.addWord kind) (b'.addWord kind) := by
  have htrivia := h.addTrivia
  simp only [Builder.addWord, htrivia.rest]
  split
  · exact htrivia
  · next x rest _ =>
    have hadd := htrivia.add (.leaf kind x.text)
    exact ⟨rfl, rfl, hadd.nodes⟩

/-- A node ends inside another one. -/
theorem pop {n' m' : OpenNode} {outer' : List OpenNode} (hn : b.nodes = n :: m :: outer)
    (hn' : b'.nodes = n' :: m' :: outer') :
    Respelled e es ({ b with nodes := m :: outer }.add n.tree)
      ({ b' with nodes := m' :: outer' }.add n'.tree) := by
  obtain ⟨hrest, hatStart, inner, k, k', around, hk, hk', htree⟩ := h
  rcases inner with _ | ⟨i, inner⟩
  · rw [hn, List.nil_append] at hk
    rw [hn', List.nil_append] at hk'
    cases hk
    cases hk'
    refine ⟨hrest, hatStart, [], _, _, outer, rfl, rfl, ?_⟩
    simpa [OpenNode.tree] using Tree.Respelled.inside m.kind m.children.reverse [] htree
  · rw [hn, List.cons_append] at hk
    rw [hn', List.cons_append] at hk'
    obtain ⟨rfl, hm⟩ := List.cons.inj hk
    obtain ⟨rfl, hm'⟩ := List.cons.inj hk'
    have hpop : Respelled e es { b with nodes := m :: outer } { b' with nodes := m' :: outer' } :=
      ⟨hrest, hatStart, inner, k, k', around, hm, hm', htree⟩
    exact hpop.add _

theorem exists_nodes (hn : b.nodes = n :: m :: outer) :
    ∃ n' m' outer', b'.nodes = n' :: m' :: outer' ∧ n'.kind = n.kind := by
  obtain ⟨-, -, inner, k, k', around, hk, hk', htree⟩ := h
  rw [hn] at hk
  rcases inner with _ | ⟨i, _ | ⟨j, inner⟩⟩
  · cases hk
    refine ⟨k', m, outer, hk', ?_⟩
    exact ElementKind.node.inj htree.kind_eq
  · cases hk
    exact ⟨n, k', outer, hk', rfl⟩
  · cases hk
    exact ⟨n, m, _, hk', rfl⟩

theorem closeNode (hn : b.nodes = n :: m :: outer) : Respelled e es b.closeNode b'.closeNode := by
  obtain ⟨n', m', outer', hn', hkind⟩ := h.exists_nodes hn
  cases hend : n.kind == .stmtList && b.rest.all (·.kind.isTrivia) with
  | true =>
    have htrivia := h.addTrivia
    simp only [Builder.closeNode, hn, hn', hkind, h.rest, hend, if_true, (adds_addTrivia hn).nodes,
      (adds_addTrivia hn').nodes]
    simpa only [OpenNode.tree, hkind, h.rest] using
      htrivia.pop (adds_addTrivia hn).nodes (adds_addTrivia hn').nodes
  | false =>
    simp only [Builder.closeNode, hn, hn', hkind, h.rest, hend, Bool.false_eq_true, if_false]
    simpa only [OpenNode.tree, hkind, h.rest] using h.pop hn hn'

/-- The steps that are left add the same to both. -/
theorem foldl {steps : List BuildStep} (hopen : BuildStep.LeavesOpen b.nodes.length steps) :
    Respelled e es (steps.foldl Builder.step b) (steps.foldl Builder.step b') := by
  induction steps generalizing b b' with
  | nil => exact h
  | cons step steps ih =>
    have hnext : BuildStep.LeavesOpen (b.step step).nodes.length steps := by
      rw [length_nodes_step]
      exact hopen.tail
    cases step with
    | openNodes kinds => exact ih (h.openNodes kinds) hnext
    | token kind => exact ih (h.addWord kind) hnext
    | closeNode =>
      obtain ⟨n, m, outer, hn⟩ := hopen.exists_nodes
      exact ih (h.closeNode hn) hnext

end Respelled

/-! ### Whole runs -/

theorem exists_word (h : words xs ≠ []) : ∃ x ∈ xs, x.kind.isTrivia = false := by
  obtain ⟨x, hx⟩ := List.exists_mem_of_ne_nil _ h
  obtain ⟨hmem, hword⟩ := List.mem_filter.1 hx
  exact ⟨x, hmem, by simpa using hword⟩

theorem words_word (hz : z.kind.isTrivia = false) (hpre : ∀ x ∈ pre, x.kind.isTrivia) :
    words (pre ++ z :: zs) = z :: words zs := by
  rw [words_append, words_eq_nil hpre, List.nil_append, words,
    List.filter_cons_of_pos (by simp [hz])]
  rfl

/-- The head of one clause is placed as one word, and as two. -/
theorem respelled_clause (around : List NodeKind) (he : e.kind = .kwElseIf) (hn : b.nodes = n :: outer)
    (h : Apart xs (e :: ys) (elseIf ++ ys) b b') (hxs : words xs = []) :
    Respelled e elseIf ((b.openNodes (around ++ [.elseIfClause])).addWord .kwElseIf)
      (((b'.openNodes (around ++ [.elseIfClause])).addWord .kwElse).addWord .kwIf) := by
  have heword : e.kind.isTrivia = false := by simp [he, TokenKind.isTrivia]
  obtain ⟨xs', hxs', happart⟩ := Apart.openNodes heword rfl h (around ++ [.elseIfClause])
  have htrivia := isTrivia_of_words_eq_nil (hxs'.trans hxs)
  obtain ⟨c, -, -, hnodes, -⟩ := openNodes_spec hn (around ++ [.elseIfClause])
  rw [List.reverse_append, List.reverse_singleton, List.singleton_append, List.map_cons,
    List.cons_append] at hnodes
  have hnodes' : (b'.openNodes (around ++ [.elseIfClause])).nodes =
      ⟨.elseIfClause, []⟩ :: (around.reverse.map (fun kind => ⟨kind, []⟩) ++ c.nodes) := by
    rw [happart.eq]
    exact hnodes
  have hrest' : (b'.openNodes (around ++ [.elseIfClause])).rest =
      xs' ++ ⟨.kwElse, "Else".toList⟩ :: ([space] ++ ⟨.kwIf, "If".toList⟩ :: ys) := by
    rw [happart.eq]
    rfl
  obtain ⟨hleft, hstart, hone⟩ :=
    addWord_spec_of_rest hnodes htrivia heword happart.rest .kwElseIf
  obtain ⟨hrest', -, htwo⟩ := addWord_spec_of_rest hnodes' htrivia rfl hrest' .kwElse
  obtain ⟨hleft', hstart', htwo⟩ := addWord_spec_of_rest htwo (by decide) rfl hrest' .kwIf
  refine ⟨hleft'.trans hleft.symm, hstart'.trans hstart.symm, [], _, _, _, hone, htwo, ?_⟩
  have hclause : Tree.Respelled e elseIf _ _ := .clause htrivia []
  simpa [OpenNode.tree, Tree.ofLexemes, elseIf, space, he] using hclause

/-- Steps with the head of one clause written as two words. -/
theorem foldl_respelled {steps steps' : List BuildStep} (hsteps : BuildStep.Respelled steps steps')
    (he : e.kind = .kwElseIf) (h : Apart xs (e :: ys) (elseIf ++ ys) b b')
    (hopen : BuildStep.LeavesOpen b.nodes.length steps)
    (htokens : steps.filterMap BuildStep.token? =
      (words xs).map (·.kind) ++ .kwElseIf :: (words ys).map (·.kind))
    (htokens' : steps'.filterMap BuildStep.token? =
      (words xs).map (·.kind) ++ .kwElse :: .kwIf :: (words ys).map (·.kind)) :
    Respelled e elseIf (steps.foldl Builder.step b) (steps'.foldl Builder.step b') := by
  have heword : e.kind.isTrivia = false := by simp [he, TokenKind.isTrivia]
  induction hsteps generalizing b b' xs with
  | nil => exact absurd htokens.symm (by simp)
  | @same step steps steps' hsteps ih =>
    have hnext : BuildStep.LeavesOpen (b.step step).nodes.length steps := by
      rw [length_nodes_step]
      exact hopen.tail
    cases step with
    | openNodes kinds =>
      obtain ⟨xs', hxs', happart⟩ := Apart.openNodes heword rfl h kinds
      exact ih happart hnext (hxs' ▸ htokens) (hxs' ▸ htokens')
    | token kind =>
      by_cases hxs : words xs = []
      · -- The next words differ, and so would the step.
        rw [hxs] at htokens htokens'
        cases (List.cons.inj htokens).1
        cases (List.cons.inj htokens').1
      · obtain ⟨pre, x, xs', rfl, hpre, hx⟩ := exists_first_word (exists_word hxs)
        rw [words_word hx hpre] at htokens htokens'
        exact ih (h.addWord hx hpre rfl kind) hnext (List.cons.inj htokens).2
          (List.cons.inj htokens').2
    | closeNode =>
      obtain ⟨n, m, outer, hn⟩ := hopen.exists_nodes
      exact ih (Apart.closeNode heword rfl h hn) hnext htokens htokens'
  | @clause around steps steps' hsteps _ =>
    by_cases hxs : words xs = []
    · obtain ⟨n, outer, hn⟩ := List.exists_cons_of_length_pos hopen.1.1
      rw [hxs] at htokens htokens'
      have hlater := (List.cons.inj htokens).2
      have hlater' := (List.cons.inj (List.cons.inj htokens').2).2
      obtain rfl := hsteps.eq_of_tokens (hlater.trans hlater'.symm)
      refine (respelled_clause around he hn h hxs).foldl ?_
      have hnext := hopen.tail.tail
      rwa [← length_nodes_step, ← length_nodes_step] at hnext
    · -- Both have the same next word.
      obtain ⟨pre, x, xs', rfl, hpre, hx⟩ := exists_first_word (exists_word hxs)
      rw [words_word hx hpre] at htokens htokens'
      have hkind : TokenKind.kwElseIf = x.kind := (List.cons.inj htokens).1
      have hkind' : TokenKind.kwElse = x.kind := (List.cons.inj htokens').1
      cases hkind.trans hkind'.symm

end Builder

end CRBasic
