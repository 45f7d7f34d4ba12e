import CRBasic.Proofs.Tree.Standing

/-!
# The elements of a node

The elements of a node stand one behind the other, and show the parts of a draft in their order: blanks
and comments stand between the elements that show parts (`Element.ShowAll`).  So where an element stands is
told by what the elements before it show (`Node.Stands.part`, `Node.Stands.range_eq`).
-/

namespace CRBasic

namespace Element

/-! ### Places -/

/-- The bytes of an element. -/
def range : Element → ByteRange
  | node n => n.range
  | leaf x => x.range

/-- An element ends where another one starts, or before. -/
def Precedes (e e' : Element) : Prop := e.range.stop ≤ e'.range.start

theorem le_start_of_mem_ofTrees {e : Element} {start : Nat} {ts : List Tree}
    (he : e ∈ ofTrees start ts) : start ≤ e.range.start := by
  induction ts generalizing start with
  | nil => cases he
  | cons t ts ih =>
    cases t <;> rcases List.mem_cons.1 he with rfl | he
    · exact Nat.le_refl _
    · exact Nat.le_trans (Nat.le_add_right _ _) (ih he)
    · exact Nat.le_refl _
    · exact Nat.le_trans (Nat.le_add_right _ _) (ih he)

/-- Elements stand one behind the other. -/
theorem pairwise_ofTrees (start : Nat) (ts : List Tree) :
    (ofTrees start ts).Pairwise Precedes := by
  induction ts generalizing start with
  | nil => exact .nil
  | cons t ts ih =>
    cases t with
    | leaf kind text => exact .cons (fun e he => le_start_of_mem_ofTrees he) (ih _)
    | node kind children => exact .cons (fun e he => le_start_of_mem_ofTrees he) (ih _)

/-! ### Parts -/

/-- Some elements show some parts, with blanks and comments between them. -/
inductive ShowAll : List Element → List (Piece Draft) → Prop where
  | nil : ShowAll [] []
  | trivia {x : Leaf} {es : List Element} {ps : List (Piece Draft)} (hx : x.kind.isTrivia)
      (h : ShowAll es ps) : ShowAll (leaf x :: es) ps
  | word {x : Leaf} {w : Word} {es : List Element} {ps : List (Piece Draft)}
      (hx : x.kind.isTrivia = false) (hw : x.lexeme = w.lexeme) (h : ShowAll es ps) :
      ShowAll (leaf x :: es) (.word w :: ps)
  | node {n : Node} {d : Draft} {es : List Element} {ps : List (Piece Draft)}
      (hn : (Tree.node n.kind n.children).Shows d) (h : ShowAll es ps) :
      ShowAll (node n :: es) (.node d :: ps)

theorem showAll_ofTrees {ts : List Tree} {ps : List (Piece Draft)} (h : Tree.ShowAll ts ps)
    (start : Nat) : ShowAll (ofTrees start ts) ps := by
  induction ts generalizing start ps with
  | nil => cases h.cases with | nil => exact .nil
  | cons t ts ih =>
    cases h.cases with
    | trivia hkind hmore => exact .trivia hkind (ih hmore _)
    | word hkind hmore => exact .word hkind rfl (ih hmore _)
    | node ht hmore =>
      obtain ⟨children, rfl, -⟩ := ht.exists_children
      exact .node ht (ih hmore _)

variable {es us vs : List Element} {ps qs : List (Piece Draft)} {w : Word} {d : Draft}

namespace ShowAll

theorem append (h : ShowAll us ps) (h' : ShowAll vs qs) : ShowAll (us ++ vs) (ps ++ qs) := by
  induction h with
  | nil => exact h'
  | trivia hx _ ih => exact .trivia hx ih
  | word hx hw _ ih => exact .word hx hw ih
  | node hn _ ih => exact .node hn ih

theorem exists_append (h : ShowAll es (ps ++ qs)) :
    ∃ us vs, es = us ++ vs ∧ ShowAll us ps ∧ ShowAll vs qs := by
  generalize hrs : ps ++ qs = rs at h
  induction h generalizing ps with
  | nil =>
    obtain ⟨rfl, rfl⟩ := List.append_eq_nil_iff.1 hrs
    exact ⟨[], [], rfl, .nil, .nil⟩
  | trivia hx _ ih =>
    obtain ⟨us, vs, rfl, hus, hvs⟩ := ih hrs
    exact ⟨_ :: us, vs, rfl, .trivia hx hus, hvs⟩
  | word hx hw h ih =>
    cases ps with
    | nil => exact ⟨[], _, rfl, .nil, by rw [List.nil_append] at hrs; exact hrs ▸ .word hx hw h⟩
    | cons p ps =>
      obtain ⟨rfl, hmore⟩ := List.cons.inj hrs
      obtain ⟨us, vs, rfl, hus, hvs⟩ := ih hmore
      exact ⟨_ :: us, vs, rfl, .word hx hw hus, hvs⟩
  | node hn h ih =>
    cases ps with
    | nil => exact ⟨[], _, rfl, .nil, by rw [List.nil_append] at hrs; exact hrs ▸ .node hn h⟩
    | cons p ps =>
      obtain ⟨rfl, hmore⟩ := List.cons.inj hrs
      obtain ⟨us, vs, rfl, hus, hvs⟩ := ih hmore
      exact ⟨_ :: us, vs, rfl, .node hn hus, hvs⟩

theorem exists_cons {p : Piece Draft} (h : ShowAll es (p :: qs)) :
    ∃ us e vs, es = us ++ e :: vs ∧ ShowAll us [] ∧ ShowAll [e] [p] ∧ ShowAll vs qs := by
  generalize hrs : p :: qs = rs at h
  induction h with
  | nil => cases hrs
  | trivia hx _ ih =>
    obtain ⟨us, e, vs, rfl, hus, he, hvs⟩ := ih hrs
    exact ⟨_ :: us, e, vs, rfl, .trivia hx hus, he, hvs⟩
  | word hx hw h ih =>
    obtain ⟨rfl, rfl⟩ := List.cons.inj hrs
    exact ⟨[], _, _, rfl, .nil, .word hx hw .nil, h⟩
  | node hn h ih =>
    obtain ⟨rfl, rfl⟩ := List.cons.inj hrs
    exact ⟨[], _, _, rfl, .nil, .node hn .nil, h⟩

/-- A word among the parts is shown by a leaf, and what is before it and behind it by what is before that
leaf and behind it. -/
theorem exists_word (h : ShowAll es (ps ++ .word w :: qs)) :
    ∃ us x vs, es = us ++ leaf x :: vs ∧ x.kind.isTrivia = false ∧ x.lexeme = w.lexeme ∧
      ShowAll us ps ∧ ShowAll vs qs := by
  obtain ⟨us, rs, rfl, hus, hrs⟩ := h.exists_append
  obtain ⟨us', e, vs, rfl, hus', he, hvs⟩ := hrs.exists_cons
  cases he with
  | @word x _ _ _ hx hw _ =>
    refine ⟨us ++ us', x, vs, by simp, hx, hw, ?_, hvs⟩
    simpa using hus.append hus'
  | trivia _ h => cases h

/-- A node among the parts is shown by a node. -/
theorem exists_node (h : ShowAll es (ps ++ .node d :: qs)) :
    ∃ us n vs, es = us ++ Element.node n :: vs ∧ (Tree.node n.kind n.children).Shows d ∧
      ShowAll us ps ∧ ShowAll vs qs := by
  obtain ⟨us, rs, rfl, hus, hrs⟩ := h.exists_append
  obtain ⟨us', e, vs, rfl, hus', he, hvs⟩ := hrs.exists_cons
  cases he with
  | @node n _ _ _ hn _ =>
    refine ⟨us ++ us', n, vs, by simp, hn, ?_, hvs⟩
    simpa using hus.append hus'
  | trivia _ h => cases h

/-- Every element shows one of the parts, blanks and comments apart. -/
theorem of_mem {e : Element} (h : ShowAll es ps) (he : e ∈ es) :
    (∃ x, e = leaf x ∧ x.kind.isTrivia) ∨
      (∃ x w, e = leaf x ∧ .word w ∈ ps ∧ x.kind.isTrivia = false ∧ x.lexeme = w.lexeme) ∨
      ∃ n d, e = Element.node n ∧ .node d ∈ ps ∧ (Tree.node n.kind n.children).Shows d := by
  induction h with
  | nil => cases he
  | @trivia x _ _ hx _ ih =>
    rcases List.mem_cons.1 he with rfl | he
    · exact .inl ⟨x, rfl, hx⟩
    · exact ih he
  | @word x w _ _ hx hw _ ih =>
    rcases List.mem_cons.1 he with rfl | he
    · exact .inr (.inl ⟨x, w, rfl, List.mem_cons_self, hx, hw⟩)
    · rcases ih he with h | ⟨x, w, rfl, hw, h⟩ | ⟨n, d, rfl, hd, h⟩
      · exact .inl h
      · exact .inr (.inl ⟨x, w, rfl, List.mem_cons_of_mem _ hw, h⟩)
      · exact .inr (.inr ⟨n, d, rfl, List.mem_cons_of_mem _ hd, h⟩)
  | @node n d _ _ hn _ ih =>
    rcases List.mem_cons.1 he with rfl | he
    · exact .inr (.inr ⟨n, d, rfl, List.mem_cons_self, hn⟩)
    · rcases ih he with h | ⟨x, w, rfl, hw, h⟩ | ⟨n, d, rfl, hd, h⟩
      · exact .inl h
      · exact .inr (.inl ⟨x, w, rfl, List.mem_cons_of_mem _ hw, h⟩)
      · exact .inr (.inr ⟨n, d, rfl, List.mem_cons_of_mem _ hd, h⟩)

/-- Elements have the words that they show. -/
theorem words_eq (h : ShowAll es ps) :
    (es.filterMap (·.word?)).map Leaf.lexeme = (Draft.ownWords ps).map Word.lexeme := by
  induction h with
  | nil => rfl
  | trivia hx _ ih => rwa [List.filterMap_cons_none (by rw [word?_leaf, if_pos hx])]
  | word hx hw _ ih =>
    rw [List.filterMap_cons_some (by rw [word?_leaf, hx]; rfl), List.map_cons, hw, ih]
    rfl
  | node _ _ ih => exact ih

/-- Elements that show as many nodes have as many. -/
theorem length_nodes (h : ShowAll es ps) :
    (es.filterMap (·.node?)).length = (Draft.nodesOf ps).length := by
  induction h with
  | nil => rfl
  | trivia _ _ ih => rwa [List.filterMap_cons_none (node?_leaf _)]
  | word _ _ _ ih => rwa [List.filterMap_cons_none (node?_leaf _), Draft.nodesOf]
  | node _ _ ih =>
    rw [List.filterMap_cons_some (node?_node _), Draft.nodesOf, List.length_cons, List.length_cons, ih]

end ShowAll

/-! ### Lexemes -/

/-- The lexemes of an element. -/
def lexemes : Element → List Lexeme
  | node n => Tree.leavesOfAll n.children
  | leaf x => [x.lexeme]

theorem flatMap_lexemes (start : Nat) (ts : List Tree) :
    (ofTrees start ts).flatMap lexemes = Tree.leavesOfAll ts := by
  induction ts generalizing start with
  | nil => rfl
  | cons t ts ih =>
    cases t with
    | leaf kind text => rw [ofTrees, List.flatMap_cons, ih]; rfl
    | node kind children => rw [ofTrees, List.flatMap_cons, ih]; rfl

/-- An element starts behind the lexemes of those before it. -/
theorem start_eq {e : Element} {start : Nat} {ts : List Tree} (h : ofTrees start ts = us ++ e :: vs) :
    e.range.start = start + byteLength (Lexeme.joined (us.flatMap lexemes)) := by
  induction us generalizing start ts with
  | nil =>
    rcases ts with - | ⟨⟨kind, text⟩ | ⟨kind, children⟩, ts⟩
    · cases h
    · rw [← (List.cons.inj h).1]
      rfl
    · rw [← (List.cons.inj h).1]
      rfl
  | cons u us ih =>
    rw [List.flatMap_cons, Lexeme.joined_append, byteLength_append, ← Nat.add_assoc]
    rcases ts with - | ⟨⟨kind, text⟩ | ⟨kind, children⟩, ts⟩
    · cases h
    · obtain ⟨rfl, hmore⟩ := List.cons.inj h
      rw [ih hmore]
      simp [lexemes, Leaf.lexeme, Lexeme.joined]
    · obtain ⟨rfl, hmore⟩ := List.cons.inj h
      rw [ih hmore]
      simp [lexemes, ← Tree.widthOfAll_eq]

/-- Elements have the words of the parts that they show. -/
theorem ShowAll.length_words (h : ShowAll es ps) :
    (Lexeme.words (es.flatMap lexemes)).length = (Draft.wordsOfAll ps).length := by
  induction h with
  | nil => rfl
  | @trivia x _ _ hx _ ih =>
    have hnone : Lexeme.words (lexemes (leaf x)) = [] :=
      Lexeme.words_eq_nil (by simpa [lexemes, Leaf.lexeme] using hx)
    rw [List.flatMap_cons, Lexeme.words_append, hnone]
    exact ih
  | @word x _ _ _ hx _ _ ih =>
    have hword : Lexeme.words (lexemes (leaf x)) = [x.lexeme] :=
      List.filter_cons_of_pos (by simp [Leaf.lexeme, hx])
    rw [List.flatMap_cons, Lexeme.words_append, hword, List.singleton_append, List.length_cons, ih]
    rfl
  | node hn _ ih =>
    rw [List.flatMap_cons, Lexeme.words_append, List.length_append, ih, Draft.wordsOfAll,
      List.length_append]
    exact congrArg (· + _) (Tree.length_words_leaves hn)

/-! ### Kinds -/

variable {k : TokenKind} {kind : NodeKind}

/-- Only a word of some kind is shown by a leaf of that kind. -/
theorem ShowAll.isLeaf_eq_false (h : ShowAll es ps) (hk : k.isTrivia = false)
    (hps : ∀ w, .word w ∈ ps → w.kind ≠ k) : ∀ e ∈ es, e.isLeaf k = false := by
  intro e he
  rcases h.of_mem he with ⟨x, rfl, hx⟩ | ⟨x, w, rfl, hw, -, hlexeme⟩ | ⟨n, d, rfl, -⟩
  · have hne : x.kind ≠ k := by
      rintro rfl
      exact Bool.false_ne_true (hk.symm.trans hx)
    simpa [isLeaf, Element.kind] using hne
  · have hkind : x.kind = w.kind := congrArg Lexeme.kind hlexeme
    simpa [isLeaf, Element.kind, hkind] using hps w hw
  · rfl

/-- Only a draft of some kind is shown by a node of that kind. -/
theorem ShowAll.isNode_eq_false (h : ShowAll es ps) (hps : ∀ d, .node d ∈ ps → d.kind ≠ kind) :
    ∀ e ∈ es, e.isNode kind = false := by
  intro e he
  rcases h.of_mem he with ⟨x, rfl, -⟩ | ⟨x, w, rfl, -⟩ | ⟨n, d, rfl, hd, hshows⟩
  · rfl
  · rfl
  · have hkind : n.kind = d.kind := ElementKind.node.inj hshows.kind_eq
    simpa [isNode, Element.kind, hkind] using hps d hd

theorem findSome?_ofNode?_eq_none (h : ∀ e ∈ es, e.isNode kind = false) :
    (es.filterMap (·.node?)).findSome? (View.ofNode? kind) = none := by
  refine List.findSome?_eq_none_iff.2 fun n hn => ?_
  obtain ⟨e, he, hnode⟩ := List.mem_filterMap.1 hn
  cases e with
  | leaf x => cases hnode
  | node m =>
    obtain rfl : m = n := Option.some.inj hnode
    have hkind : m.kind ≠ kind := by simpa [isNode, Element.kind] using h _ he
    rw [View.ofNode?, dif_neg hkind]

end Element

/-- The ranges of the words among some lexemes are counted as the words are. -/
theorem Word.getElem?_rangesFrom (n : Nat) (us : List Lexeme) {x : Lexeme} (hx : x.kind.isTrivia = false)
    (vs : List Lexeme) : (rangesFrom n (us ++ x :: vs))[(Lexeme.words us).length]? =
      some (x.token (n + byteLength (Lexeme.joined us))).range := by
  rw [rangesFrom_append, rangesFrom, if_neg (by simp [hx]), ← length_ofLexemes true,
    ← length_rangesFrom n, List.getElem?_append_right (Nat.le_refl _), Nat.sub_self]
  rfl

namespace Node.Stands

variable {n m : Node} {start : Nat} {xs front : List Lexeme} {d e : Draft} {us vs : List Element}
  {ps : List (Piece Draft)}

theorem kind_eq (h : n.Stands start xs front d) : n.kind = d.kind :=
  ElementKind.node.inj h.shows.kind_eq

theorem showAll (h : n.Stands start xs front d) : Element.ShowAll n.elements d.pieces := by
  obtain ⟨children, hnode, hchildren⟩ := h.shows.exists_children
  obtain ⟨-, rfl⟩ := Tree.node.inj hnode
  exact Element.showAll_ofTrees hchildren _

theorem exists_back {x : Element} (h : n.Stands start xs front d) (hes : n.elements = us ++ x :: vs) :
    (∃ back, xs = front ++ us.flatMap Element.lexemes ++ x.lexemes ++ back) ∧
      x.range.start = start + byteLength (Lexeme.joined (front ++ us.flatMap Element.lexemes)) := by
  obtain ⟨back, hback⟩ := h.leaves
  refine ⟨⟨vs.flatMap Element.lexemes ++ back, ?_⟩, ?_⟩
  · rw [hback, ← Element.flatMap_lexemes n.start]
    change front ++ n.elements.flatMap Element.lexemes ++ back = _
    rw [hes]
    simp
  · rw [Element.start_eq hes, h.start_eq, Lexeme.joined_append, byteLength_append, Nat.add_assoc]

/-- A part of a node stands behind what is in front of it in the node. -/
theorem part (h : n.Stands start xs front d) (hes : n.elements = us ++ .node m :: vs)
    (hm : (Tree.node m.kind m.children).Shows e) :
    m.Stands start xs (front ++ us.flatMap Element.lexemes) e := by
  obtain ⟨hback, hstart⟩ := h.exists_back hes
  exact ⟨hm, hback, hstart⟩

end Node.Stands

/-- The node of a view among those of some nodes is one of them. -/
theorem View.node_mem {kind : NodeKind} {v : View kind} {ns : List Node}
    (h : v ∈ ns.filterMap (View.ofNode? kind)) : v.node ∈ ns := by
  obtain ⟨n, hn, hv⟩ := List.mem_filterMap.1 h
  unfold View.ofNode? at hv
  split at hv
  · cases hv
    exact hn
  · cases hv

end CRBasic
