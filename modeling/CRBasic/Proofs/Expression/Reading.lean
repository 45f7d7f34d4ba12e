import CRBasic.Proofs.Expression.Term
import CRBasic.Proofs.Tree.Shape
import CRBasic.View.Expression

/-!
# Reading terms back

The expression of a node whose shape is the draft of a term has, part by part, what the term says
(`reads_term`).
-/

namespace CRBasic

namespace Term

/-- An expression, or the one inside parentheses that were added, is as described. -/
def Within (added : Bool) (described : Expr → Prop) (x : Expr) : Prop :=
  if added then ∃ v y, x = .paren v ∧ v.inner? = some y ∧ described y else described x

mutual

/-- The parts of an expression are those of the term, apart from the parentheses added between
operators. -/
def Reads : Term → Expr → Prop
  | binary op a b, .binary v =>
    v.infixOperator?.map (·.kind) = some op.kind ∧
      (∃ x, v.left? = some x ∧ Within (a.level < op.power) (Reads a) x) ∧
      ∃ x, v.right? = some x ∧ Within (b.level < op.power + 1) (Reads b) x
  | unary op a, .unary v =>
    v.sign?.map (·.kind) = some op.kind ∧
      ∃ x, v.operand? = some x ∧ Within (a.level < op.power) (Reads a) x
  | paren a, .paren v => ∃ x, v.inner? = some x ∧ Reads a x
  | name n, .name v => v.name = n.text
  | call n args, .call v => v.callee?.map View.name = some n.text ∧ ReadsAll args v.arguments
  | number a, .number v => v.numberWord?.map (·.text) = some a.text
  | string a, .string v => ∃ body, v.contents? = some body ∧ a.text = '\x22' :: body ++ ['\x22']
  | boolean b, .boolean v => v.truth? = some b
  | _, _ => False

/-- The expressions are those of the terms, in the same order. -/
def ReadsAll : List Term → List Expr → Prop
  | [], [] => True
  | e :: es, x :: xs => Reads e x ∧ ReadsAll es xs
  | _, _ => False

end

end Term

/-! ### Expressions among parts -/

theorem Expr.ofNode?_node (x : Expr) : Expr.ofNode? x.node = some x := by
  cases x <;> next v =>
    obtain ⟨⟨start, kind, children⟩, h⟩ := v
    cases h
    rfl

/-- Every node of the shape of a draft has an expression that is as described. -/
def ReadBy (described : Expr → Prop) (d : Draft) : Prop :=
  ∀ n : Node, n.shape = d.tree → ∃ x, Expr.ofNode? n = some x ∧ described x

variable {n : Node} {kind : NodeKind} {described : Expr → Prop} {d : Draft} {ds : List Draft}
  {ps : List (Piece Draft)}

theorem ReadBy.expressions {ns : List Node} (h : ReadBy described d)
    (hns : ns.map Node.shape = (d :: ds).map Draft.tree) :
    ∃ (x : Expr) (ns' : List Node), described x ∧ ns'.map Node.shape = ds.map Draft.tree ∧
      ns.filterMap Expr.ofNode? = x :: ns'.filterMap Expr.ofNode? := by
  obtain ⟨n, ns', rfl, hn, hns'⟩ := List.map_eq_cons_iff.1 hns
  obtain ⟨x, hx, hdescribed⟩ := h n hn
  exact ⟨x, ns', hdescribed, hns', List.filterMap_cons_some hx⟩

theorem ReadBy.expression? (h : ReadBy described d) (hn : n.HasParts kind ps)
    (hps : Draft.nodesOf ps = d :: ds) : ∃ x, n.expression? = some x ∧ described x := by
  obtain ⟨x, ns', hx, -, hns⟩ := h.expressions (hps ▸ hn.childNodes_eq)
  exact ⟨x, by rw [Node.expression?, Node.expressions, hns, List.head?_cons], hx⟩

namespace Term

theorem readBy_encloseDraft (added : Bool) (h : ReadBy described d) :
    ReadBy (Within added described) (encloseDraft added d) := by
  cases added with
  | false => exact h
  | true =>
    intro n hn
    have hparts := Node.hasParts_of_shape hn
    obtain ⟨x, hx, hdescribed⟩ := h.expression? hparts rfl
    exact ⟨_, Expr.ofNode?_node (.paren ⟨n, hparts.kind_eq⟩), _, x, rfl, hx, hdescribed⟩

/-! ### Names and literals -/

theorem ownWords_map_word (xs : List Lexeme) :
    Draft.ownWords (xs.map (.word ·.word)) = xs.map Lexeme.word := by
  induction xs with
  | nil => rfl
  | cons x xs ih => exact congrArg (x.word :: ·) ih

theorem name_of_shape {n : DottedName} {m : Node} (h : m.shape = n.draft.tree) :
    ∃ hkind, View.name ⟨m, hkind⟩ = n.text := by
  have hparts := Node.hasParts_of_shape h
  have hwords : m.words.map Leaf.lexeme = n.lexemes := by
    rw [hparts.words_eq, ownWords_map_word, List.map_map]
    exact List.map_id n.lexemes
  have hname : m.words.flatMap (·.text) = n.text := by
    rw [DottedName.text, ← hwords, Lexeme.joined, List.flatMap_map]
    rfl
  exact ⟨hparts.kind_eq, hname⟩

theorem readBy_name (n : DottedName) : ReadBy (Reads (.name n)) n.draft := by
  intro m hm
  obtain ⟨hkind, hname⟩ := name_of_shape hm
  exact ⟨_, Expr.ofNode?_node (.name ⟨m, hkind⟩), hname⟩

theorem readBy_number (a : Atom .number) : ReadBy (Reads (.number a)) (draft (.number a)) := by
  intro n hn
  have hparts := Node.hasParts_of_shape hn
  obtain ⟨x, hx, hlexeme⟩ := hparts.firstWord?_eq rfl
  obtain ⟨hkind, htext⟩ := Lexeme.mk.inj hlexeme
  have hword : n.firstWord?.filter (·.kind == .number) = some x := by
    rw [hx, Option.filter_some, hkind]
    rfl
  have hnumber : (n.firstWord?.filter (·.kind == .number)).map (·.text) = some a.text := by
    rw [hword, Option.map_some, htext]
    rfl
  exact ⟨_, Expr.ofNode?_node (.number ⟨n, hparts.kind_eq⟩), hnumber⟩

theorem betweenQuotes?_eq (body : List Char) :
    View.betweenQuotes? ('\x22' :: body ++ ['\x22']) = some body := by
  rw [List.cons_append, View.betweenQuotes?, List.getLast?_concat, if_pos rfl, List.dropLast_concat]

theorem readBy_string (a : Atom .quotedString) : ReadBy (Reads (.string a)) (draft (.string a)) := by
  intro n hn
  have hparts := Node.hasParts_of_shape hn
  obtain ⟨x, hx, hlexeme⟩ := hparts.firstWord?_eq rfl
  obtain ⟨-, htext⟩ := Lexeme.mk.inj hlexeme
  obtain ⟨body, hbody, -⟩ := Lexer.matches_closedString
    (Lexer.closedString_of_quotedString (x := a.lexeme) rfl a.isLexeme)
  have hcontents : n.firstWord?.bind (fun x => View.betweenQuotes? x.text) = some body := by
    rw [hx, Option.bind_some, htext]
    exact (congrArg View.betweenQuotes? hbody).trans (betweenQuotes?_eq body)
  exact ⟨_, Expr.ofNode?_node (.string ⟨n, hparts.kind_eq⟩), body, hcontents, hbody⟩

theorem readBy_boolean (b : Bool) : ReadBy (Reads (.boolean b)) (draft (.boolean b)) := by
  intro n hn
  have hparts := Node.hasParts_of_shape hn
  obtain ⟨x, hx, hlexeme⟩ := hparts.firstWord?_eq rfl
  obtain ⟨hkind, -⟩ := Lexeme.mk.inj hlexeme
  have htruth : View.truth? ⟨n, hparts.kind_eq⟩ = some b := by
    simp only [View.truth?, hx, Option.bind_some, hkind]
    cases b <;> rfl
  exact ⟨_, Expr.ofNode?_node (.boolean ⟨n, hparts.kind_eq⟩), htruth⟩

/-! ### Operators and calls -/

theorem readBy_unary {op : PrefixOperator} {a : Term} (ha : ReadBy (Reads a) a.draft) :
    ReadBy (Reads (.unary op a)) (draft (.unary op a)) := by
  intro n hn
  have hparts := Node.hasParts_of_shape hn
  obtain ⟨o, ho, hlexeme⟩ := hparts.firstWord?_eq rfl
  obtain ⟨hkind, -⟩ := Lexeme.mk.inj hlexeme
  obtain ⟨x, hx, hreads⟩ := (readBy_encloseDraft (a.level < op.power) ha).expression? hparts rfl
  have hsign : n.firstWord?.map (·.kind) = some op.kind := by
    rw [ho, Option.map_some, hkind]
    rfl
  exact ⟨_, Expr.ofNode?_node (.unary ⟨n, hparts.kind_eq⟩), hsign, x, hx, hreads⟩

theorem readBy_paren {a : Term} (ha : ReadBy (Reads a) a.draft) :
    ReadBy (Reads (.paren a)) (draft (.paren a)) := by
  intro n hn
  have hparts := Node.hasParts_of_shape hn
  obtain ⟨x, hx, hreads⟩ := ha.expression? hparts rfl
  exact ⟨_, Expr.ofNode?_node (.paren ⟨n, hparts.kind_eq⟩), x, hx, hreads⟩

theorem readBy_binary {op : InfixOperator} {a b : Term} (ha : ReadBy (Reads a) a.draft)
    (hb : ReadBy (Reads b) b.draft) :
    ReadBy (Reads (.binary op a b)) (draft (.binary op a b)) := by
  intro n hn
  have hparts : n.HasParts .binaryExpr [.node (encloseDraft (a.level < op.power) a.draft),
      .word op.kind.lexeme.word, .node (encloseDraft (b.level < op.power + 1) b.draft)] :=
    Node.hasParts_of_shape hn
  obtain ⟨o, ho, hlexeme⟩ := hparts.firstWord?_eq rfl
  obtain ⟨hkind, -⟩ := Lexeme.mk.inj hlexeme
  obtain ⟨x, ns, hx, hns, hxs⟩ :=
    (readBy_encloseDraft (a.level < op.power) ha).expressions hparts.childNodes_eq
  obtain ⟨y, ns', hy, -, hys⟩ :=
    (readBy_encloseDraft (b.level < op.power + 1) hb).expressions hns
  have hoperator : n.firstWord?.map (·.kind) = some op.kind := by
    rw [ho, Option.map_some, hkind]
    rfl
  have hexpressions : n.expressions = x :: y :: ns'.filterMap Expr.ofNode? := by
    rw [Node.expressions, hxs, hys]
  have hleft : n.expressions[0]? = some x := by rw [hexpressions]; rfl
  have hright : n.expressions[1]? = some y := by rw [hexpressions]; rfl
  exact ⟨_, Expr.ofNode?_node (.binary ⟨n, hparts.kind_eq⟩), hoperator, ⟨x, hleft, hx⟩,
    y, hright, hy⟩

/-- Expressions that are those of their terms, one by one. -/
theorem readsAll_of_shapes {es : List Term} (h : ∀ e ∈ es, ReadBy (Reads e) e.draft)
    {ns : List Node} (hns : ns.map Node.shape = es.map fun e => e.draft.tree) :
    ReadsAll es (ns.filterMap Expr.ofNode?) := by
  induction es generalizing ns with
  | nil =>
    rw [List.map_eq_nil_iff.1 hns, List.filterMap_nil, ReadsAll]
    trivial
  | cons e es ih =>
    obtain ⟨n, ns', rfl, hn, hns'⟩ := List.map_eq_cons_iff.1 hns
    obtain ⟨x, hx, hreads⟩ := h e List.mem_cons_self n hn
    rw [List.filterMap_cons_some hx, ReadsAll]
    exact ⟨hreads, ih (fun e' he' => h e' (List.mem_cons_of_mem e he')) hns'⟩

theorem nodesOf_piecesOfMore (es : List Term) :
    Draft.nodesOf (piecesOfMore es ++ [.word TokenKind.rParen.lexeme.word]) = es.map draft := by
  induction es with
  | nil => rfl
  | cons e es ih => exact congrArg (e.draft :: ·) ih

theorem nodesOf_piecesOfAll (es : List Term) :
    Draft.nodesOf (piecesOfAll es ++ [.word TokenKind.rParen.lexeme.word]) = es.map draft := by
  cases es with
  | nil => rfl
  | cons e es => exact congrArg (e.draft :: ·) (nodesOf_piecesOfMore es)

theorem readBy_call {n : DottedName} {es : List Term}
    (h : ∀ e ∈ es, ReadBy (Reads e) e.draft) :
    ReadBy (Reads (.call n es)) (draft (.call n es)) := by
  intro m hm
  have hparts : m.HasParts .functionCall [.node n.draft,
      .node (.node .argList (.word TokenKind.lParen.lexeme.word ::
        (piecesOfAll es ++ [.word TokenKind.rParen.lexeme.word])))] := Node.hasParts_of_shape hm
  obtain ⟨callee, ns, hnodes, hcallee, hns⟩ := List.map_eq_cons_iff.1 hparts.childNodes_eq
  obtain ⟨list, ns', rfl, hlist, -⟩ := List.map_eq_cons_iff.1 hns
  obtain ⟨hidentifier, hname⟩ := name_of_shape hcallee
  have hlistParts := Node.hasParts_of_shape hlist
  have hcalleeName : (m.child? .identifier).map View.name = some n.text := by
    rw [Node.child?, hnodes, List.findSome?_cons, View.ofNode?, dif_pos hidentifier, Option.map_some,
      hname]
  have hlistChild : m.child? .argList = some ⟨list, hlistParts.kind_eq⟩ := by
    have hne : callee.kind ≠ .argList := by
      rw [hidentifier]
      decide
    rw [Node.child?, hnodes, List.findSome?_cons, View.ofNode?, dif_neg hne, List.findSome?_cons,
      View.ofNode?, dif_pos hlistParts.kind_eq]
  have harguments : ReadsAll es (View.arguments ⟨m, hparts.kind_eq⟩) := by
    rw [View.arguments, hlistChild]
    refine readsAll_of_shapes h ?_
    rw [hlistParts.childNodes_eq, Draft.nodesOf, nodesOf_piecesOfAll, List.map_map]
    rfl
  exact ⟨_, Expr.ofNode?_node (.call ⟨m, hparts.kind_eq⟩), hcalleeName, harguments⟩

mutual

/-- A node of the shape of the draft of a term has an expression with the parts of the term. -/
theorem readBy_term : ∀ e : Term, ReadBy (Reads e) e.draft
  | .binary _ a b => readBy_binary (readBy_term a) (readBy_term b)
  | .unary _ a => readBy_unary (readBy_term a)
  | .paren a => readBy_paren (readBy_term a)
  | .name n => readBy_name n
  | .call _ es => readBy_call (readBy_terms es)
  | .number a => readBy_number a
  | .string a => readBy_string a
  | .boolean b => readBy_boolean b

theorem readBy_terms : ∀ es : List Term, ∀ e ∈ es, ReadBy (Reads e) e.draft
  | [], _, he => by cases he
  | e :: es, e', he' => by
    rcases List.mem_cons.1 he' with heq | he'
    · rw [heq]
      exact readBy_term e
    · exact readBy_terms es e' he'

end

end Term

end CRBasic
