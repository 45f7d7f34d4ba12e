import CRBasic.Proofs.Expression.Reading
import CRBasic.Proofs.Roles.Statements
import CRBasic.Proofs.Tree.Elements

/-!
# Operands in their places

An operation holds one word, its operator, with at most one node on either side (`exists_operation`).  Its
operands are told by their number among the expressions, so where nothing that is an expression stands
before the operator, the right operand is taken for the left one (`operands_by_place`).
-/

namespace CRBasic

open Parsing

namespace Grammar

open Script Draft

variable {words : List Word} {fuel n power : Nat} {problems : List Report} {s t : Sketch} {b : Bool}
  {k : TokenKind} {v : Unit} {ps : List (Piece Draft)}

/-- An expression that is too deep is skipped, and any other one is read one level deeper. -/
theorem run_expression_cases
    (hrun : (expressionFrom power).run (runRule script fuel) fuel s = some (v, t)) :
    ∃ n, (s.tooDeep = true ∧ skipDeepExpression.run (runRule script n) n s = some ((), t)) ∨
      (s.tooDeep = false ∧ ∃ u,
        (expressionBody power).run (runRule script n) n s.deeper = some ((), u) ∧ t.parts = u.parts) := by
  cases fuel with
  | zero => cases run_call_iff.1 hrun
  | succ n =>
    have hrun := run_of_runRule (run_call_iff.1 hrun)
    change (expressionRule power).run _ _ s = _ at hrun
    rw [expressionRule_eq, tooDeep, run_ask_bind, answer_tooDeep] at hrun
    refine ⟨n, ?_⟩
    cases hdeep : s.tooDeep with
    | true =>
      rw [hdeep] at hrun
      exact .inl ⟨rfl, hrun⟩
    | false =>
      rw [hdeep] at hrun
      obtain ⟨u, hu, rfl⟩ := run_within_iff.1 hrun
      exact .inr ⟨rfl, u, hu, rfl⟩

/-- An expression puts at most one part, which is a node. -/
theorem parts_expression (hrun : (expressionFrom power).run (runRule script fuel) fuel s = some (v, t)) :
    ∃ d? : Option Draft, t.parts = d?.toList.map .node ++ s.parts := by
  obtain ⟨n, ⟨-, hskip⟩ | ⟨-, u, hu, hsame⟩⟩ := run_expression_cases hrun
  · -- Where the nesting is too deep, one node takes the rest of the line.
    obtain ⟨_, u, hu, hnode⟩ := run_bind_iff.1 hskip
    obtain rfl := run_act_iff.1 hu
    obtain ⟨parts, hparts⟩ := Sketch.parts_node hnode
    exact ⟨some (.node .errorNode parts), hparts⟩
  · have hbody : (∃ d, Laid .sourceFile true s.deeper u [.node d]) ∨
        Laid .sourceFile true s.deeper u [] :=
      (laid_expressionBody (expressions n) hu).imp (Exists.imp fun _ hd => hd.1) And.left
    rcases hbody with ⟨d, hd⟩ | h
    · exact ⟨some d, hsame.trans hd.parts⟩
    · exact ⟨none, hsame.trans h.parts⟩

/-- An operator and what is put behind it. -/
theorem exists_operation (h : Fills words problems n .inner (.seeing false b k)
    (do take; expressionFrom power) ps) :
    ∃ op : Word, ∃ second : Option Draft, op.kind = k ∧
      ps = .word op :: second.toList.map .node := by
  obtain ⟨hs, -, -, hrun, -⟩ := h
  rename_i s u
  obtain ⟨_, t, ht, hu⟩ := run_bind_iff.1 hrun
  obtain ⟨op, ws, hrest, hop⟩ := rest_of_onLine (s := s) hs.sees
  obtain ⟨second, hsecond⟩ := parts_expression hu
  have htake : t.parts = [.word op] := by
    rw [run_act_iff.1 ht]
    exact congrArg Sketch.parts (Sketch.take_eq (s := s.fresh) hrest)
  refine ⟨op, second, hop, ?_⟩
  rw [hsecond, htake]
  cases second <;> rfl

/-- An operation has one word, an infix operator, and at most one node on either side of it. -/
theorem Arises.exists_operator {d : Draft} (h : Arises words problems n d)
    (hkind : d.kind = .binaryExpr) : ∃ (first second : Option Draft) (op : Word),
      op.kind.infixPower?.isSome ∧
        d.pieces = first.toList.map .node ++ .word op :: second.toList.map .node := by
  cases h with
  | loop => cases hkind
  | conditional => cases hkind
  | scan hscan => rcases hscan with rfl | rfl <;> cases hkind
  | @operation _ _ _ _ _ first _ hk h _ hpieces =>
    obtain ⟨op, second, rfl, rfl⟩ := exists_operation h
    exact ⟨first, second, op, by rw [hk]; rfl, hpieces⟩
  | number => cases hkind
  | other h =>
    rw [hkind] at h
    rcases h with h | h <;> cases h

end Grammar

/-! ### Elements on either side of the operator -/

theorem Expr.node_of_ofNode? {n : Node} {e : Expr} (h : Expr.ofNode? n = some e) : e.node = n := by
  unfold Expr.ofNode? at h
  split at h <;> cases h <;> rfl

namespace Element

/-- The expressions among some elements. -/
def expressions (es : List Element) : List Expr := (es.filterMap (·.node?)).filterMap Expr.ofNode?

variable {es us vs : List Element}

theorem expressions_append : expressions (us ++ vs) = expressions us ++ expressions vs := by
  simp [expressions]

theorem mem_of_mem_expressions {e : Expr} (he : e ∈ expressions es) : node e.node ∈ es := by
  obtain ⟨n, hn, hexpr⟩ := List.mem_filterMap.1 he
  obtain ⟨x, hx, hnode⟩ := List.mem_filterMap.1 hn
  cases x with
  | leaf x => cases hnode
  | node n' =>
    obtain rfl : n' = n := Option.some.inj hnode
    rw [Expr.node_of_ofNode? hexpr]
    exact hx

/-- What shows at most one node, and no word, has at most one expression and no word. -/
theorem ShowAll.of_node {first : Option Draft} (h : ShowAll es (first.toList.map .node)) :
    (expressions es).length ≤ 1 ∧ ∀ e ∈ es, e.word? = none := by
  refine ⟨?_, fun e he => ?_⟩
  · have hle : (expressions es).length ≤ (es.filterMap (·.node?)).length := List.length_filterMap_le _ _
    rw [h.length_nodes] at hle
    cases first <;> exact Nat.le_trans hle (by simp [Draft.nodesOf])
  · rcases h.of_mem he with ⟨x, rfl, hx⟩ | ⟨x, w, rfl, hw, -⟩ | ⟨n, d, rfl, -⟩
    · rw [word?_leaf, if_pos hx]
    · cases first <;> simp at hw
    · rfl

end Element

namespace View

/-- The first expression before the operator of a binary expression. -/
def writtenLeft? (v : View .binaryExpr) : Option Expr :=
  (Element.expressions (v.node.elements.takeWhile (·.word?.isNone))).head?

/-- The first expression behind the operator of a binary expression. -/
def writtenRight? (v : View .binaryExpr) : Option Expr :=
  (Element.expressions (v.node.elements.dropWhile (·.word?.isNone))).head?

end View

/-- The elements of an operation: one word, the operator, and at most one expression on either side of it. -/
structure OperationElements where
  before : List Element
  operator : Leaf
  behind : List Element
  operator_isTrivia : operator.kind.isTrivia = false
  operator_power : operator.kind.infixPower?.isSome
  before_word? : ∀ e ∈ before, e.word? = none
  behind_word? : ∀ e ∈ behind, e.word? = none
  before_length : (Element.expressions before).length ≤ 1
  behind_length : (Element.expressions behind).length ≤ 1

namespace OperationElements

variable (o : OperationElements)

/-- All elements, in their order. -/
def all : List Element := o.before ++ .leaf o.operator :: o.behind

theorem operator_word? : (Element.leaf o.operator).word? = some o.operator := by
  rw [Element.word?_leaf, o.operator_isTrivia]
  rfl

theorem words_eq {v : View .binaryExpr} (hv : v.node.elements = o.all) : v.node.words = [o.operator] := by
  rw [Node.words, hv, all, List.filterMap_append, List.filterMap_eq_nil_iff.2 o.before_word?,
    List.filterMap_cons_some o.operator_word?, List.filterMap_eq_nil_iff.2 o.behind_word?]
  rfl

theorem expressions_eq {v : View .binaryExpr} (hv : v.node.elements = o.all) :
    v.node.expressions = Element.expressions o.before ++ Element.expressions o.behind := by
  change Element.expressions v.node.elements = _
  rw [hv, all, Element.expressions_append]
  rfl

theorem writtenLeft?_eq {v : View .binaryExpr} (hv : v.node.elements = o.all) :
    v.writtenLeft? = (Element.expressions o.before).head? := by
  have hbefore : ∀ e ∈ o.before, e.word?.isNone = true := fun e he => by rw [o.before_word? e he]; rfl
  rw [View.writtenLeft?, hv, all, List.takeWhile_append_of_pos hbefore,
    List.takeWhile_cons_of_neg (by simp [o.operator_word?]), List.append_nil]

theorem writtenRight?_eq {v : View .binaryExpr} (hv : v.node.elements = o.all) :
    v.writtenRight? = (Element.expressions o.behind).head? := by
  have hbefore : ∀ e ∈ o.before, e.word?.isNone = true := fun e he => by rw [o.before_word? e he]; rfl
  rw [View.writtenRight?, hv, all, List.dropWhile_append_of_pos hbefore,
    List.dropWhile_cons_of_neg (by simp [o.operator_word?])]
  rfl

/-- Where no expression is before the operator, the one behind it is the first of all. -/
theorem left?_eq {v : View .binaryExpr} (hv : v.node.elements = o.all) :
    v.left? = v.writtenLeft?.or v.writtenRight? := by
  rw [View.left?, o.expressions_eq hv, o.writtenLeft?_eq hv, o.writtenRight?_eq hv]
  cases Element.expressions o.before with
  | nil => simp [List.head?_eq_getElem?]
  | cons e es => rfl

/-- Where no expression is before the operator, there is no second one. -/
theorem right?_eq {v : View .binaryExpr} (hv : v.node.elements = o.all) :
    v.right? = v.writtenLeft?.bind fun _ => v.writtenRight? := by
  have hleft := o.before_length
  rw [View.right?, o.expressions_eq hv, o.writtenLeft?_eq hv, o.writtenRight?_eq hv]
  cases hexprs : Element.expressions o.before with
  | nil => exact List.getElem?_eq_none o.behind_length
  | cons e es =>
    obtain rfl : es = [] := by simpa [hexprs] using hleft
    simp [List.head?_eq_getElem?]

end OperationElements

/-- Every node of an operation has the elements of one. -/
theorem View.exists_operationElements (options : ParseOptions) (source : List Char)
    (v : View .binaryExpr) (hv : v.node ∈ (parseWith options source).tree.nodes 0) :
    ∃ o : OperationElements, v.node.elements = o.all := by
  obtain ⟨d, front, hstands, harises⟩ := exists_arises options source hv
  have hkind : d.kind = .binaryExpr := hstands.kind_eq.symm.trans v.kind_eq
  obtain ⟨first, second, op, hop, hpieces⟩ := harises.exists_operator hkind
  have hshow : Element.ShowAll v.node.elements d.pieces := hstands.showAll
  rw [hpieces] at hshow
  obtain ⟨us, x, vs, hes, hx, hlexeme, hus, hvs⟩ := hshow.exists_word
  obtain ⟨hleft, hnoLeft⟩ := hus.of_node
  obtain ⟨hright, hnoRight⟩ := hvs.of_node
  have hxkind : x.kind = op.kind := congrArg Lexeme.kind hlexeme
  exact ⟨{ before := us, operator := x, behind := vs, operator_isTrivia := hx,
           operator_power := hxkind ▸ hop, before_word? := hnoLeft, behind_word? := hnoRight,
           before_length := hleft, behind_length := hright }, hes⟩

/-- The operator of every operation is its only word, and one that stands between operands.  An expression
written before it ends before it, and one written behind it starts behind it.  But the operands are counted:
where no expression is written before the operator, the one behind it is taken for the left operand, and
there is no right one. -/
theorem operands_by_place (options : ParseOptions) (source : List Char) (v : View .binaryExpr)
    (hv : v.node ∈ (parseWith options source).tree.nodes 0) :
    ∃ op : Leaf, v.node.words = [op] ∧ v.infixOperator? = some op ∧ op.kind.infixPower?.isSome ∧
      (∀ e ∈ v.writtenLeft?, e.node.range.stop ≤ op.range.start) ∧
      (∀ e ∈ v.writtenRight?, op.range.stop ≤ e.node.range.start) ∧
      v.left? = v.writtenLeft?.or v.writtenRight? ∧
      v.right? = v.writtenLeft?.bind fun _ => v.writtenRight? := by
  obtain ⟨o, ho⟩ := v.exists_operationElements options source hv
  have hplaces : v.node.elements.Pairwise Element.Precedes := Element.pairwise_ofTrees _ _
  rw [ho, OperationElements.all, List.pairwise_append, List.pairwise_cons] at hplaces
  obtain ⟨-, ⟨hafter, -⟩, hacross⟩ := hplaces
  refine ⟨o.operator, o.words_eq ho, ?_, o.operator_power, ?_, ?_, o.left?_eq ho, o.right?_eq ho⟩
  · rw [View.infixOperator?, Node.firstWord?, o.words_eq ho]
    rfl
  · intro e he
    rw [o.writtenLeft?_eq ho] at he
    exact hacross _ (Element.mem_of_mem_expressions (List.mem_of_head? he)) _ List.mem_cons_self
  · intro e he
    rw [o.writtenRight?_eq ho] at he
    exact hafter _ (Element.mem_of_mem_expressions (List.mem_of_head? he))

/-- In `x = @ + 1`, where what stands before the operator is no expression, the right operand is taken for
the left one. -/
theorem right_operand_as_left :
    ∃ v : View .binaryExpr, v.node ∈ (parseWith {} "x = @ + 1".toList).tree.nodes 0 ∧
      ∃ op : Leaf, v.infixOperator? = some op ∧ v.left? = v.writtenRight? ∧
        v.left?.map (·.node.start) = some 8 ∧ op.start = 6 ∧ v.right? = none := by
  have hnodes : (((parseWith {} "x = @ + 1".toList).tree.nodes 0).filterMap
      (View.ofNode? .binaryExpr)).map (fun v => (v.infixOperator?.map (·.start),
        v.writtenLeft?.isNone, v.left?.map (·.node.start))) = [(some 6, true, some 8)] := by
    decide +kernel
  obtain ⟨v, vs, hviews, hparts, -⟩ := List.map_eq_cons_iff.1 hnodes
  obtain ⟨hop, hnone, hleft⟩ : v.infixOperator?.map (·.start) = some 6 ∧ v.writtenLeft?.isNone = true ∧
      v.left?.map (·.node.start) = some 8 := by simpa using hparts
  have hmem : v.node ∈ (parseWith {} "x = @ + 1".toList).tree.nodes 0 :=
    View.node_mem (by rw [hviews]; exact List.mem_cons_self)
  obtain ⟨op, -, hoperator, -, -, -, hleft?, hright?⟩ := operands_by_place {} _ v hmem
  rw [Option.isNone_iff_eq_none] at hnone
  rw [hnone] at hleft? hright?
  rw [hoperator] at hop
  exact ⟨v, hmem, op, hoperator, hleft?, hleft, by simpa using hop, hright?⟩

end CRBasic
