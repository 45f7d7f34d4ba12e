import CRBasic.Proofs.Expression.Ranked
import CRBasic.Proofs.Tree.Nodes
import CRBasic.View.Expression

/-!
# Precedence of operators

In the tree of a text without a problem, the left operand of an infix operator binds at least as
tightly as the operator and the right operand more tightly, and no operand of a sign is a binary
expression (`operands_bind`).
-/

namespace CRBasic

/-! ### Operands of ranked drafts -/

namespace Draft

theorem Ranked.of_inside {d e : Draft} (h : e.Inside d) (hd : d.Ranked) : e.Ranked := by
  induction h with
  | refl => exact hd
  | node he _ ih =>
    cases hd with
    | node _ hparts => exact ih (hparts _ he)
    | unary hoperand _ =>
      obtain rfl : _ = _ := by simpa using he
      exact ih hoperand
  | first _ ih =>
    cases hd with
    | around _ hfirst _ => exact ih hfirst
    | binary _ hfirst _ _ _ => exact ih hfirst
  | around he _ ih =>
    cases hd with
    | around _ _ hparts => exact ih (hparts _ he)
    | binary _ _ hoperand _ _ =>
      obtain rfl : _ = _ := by simpa using he
      exact ih hoperand

end Draft

/-! ### Operands of views -/

/-- How tightly the operator of a binary expression binds to its left operand. -/
def View.leftPower? (v : View .binaryExpr) : Option Nat :=
  v.infixOperator?.bind fun x => x.kind.infixPower?.map (·.1)

/-- A node that, if it is a binary expression, has an operator of at least the given left power. -/
def Node.BindsFrom (power : Nat) (n : Node) : Prop :=
  ∀ v : View .binaryExpr, v.node = n → ∃ p, v.leftPower? = some p ∧ power ≤ p

/-- The words and nodes of a node that was put around another one. -/
theorem Node.hasParts_of_around {n : Node} {kind : NodeKind} {first : Draft}
    {parts : List (Piece Draft)} (h : n.shape = (Draft.around kind first parts).tree) :
    n.HasParts kind (.node first :: parts) :=
  hasParts_of_shape h

theorem View.leftPower?_of_shape {v : View .binaryExpr} {d : Draft} {p : Nat}
    (h : v.node.shape = d.tree) (hp : d.power? = some p) : v.leftPower? = some p := by
  unfold Draft.power? at hp
  split at hp
  · next first op parts =>
    obtain ⟨x, hx, hlexeme⟩ := (Node.hasParts_of_around h).firstWord?_eq rfl
    have hkind : x.kind = op.kind := congrArg Lexeme.kind hlexeme
    rw [View.leftPower?, View.infixOperator?, hx, Option.bind_some, hkind, hp]
  · cases hp

theorem Node.bindsFrom_of_shape {n : Node} {d : Draft} {power : Nat} (h : n.shape = d.tree)
    (hd : d.BindsFrom power) : n.BindsFrom power := by
  rintro v rfl
  obtain ⟨p, hp, hle⟩ := hd (by rw [← kind_eq_of_shape h, v.kind_eq])
  exact ⟨p, View.leftPower?_of_shape h hp, hle⟩

/-- The operands of a binary expression that has the shape of a ranked draft. -/
theorem View.operands_of_ranked {v : View .binaryExpr} {d : Draft} (h : v.node.shape = d.tree)
    (hd : d.Ranked) : ∃ p left right, v.leftPower? = some p ∧ v.node.childNodes = [left, right] ∧
      left.BindsFrom p ∧ right.BindsFrom (p + 1) := by
  have hkind : d.kind = .binaryExpr := by rw [← Node.kind_eq_of_shape h, v.kind_eq]
  cases hd with
  | node hplain _ =>
    obtain rfl : _ = NodeKind.binaryExpr := hkind
    cases hplain
  | around hplain _ _ =>
    obtain rfl : _ = NodeKind.binaryExpr := hkind
    cases hplain
  | unary _ _ => cases hkind
  | @binary first e op l r hop _ _ hleft hright =>
    have hpower : (Draft.around .binaryExpr first [.word op, .node e]).power? = some l := by
      simp [Draft.power?, hop]
    have hchildren := (Node.hasParts_of_around h).childNodes_eq
    obtain ⟨left, ns, hns, hfirst, hrest⟩ := List.map_eq_cons_iff.1 hchildren
    obtain ⟨right, ns', rfl, hsecond, hnil⟩ := List.map_eq_cons_iff.1 hrest
    obtain rfl := List.map_eq_nil_iff.1 hnil
    have hr : r = l + 1 := TokenKind.infixPower?_right hop
    exact ⟨l, left, right, View.leftPower?_of_shape h hpower, hns,
      Node.bindsFrom_of_shape hfirst hleft, Node.bindsFrom_of_shape hsecond (hr ▸ hright)⟩

/-- The operand of a unary expression that has the shape of a ranked draft. -/
theorem View.operand_of_ranked {v : View .unaryExpr} {d : Draft} (h : v.node.shape = d.tree)
    (hd : d.Ranked) : ∃ n, v.node.childNodes = [n] ∧ n.kind ≠ .binaryExpr := by
  have hkind : d.kind = .unaryExpr := by rw [← Node.kind_eq_of_shape h, v.kind_eq]
  cases hd with
  | node hplain _ =>
    obtain rfl : _ = NodeKind.unaryExpr := hkind
    cases hplain
  | around hplain _ _ =>
    obtain rfl : _ = NodeKind.unaryExpr := hkind
    cases hplain
  | binary _ _ _ _ _ => cases hkind
  | unary _ hoperand =>
    obtain ⟨n, ns, hns, hn, hnil⟩ :=
      List.map_eq_cons_iff.1 (Node.hasParts_of_shape h).childNodes_eq
    obtain rfl := List.map_eq_nil_iff.1 hnil
    exact ⟨n, hns, by rwa [Node.kind_eq_of_shape hn]⟩

/-! ### Texts without a problem -/

/-- Every node of a text without a problem has the shape of a ranked draft. -/
theorem exists_ranked {options : ParseOptions} {source : List Char} {n : Node}
    (h : (parseWith options source).diagnostics = [])
    (hn : n ∈ (parseWith options source).tree.nodes 0) :
    ∃ d : Draft, d.Ranked ∧ n.shape = d.tree := by
  obtain ⟨⟨parts, hparts⟩, -⟩ := diagnostics_eq_nil_iff.1 h
  obtain ⟨ts, htree, -, hts⟩ := hparts.tree_eq
  have hshown : (parseWith options source).tree.withoutTrivia =
      (Draft.node .sourceFile parts).tree := by
    rw [htree, Tree.withoutTrivia, hts, Draft.tree]
  obtain ⟨d, hd, hshape⟩ := Tree.exists_inside _ hshown hn
  exact ⟨d, (Parsing.ranked_of_readsAs hparts).of_inside hd, hshape⟩

/-- In a text without a problem, a binary expression has two operands: the left one, if it is a binary
expression itself, has an operator that binds at least as tightly, and the right one an operator that
binds more tightly.  No operand of a sign is a binary expression. -/
theorem operands_bind (options : ParseOptions) (source : List Char)
    (h : (parseWith options source).diagnostics = []) :
    (∀ v : View .binaryExpr, v.node ∈ (parseWith options source).tree.nodes 0 →
      ∃ p left right, v.leftPower? = some p ∧ v.node.childNodes = [left, right] ∧
        left.BindsFrom p ∧ right.BindsFrom (p + 1)) ∧
    (∀ v : View .unaryExpr, v.node ∈ (parseWith options source).tree.nodes 0 →
      ∃ operand, v.node.childNodes = [operand] ∧ operand.kind ≠ .binaryExpr) := by
  constructor
  · intro v hv
    obtain ⟨d, hd, hshape⟩ := exists_ranked h hv
    exact View.operands_of_ranked hshape hd
  · intro v hv
    obtain ⟨d, hd, hshape⟩ := exists_ranked h hv
    exact View.operand_of_ranked hshape hd

/-- A difference of a sum whose last operand is a product with a sign: three binary expressions. -/
theorem operands_bind_difference :
    let p := parseWith {} "x = 1 + 2 - 3 * -y\n".toList
    p.diagnostics = [] ∧ (p.tree.nodes 0).countP (·.kind == .binaryExpr) = 3 ∧
      (∀ v : View .binaryExpr, v.node ∈ p.tree.nodes 0 →
        ∃ q left right, v.leftPower? = some q ∧ v.node.childNodes = [left, right] ∧
          left.BindsFrom q ∧ right.BindsFrom (q + 1)) ∧
      (∀ v : View .unaryExpr, v.node ∈ p.tree.nodes 0 →
        ∃ operand, v.node.childNodes = [operand] ∧ operand.kind ≠ .binaryExpr) := by
  intro p
  have h : p.diagnostics = [] ∧ (p.tree.nodes 0).countP (·.kind == .binaryExpr) = 3 := by
    decide +kernel
  exact ⟨h.1, h.2, operands_bind {} _ h.1⟩

end CRBasic
