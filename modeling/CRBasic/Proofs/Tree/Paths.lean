import CRBasic.Proofs.Tree.Nodes

/-!
# Paths and heights

A path leads from the root of a tree down to a node or a leaf.  If every step of a path has a cost, the
height of a tree is a bound for the cost of its paths (`Path.totalCost_le_height`), and blanks, line breaks
and comments do not matter for it (`height_withoutTrivia`).
-/

namespace CRBasic

namespace Tree

/-- A node on a path, and how the path goes on from it. -/
structure Step where
  kind : NodeKind
  /-- Whether the path goes on to a part before which there is no node. -/
  first : Bool
  deriving DecidableEq, Repr

/-- The nodes on a path from the root down.  The path may end anywhere. -/
inductive Path : Tree → List Step → Prop where
  | leaf (kind : TokenKind) (text : List Char) : Path (.leaf kind text) []
  | stop (kind : NodeKind) (children : List Tree) : Path (.node kind children) [⟨kind, false⟩]
  | child (kind : NodeKind) (before : List Tree) {t : Tree} (after : List Tree) {steps : List Step}
      (h : Path t steps) : Path (.node kind (before ++ t :: after))
        (⟨kind, (before.filterMap node?).isEmpty⟩ :: steps)

section Heights

variable (cost : Step → Nat)

/-- The cost of all steps of a path. -/
def totalCost : List Step → Nat
  | [] => 0
  | s :: steps => cost s + totalCost steps

mutual

/-- A bound for the cost of all paths in a tree. -/
def height : Tree → Nat
  | leaf _ _ => 0
  | node kind children => max (cost ⟨kind, false⟩) (heightOfAll kind true children)

/-- A bound for the cost of all paths from a node of the given kind to its parts that are nodes, and on
from there. -/
def heightOfAll (kind : NodeKind) (first : Bool) : List Tree → Nat
  | [] => 0
  | leaf _ _ :: ts => heightOfAll kind first ts
  | node k children :: ts =>
    max (cost ⟨kind, first⟩ + height (node k children)) (heightOfAll kind false ts)

end

variable {cost} {kind : NodeKind}

theorem heightOfAll_append_node (first : Bool) (before after children : List Tree)
    (k : NodeKind) :
    cost ⟨kind, first && (before.filterMap node?).isEmpty⟩ + height cost (node k children) ≤
      heightOfAll cost kind first (before ++ node k children :: after) := by
  induction before generalizing first with
  | nil =>
    rw [List.filterMap_nil, List.isEmpty_nil, Bool.and_true, List.nil_append, heightOfAll]
    exact Nat.le_max_left _ _
  | cons t before ih =>
    cases t with
    | leaf k' text => exact ih first
    | node k' children' =>
      have hfirst : (first && (((node k' children' :: before).filterMap node?).isEmpty)) = false :=
        Bool.and_false _
      rw [hfirst, List.cons_append, heightOfAll]
      exact Nat.le_trans (ih false) (Nat.le_max_right _ _)

/-- No path costs more than the height, if a first step costs no more than another one. -/
theorem Path.totalCost_le_height (hcost : ∀ kind, cost ⟨kind, true⟩ ≤ cost ⟨kind, false⟩) {t : Tree}
    {steps : List Step} (h : t.Path steps) : totalCost cost steps ≤ t.height cost := by
  induction h with
  | leaf kind text => exact Nat.le_refl 0
  | stop kind children =>
    rw [height]
    exact Nat.le_max_left _ _
  | @child kind before t after steps ht ih =>
    rw [totalCost, height]
    cases t with
    | leaf k text =>
      rw [Nat.le_zero.1 ih, Nat.add_zero]
      refine Nat.le_trans ?_ (Nat.le_max_left _ _)
      cases (before.filterMap node?).isEmpty
      · exact Nat.le_refl _
      · exact hcost kind
    | node k children =>
      have hpart : cost ⟨kind, (before.filterMap node?).isEmpty⟩ + (node k children).height cost ≤
          heightOfAll cost kind true (before ++ node k children :: after) :=
        heightOfAll_append_node true before after children k
      refine Nat.le_trans ?_ (Nat.le_max_right _ _)
      exact Nat.le_trans (Nat.add_le_add_left ih _) hpart

/-- Where every step costs one or nothing, the cost is a number of steps. -/
theorem totalCost_eq_countP {p : Step → Bool} (h : ∀ s, cost s = if p s then 1 else 0)
    (steps : List Step) : totalCost cost steps = steps.countP p := by
  induction steps with
  | nil => rfl
  | cons s steps ih => rw [totalCost, List.countP_cons, ih, h, Nat.add_comm]

/-- Trees that are no higher than `n`, one step down. -/
theorem heightOfAll_le (first : Bool) {ts : List Tree} {n : Nat}
    (hcost : cost ⟨kind, true⟩ ≤ cost ⟨kind, false⟩) (h : ∀ t ∈ ts, t.height cost ≤ n) :
    heightOfAll cost kind first ts ≤ cost ⟨kind, false⟩ + n := by
  induction ts generalizing first with
  | nil => exact Nat.zero_le _
  | cons t ts ih =>
    have hts := fun first => ih first fun u hu => h u (List.mem_cons_of_mem t hu)
    cases t with
    | leaf k text => exact hts first
    | node k children =>
      have ht := h _ List.mem_cons_self
      rw [heightOfAll]
      refine Nat.max_le.2 ⟨Nat.add_le_add ?_ ht, hts false⟩
      cases first
      · exact Nat.le_refl _
      · exact hcost

mutual

theorem height_withoutTrivia : ∀ t : Tree, t.withoutTrivia.height cost = t.height cost
  | leaf kind text => rfl
  | node kind children => by
    rw [withoutTrivia, height, height, heightOfAll_withoutTriviaOfAll children kind true]

theorem heightOfAll_withoutTriviaOfAll : ∀ (ts : List Tree) (kind : NodeKind) (first : Bool),
    heightOfAll cost kind first (withoutTriviaOfAll ts) = heightOfAll cost kind first ts
  | [], kind, first => rfl
  | leaf k text :: ts, kind, first => by
    rw [withoutTriviaOfAll, heightOfAll, ← heightOfAll_withoutTriviaOfAll ts kind first]
    split <;> rfl
  | node k children :: ts, kind, first => by
    rw [withoutTriviaOfAll, heightOfAll, ← heightOfAll_withoutTriviaOfAll ts kind false,
      ← height_withoutTrivia (node k children)]
    rfl

end

end Heights

/-- A path without blanks, line breaks and comments is one in the whole tree. -/
theorem Path.exists_path {u : Tree} {steps : List Step} (h : u.Path steps) {t : Tree}
    (ht : t.withoutTrivia = u) :
    ∃ steps', t.Path steps' ∧ steps'.map (·.kind) = steps.map (·.kind) := by
  induction h generalizing t with
  | leaf kind text =>
    cases t with
    | leaf k text' => exact ⟨[], .leaf k text', rfl⟩
    | node k children => cases ht
  | stop kind children =>
    cases t with
    | leaf k text => cases ht
    | node k children' =>
      cases ht
      exact ⟨[⟨kind, false⟩], .stop kind children', rfl⟩
  | @child kind before u after steps hu ih =>
    cases t with
    | leaf k text => cases ht
    | node k children =>
      obtain ⟨hkind, hchildren⟩ := node.inj ht
      have hmem : u ∈ withoutTriviaOfAll children := by
        rw [hchildren]
        exact List.mem_append_right _ List.mem_cons_self
      obtain ⟨t, ht, hu⟩ := exists_withoutTrivia_eq hmem
      obtain ⟨before', after', rfl⟩ := List.append_of_mem ht
      obtain ⟨steps', hsteps, hkinds⟩ := ih hu
      refine ⟨_, .child k before' after' hsteps, ?_⟩
      rw [List.map_cons, List.map_cons, hkinds, hkind]

end Tree

end CRBasic
