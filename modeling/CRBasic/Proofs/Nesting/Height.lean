import CRBasic.Proofs.Nesting.Runs
import CRBasic.Proofs.Tree.Paths

/-!
# Heights of trees

Sketches keep every sound budget (`WithinBudget.keeps`), so the tree of a text is no higher than the
root and a statement with all levels left (`height_parseWith`).
-/

namespace CRBasic

namespace Parsing

namespace Budget

variable (b : Budget)

/-- The cost of a step on a path. -/
def stepCost (s : Tree.Step) : Nat := if s.first then b.leftCost s.kind else b.cost s.kind

theorem leftCost_le (kind : NodeKind) : b.leftCost kind ≤ b.cost kind := by
  unfold leftCost
  split
  · exact Nat.zero_le _
  · exact Nat.le_refl _

/-- The height of a draft's tree. -/
def height (d : Draft) : Nat := d.tree.height b.stepCost

variable {b} {kind : NodeKind} {parts : List (Piece Draft)} {i m n : Nat}

theorem heightOfAll_treesOfAll_le (first : Bool) (h : ∀ d, .node d ∈ parts → b.height d ≤ i) :
    Tree.heightOfAll b.stepCost kind first (Draft.treesOfAll parts) ≤ b.cost kind + i := by
  apply Tree.heightOfAll_le first (b.leftCost_le kind)
  intro t ht
  induction parts with
  | nil => exact absurd ht List.not_mem_nil
  | cons p ps ih =>
    have hps := ih fun d hd => h d (List.mem_cons_of_mem p hd)
    cases p with
    | word w =>
      rcases List.mem_cons.1 ht with rfl | ht
      · exact Nat.zero_le i
      · exact hps ht
    | node d =>
      rcases List.mem_cons.1 ht with rfl | ht
      · exact h d List.mem_cons_self
      · exact hps ht

theorem height_node_le (h : ∀ d, .node d ∈ parts → b.height d ≤ i) :
    b.height (.node kind parts) ≤ b.cost kind + i := by
  rw [height, Draft.tree, Tree.height]
  exact Nat.max_le.2 ⟨Nat.le_add_right _ _, heightOfAll_treesOfAll_le true h⟩

/-- A node around another one is as high as the step down to that one allows, if this is the higher one
of its sides. -/
theorem height_around_le {first : Draft} (hfirst : b.height first ≤ m)
    (hleft : b.leftCost kind + m ≤ n) (h : ∀ d, .node d ∈ parts → b.height d ≤ i)
    (hi : b.cost kind + i ≤ n) : b.height (.around kind first parts) ≤ n := by
  obtain ⟨k, hk⟩ := first.tree_eq
  have hrest : Tree.heightOfAll b.stepCost kind false (Draft.treesOfAll parts) ≤ b.cost kind + i :=
    heightOfAll_treesOfAll_le false h
  rw [height, hk] at hfirst
  rw [height, Draft.tree, Tree.height, hk, Tree.heightOfAll]
  refine Nat.max_le.2 ⟨?_, Nat.max_le.2 ⟨?_, Nat.le_trans hrest hi⟩⟩
  · exact Nat.le_trans (Nat.le_add_right _ _) hi
  · exact Nat.le_trans (Nat.add_le_add_left hfirst _) hleft

end Budget

/-- Where `k` levels are left, the parts of the open node are no higher than `n`, and the last part is
no higher than `m`. -/
structure WithinBudget (b : Budget) (limit k n m : Nat) (s : Sketch) : Prop where
  levels : s.HasLeft limit k
  parts : ∀ d, .node d ∈ s.parts → b.height d ≤ n
  last : ∀ d ps, s.parts = .node d :: ps → b.height d ≤ m

namespace WithinBudget

variable {b : Budget} {limit k n m i height : Nat} {s u : Sketch} {kind : NodeKind}

/-- The last part is one of all. -/
theorem weaken (h : WithinBudget b limit k n m s) : WithinBudget b limit k n n s := by
  refine ⟨h.levels, h.parts, fun d ps hps => h.parts d ?_⟩
  rw [hps]
  exact List.mem_cons_self

theorem perform (h : WithinBudget b limit k n m s) (a : Action) :
    WithinBudget b limit k n m (s.perform a) := by
  cases a with
  | take =>
    show WithinBudget b limit k n m s.take
    unfold Sketch.take
    split
    · exact h
    · refine ⟨⟨h.levels.options, h.levels.left⟩, fun d hd => ?_, fun d ps hps => ?_⟩
      · exact h.parts d (by simpa using hd)
      · cases hps
  | report place cause => exact ⟨h.levels.report place cause, h.parts, h.last⟩
  | silence => exact ⟨⟨h.levels.options, h.levels.left⟩, h.parts, h.last⟩
  | listen => exact ⟨⟨h.levels.options, h.levels.left⟩, h.parts, h.last⟩

/-- A node that starts has no parts. -/
theorem start (h : WithinBudget b limit k n m s) :
    WithinBudget b limit k i 0 { s with parts := [] } :=
  ⟨h.levels, fun _ hd => absurd hd List.not_mem_nil, nofun⟩

/-- A node that ends is a part that fits. -/
theorem cons (hs : ∀ d, .node d ∈ s.parts → b.height d ≤ n) (hu : u.HasLeft limit k) {d : Draft}
    (hd : b.height d ≤ height) (hn : height ≤ n) :
    WithinBudget b limit k n height { u with parts := .node d :: s.parts } := by
  refine ⟨hu, fun e he => ?_, fun e ps hps => ?_⟩
  · rcases List.mem_cons.1 he with heq | he
    · rw [Piece.node.inj heq]
      exact Nat.le_trans hd hn
    · exact hs e he
  · cases hps
    exact hd

theorem finish (h : WithinBudget b limit k n m s) (hu : WithinBudget b limit k i i u)
    (hi : b.cost kind + i ≤ n) :
    WithinBudget b limit k n (b.cost kind + i)
      { u with parts := .node (.node kind u.parts.reverse) :: s.parts } :=
  cons h.parts hu.levels (Budget.height_node_le fun d hd => hu.parts d (List.mem_reverse.1 hd)) hi

theorem finishAround (h : WithinBudget b limit k n m s) (hu : WithinBudget b limit k i i u)
    (hleft : b.leftCost kind + m ≤ height) (hi : b.cost kind + i ≤ height) (hn : height ≤ n) :
    WithinBudget b limit k n height { u with parts := Sketch.putAround kind u.parts s.parts } := by
  have hinner : ∀ d, .node d ∈ u.parts.reverse → b.height d ≤ i := fun d hd =>
    hu.parts d (List.mem_reverse.1 hd)
  unfold Sketch.putAround
  split
  · next d before hparts =>
    refine cons (s := { s with parts := before }) (fun e he => h.parts e ?_) hu.levels ?_ hn
    · rw [hparts]
      exact List.mem_cons_of_mem _ he
    · exact Budget.height_around_le (h.last d before hparts) hleft hinner hi
  · exact cons h.parts hu.levels (Nat.le_trans (Budget.height_node_le hinner) hi) hn

/-- Every step of a sketch keeps a budget. -/
theorem keeps (b : Budget) (limit : Nat) : Keeps b (WithinBudget b limit) where
  tooDeep h := h.levels.tooDeep_eq
  last h := h.weaken
  perform a h := h.perform a
  node h hi := ⟨h.start, fun _ hu => h.finish hu hi⟩
  wrap h hleft hi hn := ⟨h.start, fun _ hu => h.finishAround hu hleft hi hn⟩
  nested h := ⟨⟨h.levels.enter, h.parts, h.weaken.last⟩, fun _ hu =>
    ⟨h.levels.leave hu.levels, hu.parts, hu.last⟩⟩
  stopAt _ h := ⟨⟨⟨h.levels.options, h.levels.left⟩, h.parts, h.weaken.last⟩, fun _ hu =>
    ⟨⟨hu.levels.options, hu.levels.left⟩, hu.parts, hu.last⟩⟩
  measured h := ⟨⟨⟨h.levels.options, h.levels.left⟩, h.parts, h.weaken.last⟩, fun _ hu =>
    ⟨⟨hu.levels.options, hu.levels.left⟩, hu.parts, hu.last⟩⟩

end WithinBudget

end Parsing

open Parsing

/-- In a sound budget the tree of a text is a root above statements with all levels left. -/
theorem height_parseWith {b : Budget} (hb : b.Sound) (options : ParseOptions) (source : List Char) :
    (parseWith options source).tree.height b.stepCost ≤ b.other + b.statement options.maxDepth := by
  obtain ⟨parts, hparts, -⟩ := exists_readsAs options (Word.ofLexemes true (lexemes source))
  obtain ⟨ts, htree, -, hts⟩ := hparts.tree_eq
  obtain ⟨t, ht, -, rfl, -⟩ := hparts
  have hstart : WithinBudget b options.maxDepth options.maxDepth (b.statement options.maxDepth) 0
      (Sketch.initial options (Word.ofLexemes true (lexemes source))) :=
    ⟨⟨rfl, Nat.zero_add _⟩, fun _ hd => absurd hd List.not_mem_nil, nofun⟩
  have hwithin := (WithinBudget.keeps b options.maxDepth).statements hb hstart ht
  have hroot : b.height (.node .sourceFile t.parts.reverse) ≤
      b.other + b.statement options.maxDepth :=
    Budget.height_node_le fun d hd => hwithin.parts d (List.mem_reverse.1 hd)
  rw [htree, ← Tree.height_withoutTrivia, Tree.withoutTrivia, hts]
  exact hroot

/-- The cost of a path in the tree of a text. -/
theorem totalCost_path_le {b : Budget} (hb : b.Sound) {options : ParseOptions} {source : List Char}
    {path : List Tree.Step} (h : (parseWith options source).tree.Path path) :
    Tree.totalCost b.stepCost path ≤ b.other + b.statement options.maxDepth :=
  Nat.le_trans (h.totalCost_le_height b.leftCost_le) (height_parseWith hb options source)

end CRBasic
