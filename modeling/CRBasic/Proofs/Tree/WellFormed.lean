import CRBasic.Proofs.Tree.Layout

/-!
# Well-formed events

The events of a draft keep no place that is not used, every pointer leads to a start event of its own
further on (`WellLinked`), and starts and ends balance: along the steps of a draft the nodes around it
stay open (`StaysAbove`).
-/

namespace CRBasic

namespace Event

/-- Whether an event starts a node. -/
def isStart : Event → Bool
  | start _ _ => true
  | _ => false

/-- Whether an event ends a node. -/
def isFinish : Event → Bool
  | finish => true
  | _ => false

/-- The place that the event at a place points to. -/
def target? (es : List Event) (i : Nat) : Option Nat :=
  match es[i]? with
  | some (start _ (some distance)) => some (i + distance)
  | _ => none

/-- Every pointer leads forward, to a start event that no other pointer leads to. -/
structure WellLinked (es : List Event) : Prop where
  forward {i j : Nat} (h : target? es i = some j) : i < j ∧ (es[j]?.any isStart) = true
  unique {i i' j : Nat} (h : target? es i = some j) (h' : target? es i' = some j) : i = i'

theorem WellLinked.lt_length {es : List Event} (hes : WellLinked es) {i j : Nat}
    (h : target? es i = some j) : j < es.length := by
  obtain ⟨-, hj⟩ := hes.forward h
  rcases Nat.lt_or_ge j es.length with hlt | hge
  · exact hlt
  · rw [List.getElem?_eq_none hge] at hj
    cases hj

theorem wellLinked_of_none {es : List Event} (h : ∀ i, target? es i = none) : WellLinked es := by
  constructor
  · intro i j hi
    rw [h i] at hi
    cases hi
  · intro i i' j hi
    rw [h i] at hi
    cases hi

theorem target?_append_left {xs ys : List Event} {i : Nat} (hi : i < xs.length) :
    target? (xs ++ ys) i = target? xs i := by
  rw [target?, target?, List.getElem?_append_left hi]

theorem target?_append_right {xs ys : List Event} {i : Nat} (hi : xs.length ≤ i) :
    target? (xs ++ ys) i = (target? ys (i - xs.length)).map (· + xs.length) := by
  rw [target?, target?, List.getElem?_append_right hi]
  split
  · simp only [Option.map_some, Option.some.injEq]
    omega
  · rfl

/-- Pointers that stay in their part of a list do not meet. -/
theorem WellLinked.append {xs ys : List Event} (hxs : WellLinked xs) (hys : WellLinked ys) :
    WellLinked (xs ++ ys) := by
  have hcases {i j : Nat} (h : target? (xs ++ ys) i = some j) :
      (target? xs i = some j) ∨
        (xs.length ≤ i ∧ xs.length ≤ j ∧
          target? ys (i - xs.length) = some (j - xs.length)) := by
    rcases Nat.lt_or_ge i xs.length with hi | hi
    · rw [target?_append_left hi] at h
      exact .inl h
    · rw [target?_append_right hi, Option.map_eq_some_iff] at h
      obtain ⟨k, hk, rfl⟩ := h
      exact .inr ⟨hi, Nat.le_add_left _ _, by rwa [Nat.add_sub_cancel]⟩
  constructor
  · intro i j h
    rcases hcases h with h | ⟨hi, hj, h⟩
    · have hlt := hxs.lt_length h
      rw [List.getElem?_append_left hlt]
      exact hxs.forward h
    · obtain ⟨hlt, hstart⟩ := hys.forward h
      rw [List.getElem?_append_right hj]
      exact ⟨by omega, hstart⟩
  · intro i i' j h h'
    rcases hcases h with h | ⟨hi, hj, h⟩ <;> rcases hcases h' with h' | ⟨hi', hj', h'⟩
    · exact hxs.unique h h'
    · have := hxs.lt_length h
      omega
    · have := hxs.lt_length h'
      omega
    · have := hys.unique h h'
      omega

/-- A pointer to a start event that other events do not reach over. -/
theorem WellLinked.cons_start {xs ys : List Event} (hxs : WellLinked xs) (kind kind' : NodeKind)
    (parent? : Option Nat) (hys : WellLinked (start kind' parent? :: ys)) :
    WellLinked (start kind (some (xs.length + 1)) :: (xs ++ start kind' parent? :: ys)) := by
  have hrest := hxs.append hys
  have htarget : target? (start kind (some (xs.length + 1)) :: (xs ++ start kind' parent? :: ys)) 0 =
      some (xs.length + 1) := by
    simp [target?]
  have hlater (i : Nat) :
      target? (start kind (some (xs.length + 1)) :: (xs ++ start kind' parent? :: ys)) (i + 1) =
        (target? (xs ++ start kind' parent? :: ys) i).map (· + 1) :=
    target?_append_right (Nat.le_add_left [start kind (some (xs.length + 1))].length i)
  -- Pointers in `xs` end before it does, and those after it lead further on.
  have hmiss (i : Nat) : target? (xs ++ start kind' parent? :: ys) i ≠ some xs.length := by
    intro h
    rcases Nat.lt_or_ge i xs.length with hi | hi
    · rw [target?_append_left hi] at h
      exact absurd (hxs.lt_length h) (Nat.lt_irrefl _)
    · have := (hrest.forward h).1
      omega
  constructor
  · intro i j h
    cases i with
    | zero =>
      rw [htarget, Option.some.injEq] at h
      subst h
      simp [isStart]
    | succ i =>
      rw [hlater, Option.map_eq_some_iff] at h
      obtain ⟨k, hk, rfl⟩ := h
      obtain ⟨hlt, hstart⟩ := hrest.forward hk
      exact ⟨Nat.succ_lt_succ hlt, hstart⟩
  · intro i i' j h h'
    cases i <;> cases i' <;> simp only [htarget, hlater, Option.map_eq_some_iff] at h h'
    · rfl
    · obtain ⟨k, hk, rfl⟩ := h'
      cases h
      exact absurd hk (hmiss _)
    · obtain ⟨k, hk, rfl⟩ := h
      cases h'
      exact absurd hk (hmiss _)
    · obtain ⟨k, hk, rfl⟩ := h
      obtain ⟨k', hk', hkk⟩ := h'
      cases hkk
      exact congrArg (· + 1) (hrest.unique hk hk')

end Event

namespace Draft

open Event

theorem wellLinked_single {e : Event} (h : ∀ kind distance, e ≠ .start kind (some distance)) :
    WellLinked [e] := by
  refine wellLinked_of_none fun i => ?_
  rw [target?]
  split
  · next kind distance hi =>
    have := List.mem_of_getElem? hi
    simp at this
    exact absurd this.symm (h _ _)
  · rfl

mutual

/-- A linked draft may stand before any start event. -/
theorem wellLinked_events_true : ∀ (d : Draft) (kind : NodeKind) (parent? : Option Nat)
    (post : List Event), WellLinked (.start kind parent? :: post) →
      WellLinked (d.events true ++ .start kind parent? :: post)
  | node kind' parts, kind, parent?, post, h => by
    have hxs : WellLinked (eventsOfAll parts ++ [.finish]) :=
      (wellLinked_eventsOfAll parts).append (wellLinked_single (by simp))
    have hcons := hxs.cons_start kind' kind parent? h
    simpa [events, link] using hcons
  | around kind' first parts, kind, parent?, post, h => by
    have hxs : WellLinked (eventsOfAll parts ++ [.finish]) :=
      (wellLinked_eventsOfAll parts).append (wellLinked_single (by simp))
    have hcons := hxs.cons_start kind' kind parent? h
    have hfirst := wellLinked_events_true first kind' _ _ hcons
    simpa [events, link] using hfirst

theorem wellLinked_events_false : ∀ d : Draft, WellLinked (d.events false)
  | node kind parts => by
    have hstart : WellLinked [.start kind none] := wellLinked_single (by simp)
    have hfinish : WellLinked [.finish] := wellLinked_single (by simp)
    have h := hstart.append ((wellLinked_eventsOfAll parts).append hfinish)
    simpa [events, link] using h
  | around kind first parts => by
    have hstart : WellLinked [.start kind none] := wellLinked_single (by simp)
    have hfinish : WellLinked [.finish] := wellLinked_single (by simp)
    have h := hstart.append ((wellLinked_eventsOfAll parts).append hfinish)
    have hfirst := wellLinked_events_true first kind none _ h
    simpa [events, link] using hfirst

theorem wellLinked_eventsOfAll : ∀ parts : List (Piece Draft), WellLinked (eventsOfAll parts)
  | [] => wellLinked_of_none fun i => by simp [eventsOfAll, target?]
  | .word w :: ps => (wellLinked_single (by simp)).append (wellLinked_eventsOfAll ps)
  | .node d :: ps => (wellLinked_events_false d).append (wellLinked_eventsOfAll ps)

end

/-! ### Starts and ends -/

theorem countP_block (p : Event → Bool) (kind : NodeKind) (parent? : Option Nat) (es : List Event) :
    (.start kind parent? :: (es ++ [.finish])).countP p =
      es.countP p + [.start kind parent?, .finish].countP p := by
  simp only [List.countP_cons, List.countP_append, List.countP_nil]
  omega

mutual

theorem hole_not_mem_events (linked : Bool) : ∀ d : Draft, .hole ∉ d.events linked
  | node kind parts => by simp [events, hole_not_mem_eventsOfAll parts]
  | around kind first parts => by
    simp [events, hole_not_mem_events true first, hole_not_mem_eventsOfAll parts]

theorem hole_not_mem_eventsOfAll : ∀ parts : List (Piece Draft), .hole ∉ eventsOfAll parts
  | [] => by simp [eventsOfAll]
  | .word w :: ps => by simp [eventsOfAll, hole_not_mem_eventsOfAll ps]
  | .node d :: ps => by
    simp [eventsOfAll, hole_not_mem_events false d, hole_not_mem_eventsOfAll ps]

end

mutual

/-- As many nodes end as start. -/
theorem countP_isFinish (linked : Bool) : ∀ d : Draft,
    (d.events linked).countP isFinish = (d.events linked).countP isStart
  | node kind parts => by
    rw [events, countP_block, countP_block, countP_isFinish_ofAll parts]
    rfl
  | around kind first parts => by
    rw [events, List.countP_append, List.countP_append, countP_block, countP_block,
      countP_isFinish true first, countP_isFinish_ofAll parts]
    rfl

theorem countP_isFinish_ofAll : ∀ parts : List (Piece Draft),
    (eventsOfAll parts).countP isFinish = (eventsOfAll parts).countP isStart
  | [] => rfl
  | .word w :: ps => by
    rw [eventsOfAll, List.countP_cons, List.countP_cons, countP_isFinish_ofAll ps]
    rfl
  | .node d :: ps => by
    rw [eventsOfAll, List.countP_append, List.countP_append, countP_isFinish false d,
      countP_isFinish_ofAll ps]

end

mutual

/-- The tree of a draft has one node for each start. -/
theorem length_nodes_tree (start : Nat) (linked : Bool) : ∀ d : Draft,
    (d.tree.nodes start).length = (d.events linked).countP isStart
  | node kind parts => by
    rw [tree, Tree.nodes, List.length_cons, length_nodes_treesOfAll start parts, events,
      countP_block]
    rfl
  | around kind first parts => by
    rw [tree, Tree.nodes, List.length_cons, Tree.nodesOfAll, List.length_append,
      length_nodes_tree start true first, length_nodes_treesOfAll _ parts, events,
      List.countP_append, countP_block]
    rfl

theorem length_nodes_treesOfAll (start : Nat) : ∀ parts : List (Piece Draft),
    (Tree.nodesOfAll start (treesOfAll parts)).length = (eventsOfAll parts).countP isStart
  | [] => rfl
  | .word w :: ps => by
    rw [treesOfAll, Tree.nodesOfAll, List.length_append, length_nodes_treesOfAll _ ps, eventsOfAll,
      List.countP_cons]
    exact Nat.add_comm _ _
  | .node d :: ps => by
    rw [treesOfAll, Tree.nodesOfAll, List.length_append, length_nodes_tree start false d,
      length_nodes_treesOfAll _ ps, eventsOfAll, List.countP_append]

end

end Draft

namespace Tree

mutual

/-- Without its blanks and comments a tree has the same nodes, in other places. -/
theorem length_nodes_withoutTrivia (start start' : Nat) : ∀ t : Tree,
    (t.withoutTrivia.nodes start).length = (t.nodes start').length
  | leaf kind text => rfl
  | node kind children => by
    rw [withoutTrivia, nodes, nodes, List.length_cons, List.length_cons,
      length_nodes_withoutTriviaOfAll start start' children]

theorem length_nodes_withoutTriviaOfAll (start start' : Nat) : ∀ ts : List Tree,
    (nodesOfAll start (withoutTriviaOfAll ts)).length = (nodesOfAll start' ts).length
  | [] => rfl
  | leaf kind text :: ts => by
    have h (start : Nat) := length_nodes_withoutTriviaOfAll start (start' + (leaf kind text).width) ts
    rw [withoutTriviaOfAll, nodesOfAll, List.length_append]
    split
    · simpa [nodes] using h start
    · simpa [nodesOfAll, nodes] using h _
  | node kind children :: ts => by
    rw [withoutTriviaOfAll, nodesOfAll, nodesOfAll, List.length_append, List.length_append,
      length_nodes_withoutTrivia start start' (node kind children),
      length_nodes_withoutTriviaOfAll _ (start' + (node kind children).width) ts]

end

end Tree

/-! ### Open nodes -/

namespace BuildStep

/-- How many nodes are open after a step, if there are `n` before it. -/
def openAfter (n : Nat) : BuildStep → Nat
  | openNodes kinds => n + kinds.length
  | token _ => n
  | closeNode => n - 1

/-- Before each of some steps more than `m` nodes are open, if there are `n` before the first. -/
def StaysAbove (m : Nat) : Nat → List BuildStep → Prop
  | _, [] => True
  | n, step :: steps => m < n ∧ StaysAbove m (step.openAfter n) steps

theorem staysAbove_append {m n : Nat} {xs ys : List BuildStep} :
    StaysAbove m n (xs ++ ys) ↔ StaysAbove m n xs ∧ StaysAbove m (xs.foldl openAfter n) ys := by
  induction xs generalizing n with
  | nil => simp [StaysAbove]
  | cons x xs ih => simp [StaysAbove, ih, and_assoc]

theorem StaysAbove.mono {l m n : Nat} {steps : List BuildStep} (h : StaysAbove m n steps)
    (hlm : l ≤ m) : StaysAbove l n steps := by
  induction steps generalizing n with
  | nil => trivial
  | cons step steps ih => exact ⟨Nat.lt_of_le_of_lt hlm h.1, ih h.2⟩

end BuildStep

namespace Draft

open BuildStep

mutual

/-- The nodes around a draft stay open till its last step, which leaves just these open. -/
theorem staysAbove_inside : ∀ (d : Draft) (n : Nat),
    StaysAbove n (n + d.spine.length) d.inside ∧
      d.inside.foldl openAfter (n + d.spine.length) = n
  | node kind parts, n => by
    obtain ⟨h, hfold⟩ := staysAbove_stepsOfAll parts (Nat.lt_succ_self n)
    simp only [spine, inside, List.length_singleton, staysAbove_append, List.foldl_append, hfold]
    exact ⟨⟨h, Nat.lt_succ_self n, trivial⟩, rfl⟩
  | around kind first parts, n => by
    obtain ⟨h₁, hfold₁⟩ := staysAbove_inside first (n + 1)
    obtain ⟨h, hfold⟩ := staysAbove_stepsOfAll parts (Nat.lt_succ_self n)
    have hspine : n + (spine (around kind first parts)).length =
        n + 1 + first.spine.length := by
      simp only [spine, List.length_cons]
      omega
    rw [hspine]
    simp only [inside, staysAbove_append, List.foldl_append, hfold₁, hfold]
    exact ⟨⟨h₁.mono (Nat.le_succ n), h, Nat.lt_succ_self n, trivial⟩, rfl⟩

theorem staysAbove_stepsOfAll : ∀ (parts : List (Piece Draft)) {m n : Nat}, m < n →
    StaysAbove m n (stepsOfAll parts) ∧ (stepsOfAll parts).foldl openAfter n = n
  | [], m, n, h => ⟨trivial, rfl⟩
  | .word w :: ps, m, n, h => by
    obtain ⟨hps, hfold⟩ := staysAbove_stepsOfAll ps h
    exact ⟨⟨h, hps⟩, hfold⟩
  | .node d :: ps, m, n, h => by
    obtain ⟨hd, hfold⟩ := staysAbove_inside d n
    obtain ⟨hps, hfold'⟩ := staysAbove_stepsOfAll ps h
    simp only [stepsOfAll, StaysAbove, List.foldl_cons, staysAbove_append, List.foldl_append,
      openAfter, hfold, hfold']
    exact ⟨⟨h, hd.mono (Nat.le_of_lt h), hps⟩, trivial⟩

end

end Draft

namespace Builder

theorem length_nodes_add (b : Builder) (t : Tree) : (b.add t).nodes.length = b.nodes.length := by
  unfold add
  split <;> simp_all

theorem length_nodes_addLexemes (b : Builder) (xs rest : List Lexeme) :
    (b.addLexemes xs rest).nodes.length = b.nodes.length := by
  have h (b : Builder) : (xs.foldl (fun b x => b.add (.leaf x.kind x.text)) b).nodes.length =
      b.nodes.length := by
    induction xs generalizing b with
    | nil => rfl
    | cons x xs ih => rw [List.foldl_cons, ih, length_nodes_add]
  exact h b

theorem length_nodes_step (b : Builder) (step : BuildStep) :
    (b.step step).nodes.length = step.openAfter b.nodes.length := by
  cases step with
  | openNodes kinds =>
    simp only [Builder.step, openNodes, nodes_foldl_open, List.length_append, List.length_map,
      List.length_reverse, BuildStep.openAfter]
    split
    · omega
    · rw [length_nodes_addLexemes]
      omega
  | token kind =>
    have htrivia : b.addTrivia.nodes.length = b.nodes.length := length_nodes_addLexemes ..
    simp only [Builder.step, addWord, BuildStep.openAfter]
    split
    · exact htrivia
    · simp only [length_nodes_add]
      exact htrivia
  | closeNode =>
    simp only [Builder.step, BuildStep.openAfter]
    cases h : b.nodes with
    | nil => simp [closeNode, h]
    | cons n outer =>
      cases outer with
      | nil =>
        rw [(closeNode_root h).1]
        rfl
      | cons m outer =>
        obtain ⟨xs, -, -, -, -, -, hnodes⟩ := closeNode_spec h
        rw [hnodes]
        rfl

theorem length_nodes_foldl (b : Builder) (steps : List BuildStep) :
    (steps.foldl Builder.step b).nodes.length = steps.foldl BuildStep.openAfter b.nodes.length := by
  induction steps generalizing b with
  | nil => rfl
  | cons step steps ih => rw [List.foldl_cons, List.foldl_cons, ih, length_nodes_step]

end Builder

/-- Along the steps of a draft, nodes are open between the first and the last one, and none after
the last one. -/
theorem Draft.nodes_foldl (d : Draft) (xs : List Lexeme) :
    (∀ pre post, BuildStep.ofEvents [] (d.events false) = pre ++ post → pre ≠ [] → post ≠ [] →
      (pre.foldl Builder.step { rest := xs }).nodes ≠ []) ∧
    ((BuildStep.ofEvents [] (d.events false)).foldl Builder.step { rest := xs }).nodes = [] := by
  obtain ⟨habove, hfold⟩ := d.staysAbove_inside 0
  rw [Nat.zero_add] at habove hfold
  constructor
  · intro pre post hsteps hpre hpost hnil
    obtain ⟨first, pre, rfl⟩ := List.exists_cons_of_ne_nil hpre
    obtain ⟨next, post, rfl⟩ := List.exists_cons_of_ne_nil hpost
    rw [ofEvents_events, List.cons_append, List.cons.injEq] at hsteps
    obtain ⟨rfl, hinside⟩ := hsteps
    rw [hinside, BuildStep.staysAbove_append] at habove
    have hlength := congrArg List.length hnil
    rw [Builder.length_nodes_foldl] at hlength
    have hopen := habove.2.1
    simp only [List.foldl_cons, BuildStep.openAfter, List.length_nil, Nat.zero_add] at hlength
    omega
  · apply List.eq_nil_of_length_eq_zero
    rw [Builder.length_nodes_foldl, ofEvents_events, List.foldl_cons]
    simpa [BuildStep.openAfter] using hfold

end CRBasic
