import CRBasic.Proofs.Tree.Draft

/-!
# Replaying events

A replay goes through events one by one.  A node that points to a later start waits until that start
comes, and becomes its first part.  There are no blanks and comments.  A replay fails where an event
does not fit: where a place was kept and not used, where a node ends and none is open, or where a word
comes that is not the next one.
-/

namespace CRBasic

/-- A node that has not ended. -/
structure Replay.Open where
  kind : NodeKind
  /-- Where the parent starts, if it starts later. -/
  parent? : Option Nat
  /-- The parts so far, in reverse. -/
  children : List Tree

/-- A stage of a replay. -/
structure Replay where
  /-- The words not yet placed. -/
  words : List Word
  /-- The nodes that have not ended, innermost first. -/
  nodes : List Replay.Open := []
  /-- Nodes that have ended before their parents have started, with the places of these starts. -/
  waiting : List (Nat × Tree) := []
  /-- The trees that have ended outside all nodes, in reverse. -/
  roots : List Tree := []
  /-- The number of events so far. -/
  place : Nat := 0

namespace Replay

/-- Adds a tree to the innermost node, or to the roots. -/
def add (r : Replay) (t : Tree) : Replay :=
  match r.nodes with
  | [] => { r with roots := t :: r.roots }
  | n :: outer => { r with nodes := { n with children := t :: n.children } :: outer }

/-- Adds a node that has ended, or lets it wait for its parent. -/
def settle (r : Replay) (parent? : Option Nat) (t : Tree) : Replay :=
  match parent? with
  | some i => { r with waiting := (i, t) :: r.waiting }
  | none => r.add t

/-- The stage after an event, if the event fits. -/
def step (r : Replay) : Event → Option Replay
  | .start kind parent? =>
    let (first, waiting) := r.waiting.partition (·.1 == r.place)
    some { r with
      nodes := ⟨kind, parent?.map (r.place + ·), first.map (·.2)⟩ :: r.nodes
      waiting
      place := r.place + 1 }
  | .token kind =>
    match r.words, r.nodes with
    | w :: words, n :: outer =>
      if w.kind = kind then
        some ({ r with words, nodes := n :: outer, place := r.place + 1 }.add (.leaf kind w.text))
      else none
    | _, _ => none
  | .finish =>
    match r.nodes with
    | [] => none
    | n :: outer =>
      some ({ r with nodes := outer, place := r.place + 1 }.settle n.parent?
        (.node n.kind n.children.reverse))
  | .hole => none

/-- The trees that events make up over some words, if every event fits and nothing is left over. -/
def trees (words : List Word) (events : List Event) : Option (List Tree) :=
  match events.foldlM step { words } with
  | some ⟨[], [], [], roots, _⟩ => some roots.reverse
  | _ => none

end Replay

namespace Draft

open Replay

/-- The parts of a node that starts now are added to the trees that waited for the node. -/
theorem foldlM_block {parts : List (Piece Draft)} (kind : NodeKind) (parent? : Option Nat)
    (ws : List Word) (nodes : List Replay.Open) (waiting first : List (Nat × Tree))
    (roots : List Tree) (i : Nat)
    (hwaiting : waiting.partition (·.1 == i) = (first, []))
    (hparts : ∀ n : Replay.Open, (eventsOfAll parts).foldlM step
        ⟨wordsOfAll parts ++ ws, n :: nodes, [], roots, i + 1⟩ =
      some ⟨ws, { n with children := (treesOfAll parts).reverse ++ n.children } :: nodes, [], roots,
        i + 1 + sizeOfAll parts⟩) :
    (.start kind parent? :: (eventsOfAll parts ++ [.finish])).foldlM step
        ⟨wordsOfAll parts ++ ws, nodes, waiting, roots, i⟩ =
      some (settle ⟨ws, nodes, [], roots, i + (sizeOfAll parts + 2)⟩ (parent?.map (i + ·))
        (.node kind ((first.map (·.2)).reverse ++ treesOfAll parts))) := by
  have hplace : i + 1 + sizeOfAll parts + 1 = i + (sizeOfAll parts + 2) := by omega
  rw [List.foldlM_cons, step]
  simp only [hwaiting, Option.bind_eq_bind, Option.bind_some, List.foldlM_append]
  rw [hparts]
  simp [step, hplace]

mutual

/-- The events of a draft add its tree, or let it wait for the node that starts right after. -/
theorem foldlM_events (linked : Bool) : ∀ (d : Draft) (ws : List Word) (nodes : List Replay.Open)
    (roots : List Tree) (i : Nat),
    (d.events linked).foldlM step ⟨d.words ++ ws, nodes, [], roots, i⟩ =
      some (settle ⟨ws, nodes, [], roots, i + d.size⟩ ((link linked d.size).map (i + ·)) d.tree)
  | node kind parts, ws, nodes, roots, i => by
    have hparts (n : Replay.Open) := foldlM_eventsOfAll parts ws n nodes roots (i + 1)
    have hblock := foldlM_block kind (link linked (sizeOfAll parts + 2)) ws nodes [] [] roots i rfl
      hparts
    exact hblock
  | around kind first parts, ws, nodes, roots, i => by
    have hfirst := foldlM_events true first (wordsOfAll parts ++ ws) nodes roots i
    have hparts (n : Replay.Open) :=
      foldlM_eventsOfAll parts ws n nodes roots (i + first.size + 1)
    -- The first part waits for the very place at which the node around it starts.
    have hblock := foldlM_block kind (link linked (sizeOfAll parts + 2)) ws nodes
      [(i + first.size, first.tree)] [(i + first.size, first.tree)] roots (i + first.size)
      (by simp) hparts
    rw [events, words, List.append_assoc, List.foldlM_append, hfirst]
    refine Eq.trans hblock ?_
    cases linked <;> simp [link, size, tree, Nat.add_assoc]

/-- The events of some parts add their trees to the innermost node. -/
theorem foldlM_eventsOfAll : ∀ (parts : List (Piece Draft)) (ws : List Word) (n : Replay.Open)
    (outer : List Replay.Open) (roots : List Tree) (i : Nat),
    (eventsOfAll parts).foldlM step ⟨wordsOfAll parts ++ ws, n :: outer, [], roots, i⟩ =
      some ⟨ws, { n with children := (treesOfAll parts).reverse ++ n.children } :: outer, [], roots,
        i + sizeOfAll parts⟩
  | [], ws, n, outer, roots, i => rfl
  | .word w :: ps, ws, n, outer, roots, i => by
    have hps := foldlM_eventsOfAll ps ws
      { n with children := .leaf w.kind w.text :: n.children } outer roots (i + 1)
    rw [eventsOfAll, wordsOfAll, List.foldlM_cons]
    simp only [List.cons_append, step, if_true, add, Option.bind_eq_bind, Option.bind_some, hps]
    simp [treesOfAll, sizeOfAll, Nat.add_assoc, Nat.add_comm 1]
  | .node d :: ps, ws, n, outer, roots, i => by
    have hd := foldlM_events false d (wordsOfAll ps ++ ws) (n :: outer) roots i
    have hps := foldlM_eventsOfAll ps ws
      { n with children := d.tree :: n.children } outer roots (i + d.size)
    rw [eventsOfAll, wordsOfAll, List.append_assoc, List.foldlM_append, hd]
    refine Eq.trans hps ?_
    simp [treesOfAll, sizeOfAll, Nat.add_assoc]

end

/-- Replaying the events of a draft over its words makes up its tree, and nothing else. -/
theorem trees_events (d : Draft) : Replay.trees d.words (d.events false) = some [d.tree] := by
  have h := foldlM_events false d [] [] [] 0
  rw [List.append_nil] at h
  rw [Replay.trees, h]
  rfl

end Draft

end CRBasic
