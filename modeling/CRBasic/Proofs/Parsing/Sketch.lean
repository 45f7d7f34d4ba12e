import CRBasic.Parsing.State
import CRBasic.Proofs.Parsing.Invariant
import CRBasic.Proofs.Tree.Draft

/-!
# Sketches

A sketch reads words like a `State`, but keeps the parts of the open node in place of events: nodes
that end become drafts at once.  Sketches take every step as states do (`simulation`), and no step
changes the words that the parts and the rest make up (`kept_hasWords`).
-/

namespace CRBasic

namespace Parsing

/-- A stage of a parse: what has been read, and the parts of the open node, the last one first. -/
structure Sketch extends Reading where
  /-- The parts of the open node, in reverse. -/
  parts : List (Piece Draft) := []

namespace Sketch

/-- Puts a node around the last part, if that is a node, and else after the parts. -/
def putAround (kind : NodeKind) (inner : List (Piece Draft)) :
    List (Piece Draft) → List (Piece Draft)
  | .node d :: before => .node (.around kind d inner.reverse) :: before
  | parts => .node (.node kind inner.reverse) :: parts

/-- Takes the next word into the open node. -/
def take (s : Sketch) : Sketch :=
  match s.rest with
  | [] => s
  | w :: rest => { s with rest, taken := s.taken + 1, parts := .word w :: s.parts }

/-- The sketch after an action. -/
def perform (s : Sketch) : Action → Sketch
  | .take => s.take
  | .report place cause => { s with toReading := s.toReading.report place cause }
  | .silence => { s with silenced := true }
  | .listen => { s with silenced := false }

/-- The parts before a stretch, and the sketch at its start. -/
def begin (s : Sketch) (scope : Scope) : List (Piece Draft) × Sketch :=
  (s.parts,
    match scope with
    | .node _ | .wrap _ => { s with parts := [] }
    | scope => { s with toReading := s.toReading.enter scope })

/-- The sketch after a stretch before which there were the given parts. -/
def leave (s : Sketch) (outer : List (Piece Draft)) : Scope → Sketch
  | .node kind => { s with parts := .node (.node kind s.parts.reverse) :: outer }
  | .wrap kind => { s with parts := putAround kind s.parts outer }
  | scope => { s with toReading := s.toReading.leave scope }

instance : Machine Sketch (List (Piece Draft)) where
  answer s q := s.toReading.answer q
  perform := perform
  begin := begin
  leave := leave

/-! ### Sketches and states -/

/-- Where the last part has its start event, if it is a node and `before` events come before. -/
def latestOf (before : Nat) : List (Piece Draft) → Option Nat
  | .node d :: parts => some (before + Draft.sizeOfAll parts.reverse + d.place)
  | _ => none

/-- A state has the events of a sketch after those of the nodes around. -/
structure Depicts (around : List Event) (s : State) (t : Sketch) : Prop where
  reading : t.toReading = s.toReading
  events : s.events.toList = around ++ Draft.eventsOfAll t.parts.reverse
  latest : s.latest = latestOf around.length t.parts

variable {around : List Event} {s : State} {t : Sketch}

theorem Depicts.perform (h : Depicts around s t) (a : Action) :
    Depicts around (s.perform a) (t.perform a) := by
  obtain ⟨hreading, hevents, hlatest⟩ := h
  cases a with
  | take =>
    have hrest : t.rest = s.rest := by rw [hreading]
    simp only [State.perform, Sketch.perform, State.take, Sketch.take, hrest]
    cases s.rest with
    | nil => exact ⟨hreading, hevents, hlatest⟩
    | cons w rest =>
      refine ⟨?_, ?_, rfl⟩
      · simp only [hreading]
      · simp [hevents, Draft.eventsOfAll]
  | report place cause => exact ⟨congrArg (·.report place cause) hreading, hevents, hlatest⟩
  | silence => exact ⟨by simp only [State.perform, Sketch.perform, hreading], hevents, hlatest⟩
  | listen => exact ⟨by simp only [State.perform, Sketch.perform, hreading], hevents, hlatest⟩

/-- What is read and found may change alike. -/
theorem Depicts.map (h : Depicts around s t) (f : Reading → Reading) :
    Depicts around { s with toReading := f s.toReading } { t with toReading := f t.toReading } :=
  ⟨congrArg f h.reading, h.events, h.latest⟩

/-- A node that starts keeps a place in the events. -/
theorem Depicts.openNode (h : Depicts around s t) :
    Depicts (s.events.toList ++ [.hole]) s.openNode { t with parts := [] } :=
  ⟨h.reading, by simp [State.openNode, Draft.eventsOfAll], rfl⟩

/-- A node that starts around the last part points that part to the place that it keeps. -/
theorem Depicts.openAround {d : Draft} {parts : List (Piece Draft)} (h : Depicts around s t)
    (ht : t.parts = .node d :: parts) :
    Depicts (around ++ Draft.eventsOfAll parts.reverse ++ d.events true ++ [.hole]) s.openAround
      { t with parts := [] } := by
  have hlatest : s.latest = some (around.length + Draft.sizeOfAll parts.reverse + d.place) := by
    rw [h.latest, ht, latestOf]
  have hevents : s.events.toList = around ++ Draft.eventsOfAll parts.reverse ++ d.events false := by
    simpa [ht, Draft.eventsOfAll] using h.events
  have hsize : s.events.size = around.length + Draft.sizeOfAll parts.reverse + d.size := by
    simpa [Nat.add_assoc] using congrArg List.length hevents
  have hplace := d.place_add_reach
  rw [State.openAround, hlatest]
  refine ⟨h.reading, ?_, rfl⟩
  simp only [Event.openParent, Array.toList_push, Array.toList_modify, hevents]
  rw [Draft.modify_place _ d (by simp) (by omega)]
  simp [Draft.eventsOfAll]

/-- A node that ends has its start where its place was kept. -/
theorem Depicts.closeNode {before : List Event} (h : Depicts (before ++ [.hole]) s t)
    (kind : NodeKind) {parts : List (Piece Draft)} {d : Draft}
    (hevents : around ++ Draft.eventsOfAll parts.reverse ++ d.events false =
      before ++ .start kind none :: (Draft.eventsOfAll t.parts.reverse ++ [.finish]))
    (hplace : around.length + Draft.sizeOfAll parts.reverse + d.place = before.length) :
    Depicts around (s.closeNode before.length kind) { t with parts := .node d :: parts } := by
  refine ⟨h.reading, ?_, ?_⟩
  · simp only [State.closeNode, Event.close, Array.toList_push, Array.toList_setIfInBounds,
      h.events, List.reverse_cons, Draft.eventsOfAll_append, Draft.eventsOfAll]
    rw [← List.append_assoc around, List.append_nil, hevents]
    simp [List.set_append_right]
  · simp only [State.closeNode, latestOf, hplace]

theorem Depicts.within_node (h : Depicts around s t) (kind : NodeKind) {u : State} {v : Sketch}
    (huv : Depicts (s.events.toList ++ [.hole]) u v) :
    Depicts around (u.closeNode s.events.size kind)
      { v with parts := .node (.node kind v.parts.reverse) :: t.parts } := by
  exact huv.closeNode kind (by simp [h.events, Draft.events, Draft.link])
    (by simp [h.events, Draft.place])

theorem Depicts.within_around {d : Draft} {parts : List (Piece Draft)} (h : Depicts around s t)
    (ht : t.parts = .node d :: parts) (kind : NodeKind) {u : State} {v : Sketch}
    (huv : Depicts (around ++ Draft.eventsOfAll parts.reverse ++ d.events true ++ [.hole]) u v) :
    Depicts around (u.closeNode s.events.size kind)
      { v with parts := .node (.around kind d v.parts.reverse) :: parts } := by
  have hsize : s.events.size =
      (around ++ Draft.eventsOfAll parts.reverse ++ d.events true).length := by
    simpa [ht, Draft.eventsOfAll, Nat.add_assoc] using congrArg List.length h.events
  rw [hsize]
  exact huv.closeNode kind (by simp [Draft.events, Draft.link])
    (by simp [Draft.place, Nat.add_assoc])

/-- Sketches take every step as states do. -/
theorem simulation : Simulation Depicts where
  answer q h := by
    change Reading.answer _ q = Reading.answer _ q
    rw [h.reading]
  perform a h := h.perform a
  stretch {around s t} scope h := by
    cases scope with
    | node kind => exact ⟨_, h.openNode, fun u v huv => h.within_node kind huv⟩
    | wrap kind =>
      obtain ⟨reading, parts⟩ := t
      have hnone (hlatest : s.latest = none) : s.openAround = s.openNode := by
        simp only [State.openAround, hlatest]
      match parts with
      | [] =>
        refine ⟨_, ?_, fun u v huv => h.within_node kind huv⟩
        exact (hnone h.latest ▸ h.openNode : Depicts _ s.openAround _)
      | .word w :: parts =>
        refine ⟨_, ?_, fun u v huv => h.within_node kind huv⟩
        exact (hnone h.latest ▸ h.openNode : Depicts _ s.openAround _)
      | .node d :: parts =>
        exact ⟨_, h.openAround rfl, fun u v huv => h.within_around rfl kind huv⟩
    | stopAt kinds =>
      exact ⟨around, h.map (·.enter _), fun u v huv => huv.map (·.leave (.stopAt kinds))⟩
    | nested => exact ⟨around, h.map (·.enter _), fun u v huv => huv.map (·.leave .nested)⟩
    | measured => exact ⟨around, h.map (·.enter _), fun u v huv => huv.map (·.leave .measured)⟩

/-- The script of a node leaves one part more. -/
theorem parts_node {s t : Sketch} {call : Rule → Sketch → Option Sketch} {fuel : Nat} {α : Type} {x : Script α}
    {kind : NodeKind} {a : α} (h : (Script.node kind x).run call fuel s = some (a, t)) :
    ∃ parts, t.parts = .node (.node kind parts) :: s.parts := by
  simp only [Script.node, Script.within, Script.run] at h
  split at h
  · cases h
  · next b u hu =>
    cases h
    exact ⟨_, rfl⟩

/-! ### Words -/

/-- The words of the open node so far and the words that are left are the given ones. -/
def HasWords (ws : List Word) (t : Sketch) : Prop :=
  Draft.wordsOfAll t.parts.reverse ++ t.rest = ws

theorem wordsOfAll_putAround (kind : NodeKind) (inner parts : List (Piece Draft)) :
    Draft.wordsOfAll (putAround kind inner parts).reverse =
      Draft.wordsOfAll parts.reverse ++ Draft.wordsOfAll inner.reverse := by
  unfold putAround
  split <;> simp [Draft.wordsOfAll, Draft.words]

/-- No step loses a word, takes one twice, or changes their order. -/
theorem kept_hasWords : Kept HasWords where
  perform {ws t} a h := by
    cases a with
    | take =>
      change HasWords ws t.take
      unfold take
      split
      · exact h
      · next w rest hrest => simpa [HasWords, Draft.wordsOfAll, hrest] using h
    | report place cause =>
      change _ ++ (t.toReading.report place cause).rest = ws
      rw [Reading.rest_report]
      exact h
    | silence => exact h
    | listen => exact h
  stretch {ws t} scope h := by
    have hinner {u : Sketch} (hu : HasWords t.rest u) :
        (Draft.wordsOfAll t.parts.reverse ++ Draft.wordsOfAll u.parts.reverse) ++ u.rest = ws := by
      rw [List.append_assoc, hu]
      exact h
    cases scope with
    | node kind =>
      refine ⟨t.rest, rfl, fun u hu => ?_⟩
      change Draft.wordsOfAll (Piece.node (.node kind u.parts.reverse) :: t.parts).reverse ++
        u.rest = ws
      simpa [Draft.wordsOfAll, Draft.words] using hinner hu
    | wrap kind =>
      refine ⟨t.rest, rfl, fun u hu => ?_⟩
      change Draft.wordsOfAll (putAround kind u.parts t.parts).reverse ++ u.rest = ws
      rw [wordsOfAll_putAround]
      exact hinner hu
    | stopAt kinds => exact ⟨ws, h, fun u hu => hu⟩
    | nested => exact ⟨ws, h, fun u hu => hu⟩
    | measured => exact ⟨ws, h, fun u hu => hu⟩

end Sketch

end Parsing

end CRBasic
