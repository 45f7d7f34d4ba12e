import CRBasic.Node.Kind

/-!
# Events

Parsing yields a flat list of events, which later becomes a tree.  A node that turns out to be the
first part of a larger one is not moved: its `start` event points forward to the `start` event of
the node around it.
-/

namespace CRBasic

/-- A step of building a tree. -/
inductive Event where
  /-- A node starts.  If a distance is given, the `start` event that many events later is the parent
  of this node, and starts just before it. -/
  | start (kind : NodeKind) (parent? : Option Nat)
  /-- The next word belongs to the innermost node that has not ended. -/
  | token (kind : TokenKind)
  /-- The innermost node ends. -/
  | finish
  /-- A place kept for the start of a node that has not ended. -/
  | hole
  deriving DecidableEq, Repr

namespace Event

/-- Points the start of a node to its parent, which starts the given number of events later. -/
def withParent (distance : Nat) : Event → Event
  | start kind _ => start kind (some distance)
  | e => e

/-- Keeps a place for the parent of the node whose start has its place at `i`. -/
def openParent (events : Array Event) (i : Nat) : Array Event :=
  let distance := events.size - i
  (events.modify i (withParent distance)).push hole

/-- Ends the node whose start has its place at `i`. -/
def close (events : Array Event) (i : Nat) (kind : NodeKind) : Array Event :=
  (events.setIfInBounds i (start kind none)).push finish

end Event

end CRBasic
