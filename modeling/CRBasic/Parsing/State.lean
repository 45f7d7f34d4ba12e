import CRBasic.Parsing.Event
import CRBasic.Parsing.Reading

/-!
# The state of a parse

What a parse keeps between two steps: what it has read and found, and the events so far.
-/

namespace CRBasic

namespace Parsing

/-- A stage of a parse. -/
structure State extends Reading where
  /-- The events so far. -/
  events : Array Event := #[]
  /-- Where the node that ended last has its start event, while nothing follows the node. -/
  latest : Option Nat := none

namespace State

/-- The state before the first word. -/
def initial (options : ParseOptions) (words : List Word) : State := { options, rest := words }

/-! ### Actions -/

/-- Takes the next word into the open node. -/
def take (s : State) : State :=
  match s.rest with
  | [] => s
  | w :: rest =>
    { s with rest, taken := s.taken + 1, events := s.events.push (.token w.kind), latest := none }

/-- The state after an action. -/
def perform (s : State) : Action → State
  | .take => s.take
  | .report place cause => { s with toReading := s.toReading.report place cause }
  | .silence => { s with silenced := true }
  | .listen => { s with silenced := false }

/-! ### Scopes -/

/-- Keeps a place for the start of a node. -/
def openNode (s : State) : State := { s with events := s.events.push .hole, latest := none }

/-- Keeps a place for the start of a node around the one that ended last. -/
def openAround (s : State) : State :=
  match s.latest with
  | none => s.openNode
  | some i => { s with events := Event.openParent s.events i, latest := none }

/-- Ends the node whose start has its place at `i`. -/
def closeNode (s : State) (i : Nat) (kind : NodeKind) : State :=
  { s with events := Event.close s.events i kind, latest := some i }

/-- The state at the start of a stretch. -/
def enter (s : State) : Scope → State
  | .node _ => s.openNode
  | .wrap _ => s.openAround
  | scope => { s with toReading := s.toReading.enter scope }

/-- The number of events before a stretch, and the state at its start. -/
@[noinline] def begin (s : State) (scope : Scope) : Nat × State := (s.events.size, s.enter scope)

/-- The state after a stretch that started when there were `i` events. -/
def leave (s : State) (i : Nat) : Scope → State
  | .node kind => s.closeNode i kind
  | .wrap kind => s.closeNode i kind
  | scope => { s with toReading := s.toReading.leave scope }

instance : Machine State Nat where
  answer s q := s.toReading.answer q
  perform := perform
  begin := begin
  leave := leave

end State

end Parsing

end CRBasic
