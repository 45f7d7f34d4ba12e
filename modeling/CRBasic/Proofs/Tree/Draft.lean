import CRBasic.Parsing.Event
import CRBasic.Parsing.Word
import CRBasic.Tree.Node

/-!
# Drafts

A draft is what the events of a node say about it: the words and nodes that it is made of, and which
nodes were put around a node after that node had ended.  The events of a draft hold the latter as
pointers; its tree nests the nodes.
-/

namespace CRBasic

/-- A part of a node: a word, or a node itself. -/
inductive Piece (α : Type) where
  | word (w : Word)
  | node (d : α)

/-- A node before blanks and comments are placed. -/
inductive Draft where
  /-- A node that starts before its parts. -/
  | node (kind : NodeKind) (parts : List (Piece Draft))
  /-- A node that starts around another one after that one has ended. -/
  | around (kind : NodeKind) (first : Draft) (parts : List (Piece Draft))

namespace Draft

/-! ### Events -/

mutual

/-- The number of events of a draft. -/
def size : Draft → Nat
  | node _ parts => sizeOfAll parts + 2
  | around _ first parts => first.size + (sizeOfAll parts + 2)

/-- The number of events of some parts. -/
def sizeOfAll : List (Piece Draft) → Nat
  | [] => 0
  | .word _ :: ps => sizeOfAll ps + 1
  | .node d :: ps => d.size + sizeOfAll ps

end

/-- The number of events from the start of a draft on. -/
def reach : Draft → Nat
  | node _ parts => sizeOfAll parts + 2
  | around _ _ parts => sizeOfAll parts + 2

/-- The number of events before the start of a draft: those of the node that it is put around. -/
def place : Draft → Nat
  | node _ _ => 0
  | around _ first _ => first.size

/-- The pointer from the start of a draft to that of a node right after the draft. -/
def link (linked : Bool) (reach : Nat) : Option Nat := if linked then some reach else none

mutual

/-- The events of a draft.  If it is linked, its parent starts right after it. -/
def events (linked : Bool) : Draft → List Event
  | node kind parts =>
    .start kind (link linked (sizeOfAll parts + 2)) :: (eventsOfAll parts ++ [.finish])
  | around kind first parts =>
    first.events true ++
      .start kind (link linked (sizeOfAll parts + 2)) :: (eventsOfAll parts ++ [.finish])

/-- The events of some parts. -/
def eventsOfAll : List (Piece Draft) → List Event
  | [] => []
  | .word w :: ps => .token w.kind :: eventsOfAll ps
  | .node d :: ps => d.events false ++ eventsOfAll ps

end

/-! ### Trees -/

mutual

/-- The words of a draft. -/
def words : Draft → List Word
  | node _ parts => wordsOfAll parts
  | around _ first parts => first.words ++ wordsOfAll parts

/-- The words of some parts. -/
def wordsOfAll : List (Piece Draft) → List Word
  | [] => []
  | .word w :: ps => w :: wordsOfAll ps
  | .node d :: ps => d.words ++ wordsOfAll ps

end

mutual

/-- The tree of a draft, without blanks, line breaks and comments. -/
def tree : Draft → Tree
  | node kind parts => .node kind (treesOfAll parts)
  | around kind first parts => .node kind (first.tree :: treesOfAll parts)

/-- The trees of some parts. -/
def treesOfAll : List (Piece Draft) → List Tree
  | [] => []
  | .word w :: ps => .leaf w.kind w.text :: treesOfAll ps
  | .node d :: ps => d.tree :: treesOfAll ps

end

/-- The kind of a draft's node. -/
def kind : Draft → NodeKind
  | node kind _ => kind
  | around kind _ _ => kind

/-! ### Lengths and places -/

theorem place_add_reach (d : Draft) : d.place + d.reach = d.size := by
  cases d <;> simp [place, reach, size]

mutual

@[simp] theorem length_events (linked : Bool) : ∀ d : Draft, (d.events linked).length = d.size
  | node kind parts => by
    have := length_eventsOfAll parts
    simp [events, size, this]
  | around kind first parts => by
    have := length_events true first
    have := length_eventsOfAll parts
    simp_all [events, size]

@[simp] theorem length_eventsOfAll :
    ∀ parts : List (Piece Draft), (eventsOfAll parts).length = sizeOfAll parts
  | [] => rfl
  | .word w :: ps => by
    have := length_eventsOfAll ps
    simp [eventsOfAll, sizeOfAll, this]
  | .node d :: ps => by
    have := length_events false d
    have := length_eventsOfAll ps
    simp_all [eventsOfAll, sizeOfAll]

end

/-! ### Parts one after the other -/

@[simp] theorem eventsOfAll_append (ps qs : List (Piece Draft)) :
    eventsOfAll (ps ++ qs) = eventsOfAll ps ++ eventsOfAll qs := by
  induction ps with
  | nil => simp [eventsOfAll]
  | cons p ps ih => cases p <;> simp [eventsOfAll, ih]

@[simp] theorem wordsOfAll_append (ps qs : List (Piece Draft)) :
    wordsOfAll (ps ++ qs) = wordsOfAll ps ++ wordsOfAll qs := by
  induction ps with
  | nil => simp [wordsOfAll]
  | cons p ps ih => cases p <;> simp [wordsOfAll, ih]

theorem treesOfAll_append (ps qs : List (Piece Draft)) :
    treesOfAll (ps ++ qs) = treesOfAll ps ++ treesOfAll qs := by
  induction ps with
  | nil => rfl
  | cons p ps ih => cases p <;> simp [treesOfAll, ih]

theorem modify_append_cons {f : Event → Event} (pre post : List Event) (e : Event) {i : Nat}
    (hi : i = pre.length) : (pre ++ e :: post).modify i f = pre ++ f e :: post := by
  subst hi
  induction pre with
  | nil => rfl
  | cons a pre ih => simpa using ih

/-- A draft becomes a linked one when its start is pointed to a node right after the draft. -/
theorem modify_place (pre : List Event) (d : Draft) {i distance : Nat}
    (hi : i = pre.length + d.place) (hdistance : distance = d.reach) :
    (pre ++ d.events false).modify i (Event.withParent distance) = pre ++ d.events true := by
  subst hdistance
  cases d with
  | node kind parts =>
    simp only [events]
    rw [modify_append_cons _ _ _ (by simpa [place] using hi)]
    simp [Event.withParent, link, reach]
  | around kind first parts =>
    simp only [events]
    rw [← List.append_assoc, modify_append_cons _ _ _ (by simpa [place] using hi)]
    simp [Event.withParent, link, reach]

end Draft

end CRBasic
