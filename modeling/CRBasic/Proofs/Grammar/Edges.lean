import CRBasic.Grammar.Statement
import CRBasic.Proofs.Parsing.Putting
import CRBasic.Proofs.Parsing.Runs

/-!
# Edges of arguments

The edges of an argument list and of its arguments are found while the list is read: each starts where
a word was next, and ends behind the words taken, at a place between the start and the end of the run
(`among_argumentList`).  An argument counts as a name by the two words that were next at its start.
-/

namespace CRBasic

/-- Some words start with a name on the line that a comma or a closing parenthesis follows there. -/
def Word.closedName : List Word → Bool
  | w :: x :: _ => !w.startsLine && w.kind == .ident && !x.startsLine &&
      (x.kind == .comma || x.kind == .rParen)
  | _ => false

theorem Word.closedName_iff {ws : List Word} : closedName ws = true ↔ ∃ w x more, ws = w :: x :: more ∧
    w.startsLine = false ∧ w.kind = .ident ∧ x.startsLine = false ∧ (x.kind = .comma ∨ x.kind = .rParen) := by
  rcases ws with - | ⟨w, - | ⟨x, more⟩⟩ <;> simp [closedName, and_assoc]

namespace Grammar

open Parsing Parsing.Script

/-- What an argument looks ahead for. -/
theorem closedName_rest (s : Reading) : Word.closedName s.rest =
    (s.onLine == some .ident && (s.secondOnLine == some .comma || s.secondOnLine == some .rParen)) := by
  rw [Reading.onLine, Reading.secondOnLine]
  rcases s.rest with - | ⟨w, - | ⟨x, ws⟩⟩
  · rfl
  · simp [Word.closedName]
  · cases hw : w.startsLine <;> cases hx : x.startsLine <;> simp [Word.closedName, hw, hx]

/-- An edge is the answer to a question that was asked between two readings. -/
def Asked (s t : Reading) (q : Query Edge) (e : Edge) : Prop :=
  ∃ u : Reading, s.GoesOn u ∧ u.GoesOn t ∧ e = u.answer q

/-- The edges of an argument were found between two readings, and whether it is a name at its start. -/
structure Argument.Among (s t : Reading) (a : Argument) : Prop where
  begun : ∃ u : Reading, s.GoesOn u ∧ u.GoesOn t ∧ a.start = u.answer .here ∧
    a.isName = Word.closedName u.rest
  stop : Asked s t .behind a.stop

theorem Argument.Among.start {s t : Reading} {a : Argument} (h : a.Among s t) :
    Asked s t .here a.start := by
  obtain ⟨u, hsu, hut, hstart, -⟩ := h.begun
  exact ⟨u, hsu, hut, hstart⟩

/-- The edges of an argument list and of its arguments were found between two readings. -/
structure Arguments.Among (s t : Reading) (args : Arguments) : Prop where
  start : Asked s t .here args.start
  stop : Asked s t .behind args.stop
  items : ∀ a ∈ args.items, a.Among s t

section

variable {s t s' t' : Reading} {q : Query Edge} {e : Edge}

theorem Asked.mono (h : Asked s t q e) (hs : s'.GoesOn s) (ht : t.GoesOn t') : Asked s' t' q e := by
  obtain ⟨u, hsu, hut, he⟩ := h
  exact ⟨u, hs.trans hsu, hut.trans ht, he⟩

theorem Argument.Among.mono {a : Argument} (h : a.Among s t) (hs : s'.GoesOn s) (ht : t.GoesOn t') :
    a.Among s' t' := by
  obtain ⟨u, hsu, hut, hu⟩ := h.begun
  exact ⟨⟨u, hs.trans hsu, hut.trans ht, hu⟩, h.stop.mono hs ht⟩

end

variable {fuel : Nat} {s t : Sketch}

/-- An argument is an expression between two edges; whether it is a name is told before it. -/
theorem run_argument {a : Argument} (hrun : argument.run (runRule script fuel) fuel s = some (a, t)) :
    expression.run (runRule script fuel) fuel s = some ((), t) ∧
      a = ⟨s.answer .here, t.answer .behind, Word.closedName s.rest⟩ := by
  have hrun : (expression >>= fun _ => behind >>= fun stop => pure
      ⟨s.answer .here, stop, s.onLine == some .ident &&
        (s.secondOnLine == some .comma || s.secondOnLine == some .rParen)⟩).run
      (runRule script fuel) fuel s = some (a, t) := hrun
  obtain ⟨_, u, hu, hrun⟩ := run_bind_iff.1 hrun
  rw [behind, run_ask_bind, ← closedName_rest] at hrun
  obtain ⟨rfl, rfl⟩ := run_pure_iff.1 hrun
  exact ⟨hu, rfl⟩

theorem among_argument {a : Argument} (hrun : argument.run (runRule script fuel) fuel s = some (a, t)) :
    a.Among s.toReading t.toReading := by
  obtain ⟨hexpression, rfl⟩ := run_argument hrun
  have hgoes := Sketch.goesOn_of_run hexpression
  exact ⟨⟨s.toReading, .refl _, hgoes, rfl, rfl⟩, t.toReading, hgoes, .refl _, rfl⟩

theorem among_separated {items : List Argument}
    (hrun : (separated argument).run (runRule script fuel) fuel s = some (items, t)) :
    ∀ a ∈ items, a.Among s.toReading t.toReading := by
  obtain ⟨first, u, hfirst, hrun⟩ := run_bind_iff.1 hrun
  obtain ⟨more, v, hmore, hrun⟩ := run_bind_iff.1 hrun
  obtain ⟨rfl, rfl⟩ := run_pure_iff.1 hrun
  have hsu := Sketch.goesOn_of_run hfirst
  rw [run_collect_iff] at hmore
  have hut := Sketch.goesOn_of_rounds hmore
  have hall := repeatStep_induction (P := fun _ (s : Sketch) items (t : Sketch) =>
    s.toReading.GoesOn t.toReading → ∀ a ∈ items, a.Among s.toReading t.toReading) ?_ ?_ hmore hut
  · intro a ha
    rcases List.mem_cons.1 ha with rfl | ha
    · exact (among_argument hfirst).mono (.refl _) hut
    · exact (hall a ha).mono hsu (.refl _)
  · exact fun _ _ _ _ _ a ha => by cases ha
  · intro n s a u items t hround hrest ih hst
    have hsu := Sketch.goesOn_of_run hround
    have hut := Sketch.goesOn_of_rounds hrest
    obtain ⟨c, s', hcomma, hround⟩ := run_bind_iff.1 hround
    cases c with
    | false => cases (run_pure_iff.1 hround).1
    | true =>
      obtain ⟨b, v, hb, hround⟩ := run_bind_iff.1 hround
      obtain ⟨hab, rfl⟩ := run_pure_iff.1 hround
      cases hab
      intro b' hb'
      rcases List.mem_cons.1 hb' with rfl | hb'
      · exact (among_argument hb).mono (Sketch.goesOn_of_run hcomma) hut
      · exact (ih hut b' hb').mono hsu (.refl _)

theorem among_argumentList {args : Arguments}
    (hrun : argumentList.run (runRule script fuel) fuel s = some (args, t)) :
    args.Among s.toReading t.toReading := by
  obtain ⟨u, hu, rfl⟩ := run_within_iff.1 hrun
  change args.Among s.fresh.toReading u.toReading
  have hgoes := Sketch.goesOn_of_run hu
  rw [here, run_ask_bind] at hu
  have hclose {w : Sketch} {items : List Argument} (hw : s.fresh.toReading.GoesOn w.toReading)
      (hitems : ∀ a ∈ items, a.Among s.fresh.toReading w.toReading)
      (hrun : (do
        want .rParen
        let stop ← behind
        return (⟨s.fresh.answer .here, stop, items⟩ : Arguments)).run (runRule script fuel) fuel w =
          some (args, u)) : args.Among s.fresh.toReading u.toReading := by
    have hwu := Sketch.goesOn_of_run hrun
    obtain ⟨_, w', hw', hrun⟩ := run_bind_iff.1 hrun
    rw [behind, run_ask_bind] at hrun
    obtain ⟨rfl, rfl⟩ := run_pure_iff.1 hrun
    exact ⟨⟨s.fresh.toReading, .refl _, hgoes, rfl⟩, ⟨u.toReading, hgoes, .refl _, rfl⟩,
      fun a ha => (hitems a ha).mono (.refl _) hwu⟩
  obtain ⟨_, v, hv, hu⟩ := run_bind_iff.1 hu
  have hsv := Sketch.goesOn_of_run hv
  rw [onLine, run_ask_bind] at hu
  split at hu
  · obtain ⟨items, w, hw, hu⟩ := run_bind_iff.1 hu
    obtain ⟨rfl, rfl⟩ := run_pure_iff.1 hw
    exact hclose hsv (by simp) hu
  · obtain ⟨items, w, hw, hu⟩ := run_bind_iff.1 hu
    exact hclose (hsv.trans (Sketch.goesOn_of_run hw))
      (fun a ha => (among_separated hw a ha).mono hsv (.refl _)) hu

end Grammar

end CRBasic
