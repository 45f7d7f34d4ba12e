import CRBasic.Proofs.Embedding.Headers

/-!
# Sketches that follow states

A sketch reads as a state does whatever nodes are open and whatever problems have been found before
(`Sketch.Follows`).  So what is known of the runs of sketches holds of the runs of states, from any state
on (`State.goesOn_of_yields`).
-/

namespace CRBasic

namespace Parsing

open Script Grammar

/-! ### What single steps change -/

theorem State.begin_reading (s : State) (scope : Scope) :
    (Machine.begin s scope).2.toReading = s.toReading.enter scope := by
  cases scope with
  | wrap kind =>
    change s.openAround.toReading = s.toReading
    unfold State.openAround
    split <;> rfl
  | _ => rfl

theorem State.leave_reading (s : State) (mark : Nat) (scope : Scope) :
    (Machine.leave s mark scope).toReading = s.toReading.leave scope := by
  cases scope <;> rfl

theorem Sketch.begin_reading (s : Sketch) (scope : Scope) :
    (Machine.begin s scope).2.toReading = s.toReading.enter scope := by
  cases scope <;> rfl

theorem Sketch.leave_reading (s : Sketch) (mark : List (Piece Draft)) (scope : Scope) :
    (Machine.leave s mark scope).toReading = s.toReading.leave scope := by
  cases scope <;> rfl

theorem State.frames_perform (s : State) (a : Action) : (s.perform a).frames = s.frames := by
  cases a with
  | take =>
    change s.take.frames = s.frames
    rw [State.take]
    split <;> rfl
  | report place cause => exact s.toReading.frames_report place cause
  | silence | listen => rfl

/-! ### Problems that have been found before -/

/-- What has been read and found where other problems had been found before. -/
def Reading.after (before : Array Report) (s : Reading) : Reading :=
  { s with reports := before ++ s.reports }

theorem Reading.report_after (before : Array Report) (s : Reading) (place : Place) (cause : Cause) :
    (s.after before).report place cause = (s.report place cause).after before := by
  have hedges : (s.after before).edges place = s.edges place := by cases place <;> rfl
  unfold Reading.report
  rw [hedges]
  change (if s.silenced then _ else _) = _
  split
  · rfl
  · simp [Reading.after]

/-- A sketch reads as a state does, and has found its problems but for the given first ones. -/
def Sketch.Follows (before : Array Report) (s : State) (t : Sketch) : Prop :=
  s.toReading = t.toReading.after before

namespace Sketch.Follows

variable {before : Array Report} {s : State} {t : Sketch}

theorem map (h : Follows before s t) (f : Reading → Reading)
    (hf : ∀ r : Reading, f (r.after before) = (f r).after before) :
    f s.toReading = (f t.toReading).after before := by
  rw [show s.toReading = _ from h, hf]

theorem perform (h : Follows before s t) (a : Action) :
    Follows before (s.perform a) (t.perform a) := by
  cases a with
  | take =>
    have hreading : s.toReading = t.toReading.after before := h
    have hrest : t.rest = s.rest := by
      rw [hreading]
      rfl
    change s.take.toReading = t.take.toReading.after before
    rw [State.take, Sketch.take, hrest]
    cases s.rest with
    | nil => exact h
    | cons w rest => simp only [hreading, Reading.after]
  | report place cause => exact h.map (·.report place cause) fun r => r.report_after before place cause
  | silence => exact h.map (fun r => { r with silenced := true }) fun _ => rfl
  | listen => exact h.map (fun r => { r with silenced := false }) fun _ => rfl

/-- Sketches that follow take every step as states do. -/
theorem simulation : Simulation Follows where
  answer {before s t _} q h := by
    change t.toReading.answer q = s.toReading.answer q
    rw [show s.toReading = _ from h]
    cases q <;> rfl
  perform a h := h.perform a
  stretch {before s t} scope h := by
    refine ⟨before, ?_, fun u v huv => ?_⟩
    · rw [Follows, State.begin_reading, Sketch.begin_reading]
      exact h.map (·.enter scope) fun _ => by cases scope <;> rfl
    · rw [Follows, State.leave_reading, Sketch.leave_reading]
      exact huv.map (·.leave scope) fun _ => by cases scope <;> rfl

theorem initial (options : ParseOptions) (words : List Word) :
    Follows #[] (State.initial options words) (Sketch.initial options words) := by
  simp [Follows, Reading.after, State.initial, Sketch.initial]

/-- A sketch of which nothing is known but what a state has read and found. -/
theorem ofReading (s : State) : Follows #[] s ⟨s.toReading, []⟩ := by
  simp [Follows, Reading.after]

theorem reading_eq (h : Follows #[] s t) : s.toReading = t.toReading := by
  rw [show s.toReading = _ from h]
  simp [Reading.after]

theorem yields {α : Type} {x : Script α} {a : α} {u : State} (h : Follows before s t)
    (hrun : Yields script x s a u) : ∃ v, Yields script x t a v ∧ Follows before u v := by
  obtain ⟨fuel, hrun⟩ := hrun
  obtain ⟨v, hv, huv⟩ := simulation.run h hrun simulation.runRule
  exact ⟨v, ⟨fuel, hv⟩, huv⟩

end Sketch.Follows

/-- What a script yields from a state goes on from there. -/
theorem State.goesOn_of_yields {α : Type} {x : Script α} {a : α} {s t : State}
    (h : Yields script x s a t) : s.toReading.GoesOn t.toReading := by
  obtain ⟨v, hv, hfollows⟩ := (Sketch.Follows.ofReading s).yields h
  rw [hfollows.reading_eq]
  exact hv.goesOn

end Parsing

end CRBasic
