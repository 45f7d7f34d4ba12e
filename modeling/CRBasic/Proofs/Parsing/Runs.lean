import CRBasic.Proofs.Parsing.Fuel
import CRBasic.Proofs.Parsing.Sketch

/-!
# Runs taken apart

A run of a script is taken apart as the script is built (`run_bind_iff` and so on), and a repetition
round by round (`repeatStep_induction`).  Every run of sketches goes on from its
first sketch (`goesOn_of_run`): it takes words from the front of the rest, adds to the reports, and
leaves the surroundings as they are.
-/

namespace CRBasic

namespace Parsing

namespace Script

section

variable {σ Mark : Type} [Machine σ Mark] {call : Rule → σ → Option σ} {fuel : Nat} {α β : Type}
  {s t u : σ}

theorem run_pure_iff {a b : α} :
    (pure a : Script α).run call fuel s = some (b, t) ↔ b = a ∧ t = s := by
  change some (a, s) = some (b, t) ↔ _
  simp [eq_comm]

theorem run_bind_iff {x : Script α} {f : α → Script β} {b : β} :
    (x >>= f).run call fuel s = some (b, u) ↔
      ∃ a t, x.run call fuel s = some (a, t) ∧ (f a).run call fuel t = some (b, u) := by
  have hrun : (x >>= f).run call fuel s =
      (x.run call fuel s).bind fun r => (f r.1).run call fuel r.2 := run_bind call fuel x f s
  rw [hrun, Option.bind_eq_some_iff]
  simp only [Prod.exists]

theorem run_ask_bind {q : Query α} {f : α → Script β} :
    (Script.ask q .done >>= f).run call fuel s = (f (Machine.answer s q)).run call fuel s := rfl

theorem run_act_bind {a : Action} {f : Unit → Script β} :
    (Script.act a .done >>= f).run call fuel s =
      (f ()).run call fuel (Machine.perform s a) := rfl

theorem run_act_iff {a : Action} :
    (Script.act a .done).run call fuel s = some ((), t) ↔ t = Machine.perform s a := by
  change some ((), Machine.perform s a) = some ((), t) ↔ _
  simp [eq_comm]

theorem run_within_iff {scope : Scope} {body : Script α} {a : α} :
    (within scope body).run call fuel s = some (a, t) ↔
      ∃ u, body.run call fuel (Machine.begin s scope).2 = some (a, u) ∧
        t = Machine.leave u (Machine.begin s scope).1 scope := by
  simp only [within, run]
  split
  · next h => simp [h]
  · next b u h => simp [h, and_assoc, eq_comm]

theorem run_call_iff {rule : Rule} :
    (Script.call rule .done).run call fuel s = some ((), t) ↔ call rule s = some t := by
  simp only [run]
  split
  · next h => simp [h]
  · next u h => simp [h]

/-- The run of a rule is the run of its script on less fuel. -/
theorem run_of_runRule {script : Rule → Script Unit} {n : Nat} {rule : Rule}
    (h : runRule script (n + 1) rule s = some t) :
    (script rule).run (runRule script n) n s = some ((), t) := by
  rw [runRule] at h
  split at h
  · cases h
  · next u hu =>
    cases h
    exact hu

theorem run_collect_iff {item : Script (Option β)} {bs : List β} :
    (collect item).run call fuel s = some (bs, t) ↔
      repeatStep (item.run call fuel) fuel s = some (bs, t) := by
  simp only [collect, run]
  split
  · next h => simp [h]
  · next cs u h => simp [h]

/-- A repetition ends with a round without a result, or starts with one that has a result. -/
theorem repeatStep_induction {step : σ → Option (Option β × σ)}
    {P : Nat → σ → List β → σ → Prop}
    (hnil : ∀ n s t, step s = some (none, t) → P (n + 1) s [] t)
    (hcons : ∀ n s b u bs t, step s = some (some b, u) → repeatStep step n u = some (bs, t) →
      P n u bs t → P (n + 1) s (b :: bs) t)
    {n : Nat} {bs : List β} (h : repeatStep step n s = some (bs, t)) : P n s bs t := by
  induction n generalizing s bs with
  | zero => simp [repeatStep] at h
  | succ n ih =>
    rw [repeatStep] at h
    split at h
    · cases h
    · next v hv =>
      cases h
      exact hnil n s t hv
    · next b v hv =>
      split at h
      · cases h
      · next cs w hw =>
        cases h
        exact hcons n s b v cs t hv hw (ih hw)

/-! ### Loops -/

/-- One round of a loop. -/
def round (test : Script Bool) (body : Script Unit) : Script (Option Unit) := do
  if ← test then
    body
    return some ()
  else return none

variable {test : Script Bool} {body : Script Unit}

theorem run_whileM_iff : (whileM test body).run call fuel s = some ((), t) ↔
    ∃ us, repeatStep ((round test body).run call fuel) fuel s = some (us, t) := by
  change (collect (round test body) >>= fun _ => pure ()).run call fuel s = some ((), t) ↔ _
  simp only [run_bind_iff, run_collect_iff, run_pure_iff, true_and, exists_eq_right']

theorem run_round_of_false (h : test.run call fuel s = some (false, s)) :
    (round test body).run call fuel s = some (none, s) :=
  run_bind_iff.2 ⟨false, s, h, rfl⟩

theorem run_round_of_true (h : test.run call fuel s = some (true, s))
    (hbody : body.run call fuel s = some ((), t)) :
    (round test body).run call fuel s = some (some (), t) :=
  run_bind_iff.2 ⟨true, s, h, run_bind_iff.2 ⟨(), t, hbody, rfl⟩⟩

/-- A loop whose test only asks ends where the test fails, or starts with its body. -/
theorem rounds_induction {p : σ → Bool} (htest : ∀ s, test.run call fuel s = some (p s, s))
    {P : Nat → σ → σ → Prop} (hstop : ∀ n s, p s = false → P (n + 1) s s)
    (hgo : ∀ n s u us t, p s = true → body.run call fuel s = some ((), u) →
      repeatStep ((round test body).run call fuel) n u = some (us, t) → P n u t → P (n + 1) s t)
    {n : Nat} {us : List Unit}
    (h : repeatStep ((round test body).run call fuel) n s = some (us, t)) : P n s t := by
  refine repeatStep_induction (P := fun n s _ t => P n s t) ?_ ?_ h
  · intro n s t hst
    obtain ⟨c, u, hu, hround⟩ := run_bind_iff.1 hst
    obtain ⟨rfl, rfl⟩ : c = p s ∧ u = s := by simpa [htest, eq_comm] using hu
    cases hp : p u with
    | false =>
      rw [hp] at hround
      obtain ⟨-, rfl⟩ := run_pure_iff.1 hround
      exact hstop n t hp
    | true =>
      rw [hp] at hround
      obtain ⟨_, v, -, hround⟩ := run_bind_iff.1 hround
      cases (run_pure_iff.1 hround).1
  · intro n s _ u us t hsu hut ih
    obtain ⟨c, v, hv, hround⟩ := run_bind_iff.1 hsu
    obtain ⟨rfl, rfl⟩ : c = p s ∧ v = s := by simpa [htest, eq_comm] using hv
    cases hp : p v with
    | false =>
      rw [hp] at hround
      cases (run_pure_iff.1 hround).1
    | true =>
      rw [hp] at hround
      obtain ⟨_, w, hw, hround⟩ := run_bind_iff.1 hround
      obtain ⟨-, rfl⟩ := run_pure_iff.1 hround
      exact hgo n v u us t hp hw hut ih

end

end Script

/-! ### What is next -/

namespace Reading

variable {s : Reading} {k : TokenKind}

theorem current_of_onLine (h : s.onLine = some k) : s.current = some k := by
  rw [onLine] at h
  split at h
  · cases h
  · next w ws hrest =>
    split at h
    · cases h
    · rw [current, hrest]
      exact h

theorem exists_rest (h : s.current = some k) : ∃ w ws, s.rest = w :: ws ∧ w.kind = k := by
  obtain ⟨w, hw, hk⟩ := Option.map_eq_some_iff.1 h
  obtain ⟨ws, hws⟩ := List.head?_eq_some_iff.1 hw
  exact ⟨w, ws, hws, hk⟩

theorem ne_nil_of_current (h : s.current = some k) : s.rest ≠ [] := by
  obtain ⟨w, ws, hrest, -⟩ := exists_rest h
  simp [hrest]

theorem ne_nil_of_onLine (h : s.onLine = some k) : s.rest ≠ [] :=
  ne_nil_of_current (current_of_onLine h)

theorem current_eq_none : s.current = none ↔ s.rest = [] := by
  rw [current, Option.map_eq_none_iff, List.head?_eq_none_iff]

end Reading

theorem Sketch.take_eq {s : Sketch} {w : Word} {ws : List Word} (h : s.rest = w :: ws) :
    s.take = { s with rest := ws, taken := s.taken + 1, parts := .word w :: s.parts } := by
  rw [take, h]

theorem Sketch.onLine_take {s : Sketch} {k : TokenKind} (h : s.secondOnLine = some k) :
    s.take.onLine = some k := by
  rw [Reading.secondOnLine] at h
  split at h
  · next w v ws hrest =>
    rw [take_eq hrest]
    exact h
  · cases h

/-! ### What runs of sketches keep -/

/-- A reading goes on from an earlier one: the surroundings are the same, words have been taken from
the front of the rest, and reports have been added. -/
structure Reading.GoesOn (s t : Reading) : Prop where
  options : t.options = s.options
  frames : t.frames = s.frames
  depth : t.depth = s.depth
  origins : t.origins = s.origins
  rest : t.rest <:+ s.rest
  taken : t.taken + t.rest.length = s.taken + s.rest.length
  reports : s.reports.toList <+: t.reports.toList

namespace Reading.GoesOn

variable {s t u : Reading}

theorem refl (s : Reading) : s.GoesOn s :=
  ⟨rfl, rfl, rfl, rfl, List.suffix_refl _, rfl, List.prefix_refl _⟩

theorem trans (h : s.GoesOn t) (h' : t.GoesOn u) : s.GoesOn u :=
  ⟨h'.options.trans h.options, h'.frames.trans h.frames, h'.depth.trans h.depth,
    h'.origins.trans h.origins, h'.rest.trans h.rest, h'.taken.trans h.taken,
    h.reports.trans h'.reports⟩

theorem report (h : s.GoesOn t) (place : Place) (cause : Cause) :
    s.GoesOn (t.report place cause) := by
  rw [Reading.report]
  split
  · exact h
  · refine ⟨h.options, h.frames, h.depth, h.origins, h.rest, h.taken, ?_⟩
    simpa using h.reports.trans (List.prefix_append _ _)

theorem taken_le (h : s.GoesOn t) : s.taken ≤ t.taken := by
  have := h.rest.length_le
  have := h.taken
  omega

/-- What is left of some words is counted as what has been taken of them. -/
theorem rest_eq_drop {words : List Word} (h : s.GoesOn t) (hs : s.rest = words.drop s.taken) :
    t.rest = words.drop t.taken := by
  have hle := h.taken_le
  have htaken := h.taken
  have hrest := List.suffix_iff_eq_drop.1 h.rest
  have hcount : s.rest.length - t.rest.length = t.taken - s.taken := by
    have := h.rest.length_le
    omega
  rw [hrest, hcount, hs, List.drop_drop, Nat.add_sub_of_le hle]

theorem reports_eq_nil (h : s.GoesOn t) (ht : t.reports = #[]) : s.reports = #[] := by
  have := h.reports
  simpa [ht] using this

end Reading.GoesOn

namespace Sketch

theorem goesOn_take {i : Reading} {s : Sketch} (h : i.GoesOn s.toReading) :
    i.GoesOn s.take.toReading := by
  rw [take]
  split
  · exact h
  · next w rest hrest =>
    refine ⟨h.options, h.frames, h.depth, h.origins, ?_, ?_, h.reports⟩
    · exact (hrest ▸ List.suffix_cons w rest).trans h.rest
    · have := h.taken
      rw [hrest, List.length_cons] at this
      dsimp only
      omega

/-- Every step of a sketch goes on from where its run started. -/
theorem kept_goesOn : Kept fun (i : Reading) (s : Sketch) => i.GoesOn s.toReading where
  perform {i s} a h := by
    cases a with
    | take => exact goesOn_take h
    | report place cause => exact h.report place cause
    | silence => exact ⟨h.options, h.frames, h.depth, h.origins, h.rest, h.taken, h.reports⟩
    | listen => exact ⟨h.options, h.frames, h.depth, h.origins, h.rest, h.taken, h.reports⟩
  stretch {i s} scope h := by
    obtain ⟨hoptions, hframes, hdepth, horigins, hrest, htaken, hreports⟩ := h
    cases scope with
    | node kind => exact ⟨i, ⟨hoptions, hframes, hdepth, horigins, hrest, htaken, hreports⟩, fun _ => id⟩
    | wrap kind => exact ⟨i, ⟨hoptions, hframes, hdepth, horigins, hrest, htaken, hreports⟩, fun _ => id⟩
    | stopAt kinds =>
      refine ⟨{ i with frames := kinds :: i.frames },
        ⟨hoptions, congrArg (kinds :: ·) hframes, hdepth, horigins, hrest, htaken, hreports⟩, fun t ht => ?_⟩
      exact ⟨ht.options, congrArg List.tail ht.frames, ht.depth, ht.origins, ht.rest, ht.taken,
        ht.reports⟩
    | nested =>
      refine ⟨{ i with depth := i.depth + 1 },
        ⟨hoptions, hframes, congrArg (· + 1) hdepth, horigins, hrest, htaken, hreports⟩,
        fun t ht => ?_⟩
      exact ⟨ht.options, ht.frames, congrArg (· - 1) ht.depth, ht.origins, ht.rest, ht.taken,
        ht.reports⟩
    | measured =>
      refine ⟨{ i with origins := s.taken :: i.origins },
        ⟨hoptions, hframes, hdepth, congrArg (s.taken :: ·) horigins, hrest, htaken, hreports⟩, fun t ht => ?_⟩
      exact ⟨ht.options, ht.frames, ht.depth, congrArg List.tail ht.origins, ht.rest, ht.taken,
        ht.reports⟩

variable {script : Rule → Script Unit} {fuel : Nat} {α β : Type} {x : Script α} {s t : Sketch}
  {a : α}

theorem goesOn_of_run (h : x.run (Script.runRule script fuel) fuel s = some (a, t)) :
    s.toReading.GoesOn t.toReading :=
  kept_goesOn.run (Reading.GoesOn.refl _) h kept_goesOn.runRule

theorem goesOn_of_rounds {item : Script (Option β)} {n : Nat} {bs : List β}
    (h : Script.repeatStep (item.run (Script.runRule script fuel) fuel) n s = some (bs, t)) :
    s.toReading.GoesOn t.toReading := by
  refine Script.repeatStep_induction
    (P := fun _ (s : Sketch) _ (t : Sketch) => s.toReading.GoesOn t.toReading) ?_ ?_ h
  · exact fun _ s t hst => goesOn_of_run hst
  · exact fun _ s b u bs t hsu _ hut => (goesOn_of_run hsu).trans hut

/-- Parts that end with a word stay as they are: nodes are put around nodes only. -/
theorem kept_parts : Kept fun (ps : List (Piece Draft)) (s : Sketch) =>
    ps <:+ s.parts ∧ ∀ d before, ps ≠ .node d :: before where
  perform {ps s} a h := by
    cases a with
    | take =>
      change ps <:+ s.take.parts ∧ _
      rw [take]
      split
      · exact h
      · exact ⟨h.1.trans (List.suffix_cons _ _), h.2⟩
    | report place cause => exact h
    | silence => exact h
    | listen => exact h
  stretch {ps s} scope h := by
    cases scope with
    | node kind =>
      exact ⟨[], ⟨List.nil_suffix, by simp⟩, fun _ _ => ⟨h.1.trans (List.suffix_cons _ _), h.2⟩⟩
    | wrap kind =>
      refine ⟨[], ⟨List.nil_suffix, by simp⟩, fun t _ => ⟨?_, h.2⟩⟩
      change ps <:+ putAround kind t.parts s.parts
      unfold putAround
      split
      · next d before hparts =>
        have hps := h.1
        rw [hparts, List.suffix_cons_iff] at hps
        exact (hps.resolve_left (h.2 d before)).trans (List.suffix_cons _ _)
      · exact h.1.trans (List.suffix_cons _ _)
    | stopAt kinds => exact ⟨ps, h, fun _ => id⟩
    | nested => exact ⟨ps, h, fun _ => id⟩
    | measured => exact ⟨ps, h, fun _ => id⟩

/-- A report that is not passed over stays. -/
theorem reports_ne_nil {place : Place} {cause : Cause} {f : Unit → Script α}
    (hs : s.silenced = false)
    (hrun : (Script.report place cause >>= f).run (Script.runRule script fuel) fuel s = some (a, t)) :
    t.reports ≠ #[] := by
  intro ht
  have hreports := (goesOn_of_run (x := f ()) hrun).reports_eq_nil ht
  change (s.toReading.report place cause).reports = #[] at hreports
  simp [Reading.report, hs] at hreports

end Sketch

end Parsing

end CRBasic
