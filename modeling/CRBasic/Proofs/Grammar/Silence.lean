import CRBasic.Proofs.Grammar.Lineal

/-!
# Where problems begin to be passed over

On a line, problems begin to be passed over only where an expression is too deep.  So what holds of the
sketches around such an expression, and of larger runs around them (`Tells`), holds of every run on a line
behind which problems are passed over, unless they were so before (`Script.Lineal.reveals`).
-/

namespace CRBasic

open Parsing Parsing.Script

namespace Parsing

/-- A relation of the sketches before and after a run that holds of what is skipped where the nesting is too
deep, and of larger runs around it. -/
structure Tells (R : Sketch → Sketch → Prop) : Prop where
  before {α : Type} {x : Script α} {fuel : Nat} {a : α} {s t u : Sketch}
    (hrun : x.run (runRule Grammar.script fuel) fuel s = some (a, t)) (h : R t u) : R s u
  behind {α : Type} {x : Script α} {fuel : Nat} {a : α} {s t u : Sketch}
    (hrun : x.run (runRule Grammar.script fuel) fuel t = some (a, u)) (h : R s t) : R s u
  within {scope : Scope} {s u : Sketch} (h : R (Machine.begin s scope).2 u) :
    R s (Machine.leave u (Machine.begin s scope).1 scope)
  deep {fuel : Nat} {s t : Sketch} (hloud : s.silenced = false)
    (hrun : Grammar.skipDeepExpression.run (runRule Grammar.script fuel) fuel s = some ((), t)) : R s t

/-- From one sketch to another, problems begin to be passed over only as a relation tells. -/
def Sketch.Reveals (R : Sketch → Sketch → Prop) (s t : Sketch) : Prop :=
  t.silenced = true → s.silenced = true ∨ R s t

variable {R : Sketch → Sketch → Prop} {α β : Type} {fuel : Nat} {x : Script α} {s t u : Sketch} {a : α}
  {known : Bool}

theorem Sketch.Reveals.trans (h : s.Reveals R t) (h' : t.Reveals R u) (hbehind : R s t → R s u)
    (hbefore : R t u → R s u) : s.Reveals R u := by
  intro hu
  rcases h' hu with ht | hu
  · exact (h ht).imp_right hbehind
  · exact .inr (hbefore hu)

/-- One run after another. -/
theorem Sketch.Reveals.bind {y : Script β} {b : β} (hR : Tells R) (h : s.Reveals R t)
    (h' : t.Reveals R u) (hst : x.run (runRule Grammar.script fuel) fuel s = some (a, t))
    (htu : y.run (runRule Grammar.script fuel) fuel t = some (b, u)) : s.Reveals R u :=
  h.trans h' (hR.behind htu) (hR.before hst)

/-- Every call of an expression reveals where problems begin to be passed over. -/
def CallsReveal (R : Sketch → Sketch → Prop) (fuel : Nat) : Prop := ∀ {power : Nat} {s t : Sketch},
  runRule Grammar.script fuel (.expression power) s = some t → s.Reveals R t

theorem Tells.rounds (hR : Tells R) {item : Script (Option β)} {n : Nat} {bs : List β}
    (hrounds : repeatStep (item.run (runRule Grammar.script fuel) fuel) n t = some (bs, u))
    (h : R s t) : R s u := by
  refine repeatStep_induction (P := fun _ t _ u => R s t → R s u) ?_ ?_ hrounds h
  · exact fun _ t u htu => hR.behind htu
  · exact fun _ t b v _ u htv _ ih h => ih (hR.behind htv h)

namespace Script

theorem Lineal.parts {scope : Scope} {body : Script β} {next : β → Script α}
    (hx : (Script.during scope body next).Lineal known) :
    body.Lineal known ∧ ∀ b, (next b).Lineal false := by
  cases scope with
  | node kind => exact hx.2.2
  | wrap kind => exact hx.2.2
  | stopAt kinds => exact hx
  | nested => exact hx
  | measured => exact hx

/-- What stands on a line reveals where problems begin to be passed over, if the expressions that it calls
do. -/
theorem Lineal.reveals_of_calls (hR : Tells R) (hcalls : CallsReveal R fuel) (hx : x.Lineal known)
    (hrun : x.run (runRule Grammar.script fuel) fuel s = some (a, t)) : s.Reveals R t := by
  induction x generalizing known s t with
  | done b =>
    cases hrun
    exact .inl
  | ask q next ih =>
    cases q with
    | onLine =>
      have hrun : (next s.onLine).run (runRule Grammar.script fuel) fuel s = some (a, t) := hrun
      cases honLine : s.onLine with
      | none => exact ih none hx.1 (honLine ▸ hrun)
      | some k => exact ih (some k) (hx.2 k) (honLine ▸ hrun)
    | _ => exact ih _ (hx _) hrun
  | act b next ih =>
    have hrun : (next ()).run (runRule Grammar.script fuel) fuel (s.perform b) = some (a, t) := hrun
    have hstep : (Script.act b .done).run (runRule Grammar.script fuel) fuel s =
        some ((), s.perform b) := rfl
    cases b with
    | take =>
      have hfirst : s.Reveals R s.take := by
        rw [Sketch.take]
        split <;> exact .inl
      exact hfirst.bind hR (ih () hx hrun) hstep hrun
    | report place cause =>
      have hfirst : s.Reveals R (s.perform (.report place cause)) := fun hsilenced =>
        .inl ((s.toReading.silenced_report place cause).symm.trans hsilenced)
      exact hfirst.bind hR (ih () hx hrun) hstep hrun
    | silence => exact hx.elim
    | listen =>
      have hfirst : s.Reveals R (s.perform .listen) := fun h => absurd h Bool.false_ne_true
      exact hfirst.bind hR (ih () hx hrun) hstep hrun
  | during scope body next ihBody ih =>
    obtain ⟨b, u, hu, hnext⟩ := run_during hrun
    obtain ⟨hbody, hmore⟩ := hx.parts
    obtain ⟨-, -, hbegin, -⟩ := Grammar.begin_same s scope
    obtain ⟨-, -, hleave, -⟩ := Grammar.leave_same u (Machine.begin s scope).1 scope
    have hfirst : s.Reveals R (Machine.leave u (Machine.begin s scope).1 scope) := by
      intro hsilenced
      rw [hleave] at hsilenced
      have hinner := ihBody hbody hu hsilenced
      rw [hbegin] at hinner
      exact hinner.imp_right hR.within
    exact hfirst.bind hR (ih b (hmore b) hnext) (run_within_iff.2 ⟨u, hu, rfl⟩) hnext
  | many item next ihItem ih =>
    obtain ⟨bs, u, hu, hnext⟩ := run_many hrun
    have hfirst : s.Reveals R u := by
      refine repeatStep_induction (P := fun _ (s : Sketch) _ (t : Sketch) => s.Reveals R t) ?_ ?_ hu
      · exact fun _ s t hst => ihItem hx.1 hst
      · exact fun _ s b u bs t hsu hut ih =>
          (ihItem hx.1 hsu).trans ih (hR.rounds hut) (hR.before hsu)
    exact hfirst.bind hR (ih bs (hx.2 bs) hnext) (run_collect_iff.2 hu) hnext
  | call rule next ih =>
    obtain ⟨u, hu, hnext⟩ := run_called hrun
    cases rule with
    | statement => exact absurd rfl hx.1
    | expression power =>
      exact (hcalls hu).bind hR (ih () hx.2 hnext) (run_call_iff.2 hu) hnext

end Script

end Parsing

namespace Grammar

variable {R : Sketch → Sketch → Prop}

theorem callsReveal (hR : Tells R) (fuel : Nat) : CallsReveal R fuel := by
  induction fuel with
  | zero =>
    intro power s t hrun
    cases hrun
  | succ fuel ih =>
    intro power s t hrun
    have hrun : (expressionRule power).run (runRule script fuel) fuel s = some ((), t) :=
      run_of_runRule hrun
    rw [expressionRule_eq, tooDeep, run_ask_bind] at hrun
    split at hrun
    · intro _
      by_cases hs : s.silenced = true
      · exact .inl hs
      · exact .inr (hR.deep (Bool.eq_false_iff.2 hs) hrun)
    · obtain ⟨u, hu, rfl⟩ := run_within_iff.1 hrun
      have hbody : (expressionBody power).Lineal false := lineal_expressionBody power
      intro hsilenced
      have hinner : s.deeper.silenced = true ∨ R s.deeper u := hbody.reveals_of_calls hR ih hu hsilenced
      have hscope : R (Machine.begin s .nested).2 u → R s (Machine.leave u (Machine.begin s .nested).1 .nested) :=
        hR.within
      exact hinner.imp_right hscope

end Grammar

/-- Where problems begin to be passed over on a line, something on it was too deep. -/
theorem Parsing.Script.Lineal.reveals {R : Sketch → Sketch → Prop} (hR : Tells R) {α : Type}
    {x : Script α} {known : Bool} {fuel : Nat} {s t : Sketch} {a : α} (hx : x.Lineal known)
    (hrun : x.run (runRule Grammar.script fuel) fuel s = some (a, t)) : s.Reveals R t :=
  hx.reveals_of_calls hR (Grammar.callsReveal hR fuel) hrun

end CRBasic
