import CRBasic.Parsing.Script

/-!
# What runs keep

A run of a script is made of single steps.  So a machine that takes each step as another one does
has the runs of the other one (`Simulation.run`), and a property of states that every step keeps
holds at the end of a run (`Kept.run`).  Both may depend on an index: inside a stretch they hold
with another index than around it.
-/

namespace CRBasic

namespace Parsing

section Simulations

variable {σ τ Mark Mark' : Type} [Machine σ Mark] [Machine τ Mark'] {ι : Type}
  {R : ι → σ → τ → Prop}

/-- The second machine takes each step as the first one does. -/
structure Simulation (R : ι → σ → τ → Prop) : Prop where
  answer {i : ι} {s : σ} {t : τ} {α : Type} (q : Query α) (h : R i s t) :
    Machine.answer t q = Machine.answer s q
  perform {i : ι} {s : σ} {t : τ} (a : Action) (h : R i s t) :
    R i (Machine.perform s a) (Machine.perform t a)
  stretch {i : ι} {s : σ} {t : τ} (scope : Scope) (h : R i s t) :
    ∃ j, R j (Machine.begin s scope).2 (Machine.begin t scope).2 ∧
      ∀ u v, R j u v → R i (Machine.leave u (Machine.begin s scope).1 scope)
        (Machine.leave v (Machine.begin t scope).1 scope)

theorem Simulation.repeatStep {β : Type} {step : σ → Option (Option β × σ)}
    {step' : τ → Option (Option β × τ)} {i : ι}
    (hstep : ∀ {s t b u}, R i s t → step s = some (b, u) → ∃ v, step' t = some (b, v) ∧ R i u v)
    {fuel : Nat} {s u : σ} {t : τ} {bs : List β} (hst : R i s t)
    (h : Script.repeatStep step fuel s = some (bs, u)) :
    ∃ v, Script.repeatStep step' fuel t = some (bs, v) ∧ R i u v := by
  induction fuel generalizing s t bs with
  | zero => simp [Script.repeatStep] at h
  | succ fuel ih =>
    rw [Script.repeatStep] at h ⊢
    split at h
    · cases h
    · next w hw =>
      cases h
      obtain ⟨v, hv, hR⟩ := hstep hst hw
      exact ⟨v, by rw [hv], hR⟩
    · next b w hw =>
      split at h
      · cases h
      · next cs x hx =>
        cases h
        obtain ⟨v, hv, hR⟩ := hstep hst hw
        obtain ⟨y, hy, hR'⟩ := ih hR hx
        exact ⟨y, by simp only [hv, hy], hR'⟩

/-- A machine that takes each step as another one does has its runs, if the rules that are called
do the same. -/
theorem Simulation.run (hR : Simulation R) {call : Rule → σ → Option σ}
    {call' : Rule → τ → Option τ} {fuel : Nat} {α : Type} {x : Script α} {i : ι} {s u : σ} {t : τ}
    {a : α} (hst : R i s t) (h : x.run call fuel s = some (a, u))
    (hcall : ∀ {rule i s t u}, R i s t → call rule s = some u →
      ∃ v, call' rule t = some v ∧ R i u v) :
    ∃ v, x.run call' fuel t = some (a, v) ∧ R i u v := by
  induction x generalizing i s t u with
  | done b =>
    cases h
    exact ⟨t, rfl, hst⟩
  | ask q next ih =>
    simp only [Script.run, hR.answer q hst] at h ⊢
    exact ih _ hst h
  | act b next ih => exact ih () (hR.perform b hst) h
  | during scope body next ihBody ihNext =>
    simp only [Script.run] at h ⊢
    split at h
    · cases h
    · next b w hw =>
      obtain ⟨j, hj, hleave⟩ := hR.stretch scope hst
      obtain ⟨v, hv, hwv⟩ := ihBody hj hw
      rw [hv]
      exact ihNext b (hleave w v hwv) h
  | many item next ihItem ihNext =>
    simp only [Script.run] at h ⊢
    split at h
    · cases h
    · next bs w hw =>
      obtain ⟨v, hv, hwv⟩ := Simulation.repeatStep (fun hi hb => ihItem hi hb) hst hw
      rw [hv]
      exact ihNext bs hwv h
  | call rule next ih =>
    simp only [Script.run] at h ⊢
    split at h
    · cases h
    · next w hw =>
      obtain ⟨v, hv, hwv⟩ := hcall hst hw
      rw [hv]
      exact ih () hwv h

/-- A machine that takes each step as another one does runs the rules as it does. -/
theorem Simulation.runRule (hR : Simulation R) {script : Rule → Script Unit} {fuel : Nat}
    {rule : Rule} {i : ι} {s u : σ} {t : τ} (hst : R i s t)
    (h : Script.runRule script fuel rule s = some u) :
    ∃ v, Script.runRule script fuel rule t = some v ∧ R i u v := by
  induction fuel generalizing rule i s t u with
  | zero => simp [Script.runRule] at h
  | succ fuel ih =>
    simp only [Script.runRule] at h ⊢
    split at h
    · cases h
    · next w hw =>
      cases h
      obtain ⟨v, hv, hwv⟩ := hR.run hst hw ih
      exact ⟨v, by rw [hv], hwv⟩

end Simulations

section Invariants

variable {σ Mark : Type} [Machine σ Mark] {ι : Type} {I : ι → σ → Prop}

/-- Every step of a machine keeps a family of properties. -/
structure Kept (I : ι → σ → Prop) : Prop where
  perform {i : ι} {s : σ} (a : Action) (h : I i s) : I i (Machine.perform s a)
  stretch {i : ι} {s : σ} (scope : Scope) (h : I i s) :
    ∃ j, I j (Machine.begin s scope).2 ∧
      ∀ t, I j t → I i (Machine.leave t (Machine.begin s scope).1 scope)

/-- A machine simulates itself, and keeps what every step keeps. -/
theorem Kept.simulation (hI : Kept I) : Simulation fun i (s t : σ) => t = s ∧ I i s where
  answer q h := by rw [h.1]
  perform a h := ⟨by rw [h.1], hI.perform a h.2⟩
  stretch scope h := by
    obtain ⟨rfl, hs⟩ := h
    obtain ⟨j, hj, hleave⟩ := hI.stretch scope hs
    refine ⟨j, ⟨rfl, hj⟩, ?_⟩
    rintro u v ⟨rfl, hu⟩
    exact ⟨rfl, hleave v hu⟩

/-- What every step keeps, a run keeps, if the rules that it calls do. -/
theorem Kept.run (hI : Kept I) {call : Rule → σ → Option σ} {fuel : Nat} {α : Type} {x : Script α}
    {i : ι} {s t : σ} {a : α} (hs : I i s) (h : x.run call fuel s = some (a, t))
    (hcall : ∀ {rule i s t}, I i s → call rule s = some t → I i t) : I i t := by
  have hsame {rule i} {s t u : σ} (hst : t = s ∧ I i s) (hu : call rule s = some u) :
      ∃ v, call rule t = some v ∧ v = u ∧ I i u :=
    ⟨u, by rw [hst.1, hu], rfl, hcall hst.2 hu⟩
  obtain ⟨v, -, -, hv⟩ := hI.simulation.run ⟨rfl, hs⟩ h hsame
  exact hv

/-- What every step keeps, the run of a rule keeps. -/
theorem Kept.runRule (hI : Kept I) {script : Rule → Script Unit} {fuel : Nat} {rule : Rule} {i : ι}
    {s t : σ} (hs : I i s) (h : Script.runRule script fuel rule s = some t) : I i t := by
  obtain ⟨v, -, -, hv⟩ := hI.simulation.runRule ⟨rfl, hs⟩ h
  exact hv

end Invariants

end Parsing

end CRBasic
