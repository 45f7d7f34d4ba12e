import CRBasic.Proofs.Parsing.Fuel
import CRBasic.Proofs.Parsing.Invariant

/-!
# The moments of a run

A run of a script is a sequence of moments: what is left of the script, what is to do behind it, and the
state.  From each moment the next one follows (`Moment.next`), so what a run comes past does not depend on
how the run is put together.  A judgement of all that a script does (`Script.Along`), built up as the script
is, holds at every moment on the way to the result (`Script.Along.through`), and so at every moment that is
reached at all (`Moment.Through.of_reaches`).
-/

namespace CRBasic

namespace Parsing

/-- What a script does first. -/
inductive Move : Type 1 where
  | ends
  | ask {α : Type} (q : Query α)
  | act (a : Action)
  | enter (scope : Scope)
  | rounds
  | call (rule : Rule)

/-- What is to do with the result of a script. -/
inductive Pending (Mark : Type) : Type → Type 1 where
  /-- Nothing: it is the result of the run. -/
  | nothing {α : Type} : Pending Mark α
  /-- The end of a stretch, with its mark, and the script around it. -/
  | leave {α β : Type} (mark : Mark) (scope : Scope) (next : β → Script α) (rest : Pending Mark α) :
      Pending Mark β
  /-- The end of a round, behind those that have had the given results, and the script around them. -/
  | round {α β : Type} (item : Script (Option β)) (found : List β) (next : List β → Script α)
      (rest : Pending Mark α) : Pending Mark (Option β)
  /-- The end of a rule, and the script that has called it. -/
  | back {α : Type} (next : Unit → Script α) (rest : Pending Mark α) : Pending Mark Unit

/-- What is left of a script, what is to do behind it, and the state. -/
structure Moment (σ Mark : Type) : Type 1 where
  {α : Type}
  script : Script α
  pending : Pending Mark α
  state : σ

variable {σ Mark : Type}

namespace Script

/-- What a script does first. -/
def move {α : Type} : Script α → Move
  | .done _ => .ends
  | .ask q _ => .ask q
  | .act a _ => .act a
  | .during scope _ _ => .enter scope
  | .many _ _ => .rounds
  | .call rule _ => .call rule

end Script

namespace Moment

/-- What a moment does. -/
def move (m : Moment σ Mark) : Move := m.script.move

end Moment

variable [Machine σ Mark]

/-- The moment after a result, if there is anything to do with it. -/
def Pending.resume {α : Type} : Pending Mark α → α → σ → Option (Moment σ Mark)
  | .nothing, _, _ => none
  | .leave mark scope next rest, b, s => some ⟨next b, rest, Machine.leave s mark scope⟩
  | .round _ found next rest, none, s => some ⟨next found, rest, s⟩
  | .round item found next rest, some b, s =>
    some ⟨item, .round item (found ++ [b]) next rest, s⟩
  | .back next rest, _, s => some ⟨next (), rest, s⟩

namespace Moment

section

variable (script : Rule → Script Unit)

/-- The moment after a moment, if it is not the last one. -/
def next : Moment σ Mark → Option (Moment σ Mark)
  | ⟨.done a, rest, s⟩ => rest.resume a s
  | ⟨.ask q next, rest, s⟩ => some ⟨next (Machine.answer s q), rest, s⟩
  | ⟨.act a next, rest, s⟩ => some ⟨next (), rest, Machine.perform s a⟩
  | ⟨.during scope body next, rest, s⟩ =>
    some ⟨body, .leave (Machine.begin s scope).1 scope next rest, (Machine.begin s scope).2⟩
  | ⟨.many item next, rest, s⟩ => some ⟨item, .round item [] next rest, s⟩
  | ⟨.call rule next, rest, s⟩ => some ⟨script rule, .back next rest, s⟩

variable {script} in
/-- The state changes by an action, or at the ends of a stretch. -/
theorem next_cases {m n : Moment σ Mark} (h : m.next script = some n) : n.state = m.state ∨
    (∃ a, m.move = .act a ∧ n.state = Machine.perform m.state a) ∨
    (∃ scope, m.move = .enter scope ∧ n.state = (Machine.begin m.state scope).2) ∨
    ∃ mark scope, n.state = Machine.leave m.state mark scope := by
  obtain ⟨x, rest, s⟩ := m
  cases x with
  | done a =>
    have h : rest.resume a s = some n := h
    cases rest with
    | nothing => cases h
    | leave mark scope next rest =>
      cases h
      exact .inr (.inr (.inr ⟨mark, scope, rfl⟩))
    | round item found next rest =>
      cases a <;> cases h <;> exact .inl rfl
    | back next rest =>
      cases h
      exact .inl rfl
  | act a next =>
    cases h
    exact .inr (.inl ⟨a, rfl, rfl⟩)
  | during scope body next =>
    cases h
    exact .inr (.inr (.inl ⟨scope, rfl, rfl⟩))
  | ask | many | call =>
    cases h
    exact .inl rfl

/-- From one moment to another, where something holds of the first and of all between them. -/
inductive Through (P : Moment σ Mark → Prop) : Moment σ Mark → Moment σ Mark → Prop where
  | refl (m : Moment σ Mark) : Through P m m
  | next {m m' n : Moment σ Mark} (hm : P m) (hnext : m.next script = some m') (h : Through P m' n) :
      Through P m n

/-- One moment comes after another, or is the same. -/
abbrev Reaches (m n : Moment σ Mark) : Prop := Through script (fun _ => True) m n

/-- The moment that comes so many steps after another one. -/
def after : Nat → Moment σ Mark → Option (Moment σ Mark)
  | 0, m => some m
  | k + 1, m => (m.next script).bind (after k)

variable {script} in
theorem reaches_of_after {k : Nat} {m n : Moment σ Mark} (h : m.after script k = some n) :
    Reaches script m n := by
  induction k generalizing m with
  | zero =>
    cases h
    exact .refl _
  | succ k ih =>
    obtain ⟨m', hnext, hn⟩ := Option.bind_eq_some_iff.1 h
    exact .next trivial hnext (ih hn)

end

namespace Through

variable {script : Rule → Script Unit} {P Q : Moment σ Mark → Prop}
  {m n o : Moment σ Mark}

theorem single (hm : P m) (hnext : m.next script = some n) : Through script P m n :=
  .next hm hnext (.refl n)

theorem trans (h : Through script P m n) (h' : Through script P n o) : Through script P m o := by
  induction h with
  | refl => exact h'
  | next hm hnext _ ih => exact .next hm hnext (ih h')

/-- What comes next lies on the way. -/
theorem of_next {m' : Moment σ Mark} (h : Through script P m n) (hnext : m.next script = some m') :
    n = m ∨ Through script P m' n := by
  cases h with
  | refl => exact .inl rfl
  | next _ hnext' h =>
    obtain rfl := Option.some.inj (hnext.symm.trans hnext')
    exact .inr h

theorem mono (h : Through script P m n) (hPQ : ∀ m, P m → Q m) : Through script Q m n := by
  induction h with
  | refl m => exact .refl m
  | next hm hnext _ ih => exact .next (hPQ _ hm) hnext ih

/-- What is reached lies on the way to the last moment. -/
theorem of_reaches (h : Through script P m n) (hn : P n) (hlast : n.next script = none)
    (ho : Reaches script m o) : P o ∧ Through script P o n := by
  induction ho with
  | refl m =>
    cases h with
    | refl => exact ⟨hn, .refl _⟩
    | next hm hnext h => exact ⟨hm, .next hm hnext h⟩
  | next _ hnext _ ih =>
    cases h with
    | refl =>
      rw [hlast] at hnext
      cases hnext
    | next _ hnext' h =>
      obtain rfl := Option.some.inj (hnext.symm.trans hnext')
      exact ih h

end Through

end Moment

/-! ### Judgements of all that a script does -/

namespace Script

/-- The states at which the rounds of a repetition start. -/
inductive Rounds {β : Type} (step : σ → Option (Option β × σ)) (s : σ) : σ → Prop where
  | first : Rounds step s s
  | after {u v : σ} {b : β} (hu : Rounds step s u) (hstep : step u = some (some b, v)) :
      Rounds step s v

/-- Something holds of all that a script does and of the states in which it does so, given how rules run
and what holds of them. -/
def Along (P : Move → σ → Prop) (call : Rule → σ → Option σ) (calls : Rule → σ → Prop) (fuel : Nat)
    {α : Type} : Script α → σ → Prop
  | .done _, s => P .ends s
  | .ask q next, s => P (.ask q) s ∧ (next (Machine.answer s q)).Along P call calls fuel s
  | .act a next, s => P (.act a) s ∧ (next ()).Along P call calls fuel (Machine.perform s a)
  | .during scope body next, s =>
    P (.enter scope) s ∧ body.Along P call calls fuel (Machine.begin s scope).2 ∧
      ∀ b u, body.run call fuel (Machine.begin s scope).2 = some (b, u) →
        (next b).Along P call calls fuel (Machine.leave u (Machine.begin s scope).1 scope)
  | .many item next, s =>
    P .rounds s ∧ (∀ u, Rounds (item.run call fuel) s u → item.Along P call calls fuel u) ∧
      ∀ bs u, repeatStep (item.run call fuel) fuel s = some (bs, u) →
        (next bs).Along P call calls fuel u
  | .call rule next, s =>
    P (.call rule) s ∧ calls rule s ∧ ∀ t, call rule s = some t → (next ()).Along P call calls fuel t

/-- Something holds of all that a rule does. -/
def AlongRule (P : Move → σ → Prop) (script : Rule → Script Unit) : Nat → Rule → σ → Prop
  | 0, _, _ => True
  | fuel + 1, rule, s =>
    (script rule).Along P (runRule script fuel) (AlongRule P script fuel) fuel s

variable {P : Move → σ → Prop} {call : Rule → σ → Option σ} {calls : Rule → σ → Prop} {fuel : Nat}
  {α β : Type} {s t : σ} {a : α}

theorem along_bind {x : Script α} {f : α → Script β} (hx : x.Along P call calls fuel s)
    (hf : ∀ a t, x.run call fuel s = some (a, t) → (f a).Along P call calls fuel t) :
    (x >>= f).Along P call calls fuel s := by
  change (x.bind f).Along P call calls fuel s
  induction x generalizing s with
  | done a => exact hf a s rfl
  | ask q next ih => exact ⟨hx.1, ih _ hx.2 hf⟩
  | act b next ih => exact ⟨hx.1, ih _ hx.2 hf⟩
  | during scope body next _ ih =>
    refine ⟨hx.1, hx.2.1, fun b u hu => ih b (hx.2.2 b u hu) fun a t ht => hf a t ?_⟩
    simp only [run, hu]
    exact ht
  | many item next _ ih =>
    refine ⟨hx.1, hx.2.1, fun bs u hu => ih bs (hx.2.2 bs u hu) fun a t ht => hf a t ?_⟩
    simp only [run, hu]
    exact ht
  | call rule next ih =>
    refine ⟨hx.1, hx.2.1, fun u hu => ih () (hx.2.2 u hu) fun a t ht => hf a t ?_⟩
    simp only [run, hu]
    exact ht

variable {script : Rule → Script Unit}

/-- Something holds at a moment. -/
def AtMoment (P : Move → σ → Prop) (m : Moment σ Mark) : Prop := P m.move m.state

variable (Mark) in
/-- From the start of a rule to its end. -/
def RulesThrough (P : Move → σ → Prop) (script : Rule → Script Unit) (call : Rule → σ → Option σ)
    (calls : Rule → σ → Prop) : Prop :=
  ∀ {rule : Rule} {s t : σ} {α : Type} (next : Unit → Script α) (rest : Pending Mark α),
    calls rule s → call rule s = some t →
      Moment.Through script (AtMoment P) ⟨script rule, .back next rest, s⟩
        ⟨.done (), .back next rest, t⟩ ∧ P .ends t

theorem through_rounds {item : Script (Option β)} {next : List β → Script α} {rest : Pending Mark α}
    {bs : List β} (found : List β) {n : Nat}
    (hitem : ∀ u b v, Rounds (item.run call fuel) s u → item.run call fuel u = some (b, v) →
      ∀ found, Moment.Through script (AtMoment P) ⟨item, .round item found next rest, u⟩
        ⟨.done b, .round item found next rest, v⟩ ∧ P .ends v)
    {u : σ} (hu : Rounds (item.run call fuel) s u)
    (h : repeatStep (item.run call fuel) n u = some (bs, t)) :
    Moment.Through script (AtMoment P) ⟨item, .round item found next rest, u⟩
      ⟨next (found ++ bs), rest, t⟩ := by
  induction n generalizing u bs found with
  | zero => simp [repeatStep] at h
  | succ n ih =>
    rw [repeatStep] at h
    split at h
    · cases h
    · next v hv =>
      cases h
      obtain ⟨hround, hend⟩ := hitem u none _ hu hv found
      rw [List.append_nil]
      exact hround.trans (.single hend rfl)
    · next b v hv =>
      split at h
      · cases h
      · next cs w hw =>
        cases h
        obtain ⟨hround, hend⟩ := hitem u (some b) v hu hv found
        have hmore := ih (found ++ [b]) (.after hu hv) hw
        rw [List.append_assoc, List.singleton_append] at hmore
        exact hround.trans (.next hend rfl hmore)

/-- What holds of all that a script does holds at every moment up to its result. -/
theorem Along.through_bind (hrules : RulesThrough Mark P script call calls) {x : Script α}
    (h : x.Along P call calls fuel s) (hrun : x.run call fuel s = some (a, t)) (f : α → Script β)
    (rest : Pending Mark β) :
    Moment.Through script (AtMoment P) ⟨x.bind f, rest, s⟩ ⟨f a, rest, t⟩ ∧ P .ends t := by
  induction x generalizing β s t with
  | done b =>
    cases hrun
    exact ⟨.refl _, h⟩
  | ask q next ih =>
    obtain ⟨hthrough, hend⟩ := ih _ h.2 hrun f rest
    exact ⟨.next h.1 rfl hthrough, hend⟩
  | act b next ih =>
    obtain ⟨hthrough, hend⟩ := ih () h.2 hrun f rest
    exact ⟨.next h.1 rfl hthrough, hend⟩
  | during scope body next ihBody ihNext =>
    simp only [run] at hrun
    split at hrun
    · cases hrun
    · next b u hu =>
      obtain ⟨hbody, hleave⟩ := ihBody h.2.1 hu .done
        (.leave (Machine.begin s scope).1 scope (fun b => (next b).bind f) rest)
      rw [bind_done] at hbody
      obtain ⟨hthrough, hend⟩ := ihNext b (h.2.2 b u hu) hrun f rest
      exact ⟨.next h.1 rfl (hbody.trans (.next hleave rfl hthrough)), hend⟩
  | many item next ihItem ihNext =>
    simp only [run] at hrun
    split at hrun
    · cases hrun
    · next bs u hu =>
      have hrounds : Moment.Through script (AtMoment P)
          ⟨item, .round item [] (fun bs => (next bs).bind f) rest, s⟩ ⟨(next bs).bind f, rest, u⟩ := by
        refine through_rounds [] (fun v b w hv hw found => ?_) .first hu
        have hround := ihItem (h.2.1 v hv) hw .done (.round item found (fun bs => (next bs).bind f) rest)
        rwa [bind_done] at hround
      obtain ⟨hthrough, hend⟩ := ihNext bs (h.2.2 bs u hu) hrun f rest
      exact ⟨.next h.1 rfl (hrounds.trans hthrough), hend⟩
  | call rule next ih =>
    simp only [run] at hrun
    split at hrun
    · cases hrun
    · next u hu =>
      obtain ⟨hrule, hback⟩ := hrules (fun v => (next v).bind f) rest h.2.1 hu
      obtain ⟨hthrough, hend⟩ := ih () (h.2.2 u hu) hrun f rest
      exact ⟨.next h.1 rfl (hrule.trans (.next hback rfl hthrough)), hend⟩

theorem Along.through (hrules : RulesThrough Mark P script call calls) {x : Script α}
    (h : x.Along P call calls fuel s) (hrun : x.run call fuel s = some (a, t)) (rest : Pending Mark α) :
    Moment.Through script (AtMoment P) ⟨x, rest, s⟩ ⟨.done a, rest, t⟩ ∧ P .ends t := by
  have hthrough := h.through_bind hrules hrun .done rest
  rwa [bind_done] at hthrough

theorem rulesThrough (P : Move → σ → Prop) (script : Rule → Script Unit) (fuel : Nat) :
    RulesThrough Mark P script (runRule script fuel) (AlongRule P script fuel) := by
  induction fuel with
  | zero =>
    intro rule s t α next rest _ hrun
    cases hrun
  | succ fuel ih =>
    intro rule s t α next rest h hrun
    rw [runRule] at hrun
    split at hrun
    · cases hrun
    · next u hu =>
      cases hrun
      exact Along.through ih h hu (.back next rest)

/-! ### Every run is a way through moments -/

theorem along_of_forall (hP : ∀ move s, P move s) (hcalls : ∀ rule s, calls rule s) (x : Script α) :
    x.Along P call calls fuel s := by
  induction x generalizing s with
  | done a => exact hP _ _
  | ask q next ih => exact ⟨hP _ _, ih _⟩
  | act a next ih => exact ⟨hP _ _, ih _⟩
  | during scope body next ihBody ihNext => exact ⟨hP _ _, ihBody, fun b _ _ => ihNext b⟩
  | many item next ihItem ihNext => exact ⟨hP _ _, fun _ _ => ihItem, fun bs _ _ => ihNext bs⟩
  | call rule next ih => exact ⟨hP _ _, hcalls _ _, fun _ _ => ih _⟩

theorem alongRule_of_forall (hP : ∀ move s, P move s) (fuel : Nat) (rule : Rule) (s : σ) :
    AlongRule P script fuel rule s := by
  induction fuel generalizing rule s with
  | zero => trivial
  | succ fuel ih => exact along_of_forall hP ih _

/-- Where a script yields a result, its moments lead to the result. -/
theorem Yields.reaches {x : Script α} (h : Yields script x s a t) (f : α → Script β)
    (rest : Pending Mark β) : Moment.Reaches script ⟨x >>= f, rest, s⟩ ⟨f a, rest, t⟩ := by
  obtain ⟨fuel, hrun⟩ := h
  have htrue : ∀ (move : Move) (s : σ), (fun _ _ => True : Move → σ → Prop) move s := fun _ _ => trivial
  have halong : x.Along (fun _ _ => True) (runRule script fuel) (AlongRule (fun _ _ => True) script fuel)
      fuel s := along_of_forall htrue (alongRule_of_forall htrue fuel) x
  exact (halong.through_bind (rulesThrough _ script fuel) hrun f rest).1

end Script

/-! ### Machines that take the same steps -/

section Simulations

open Script

variable {τ Mark' : Type} [Machine τ Mark'] {ι : Type} {R : ι → σ → τ → Prop}
  {P : Move → σ → Prop} {P' : Move → τ → Prop} {fuel : Nat} {i : ι} {s : σ} {t : τ}

theorem Simulation.rounds {β : Type} {step : σ → Option (Option β × σ)}
    {step' : τ → Option (Option β × τ)}
    (hstep : ∀ {s t b u}, R i s t → step s = some (b, u) → ∃ v, step' t = some (b, v) ∧ R i u v)
    (hst : R i s t) {u : σ} (h : Rounds step s u) : ∃ v, Rounds step' t v ∧ R i u v := by
  induction h with
  | first => exact ⟨t, .first, hst⟩
  | after _ hround ih =>
    obtain ⟨v, hv, hR⟩ := ih
    obtain ⟨w, hw, hR'⟩ := hstep hR hround
    exact ⟨w, .after hv hw, hR'⟩

/-- What holds of all that a script does on a machine holds of it on another one whose steps the machine
takes. -/
theorem Simulation.along (hR : Simulation R)
    (hP : ∀ {i : ι} {s : σ} {t : τ} (move : Move), R i s t → P' move t → P move s)
    {call : Rule → σ → Option σ} {call' : Rule → τ → Option τ} {calls : Rule → σ → Prop}
    {calls' : Rule → τ → Prop} {α : Type} {x : Script α} (hst : R i s t)
    (h : x.Along P' call' calls' fuel t)
    (hcall : ∀ {rule i s t u}, R i s t → call rule s = some u → ∃ v, call' rule t = some v ∧ R i u v)
    (hcalls : ∀ {rule i s t}, R i s t → calls' rule t → calls rule s) :
    x.Along P call calls fuel s := by
  induction x generalizing i s t with
  | done a => exact hP _ hst h
  | ask q next ih =>
    refine ⟨hP _ hst h.1, ih _ hst ?_⟩
    rw [← hR.answer q hst]
    exact h.2
  | act a next ih => exact ⟨hP _ hst h.1, ih () (hR.perform a hst) h.2⟩
  | during scope body next ihBody ihNext =>
    obtain ⟨j, hj, hleave⟩ := hR.stretch scope hst
    refine ⟨hP _ hst h.1, ihBody hj h.2.1, fun b u hu => ?_⟩
    obtain ⟨v, hv, huv⟩ := hR.run hj hu hcall
    exact ihNext b (hleave u v huv) (h.2.2 b v hv)
  | many item next ihItem ihNext =>
    have hitem {s : σ} {t : τ} {b : Option _} {u : σ} (hst : R i s t)
        (hu : item.run call fuel s = some (b, u)) : ∃ v, item.run call' fuel t = some (b, v) ∧ R i u v :=
      hR.run hst hu hcall
    refine ⟨hP _ hst h.1, fun u hu => ?_, fun bs u hu => ?_⟩
    · obtain ⟨v, hv, huv⟩ := Simulation.rounds hitem hst hu
      exact ihItem huv (h.2.1 v hv)
    · obtain ⟨v, hv, huv⟩ := Simulation.repeatStep hitem hst hu
      exact ihNext bs huv (h.2.2 bs v hv)
  | call rule next ih =>
    refine ⟨hP _ hst h.1, hcalls hst h.2.1, fun u hu => ?_⟩
    obtain ⟨v, hv, huv⟩ := hcall hst hu
    exact ih () huv (h.2.2 v hv)

theorem Simulation.alongRule (hR : Simulation R)
    (hP : ∀ {i : ι} {s : σ} {t : τ} (move : Move), R i s t → P' move t → P move s)
    {script : Rule → Script Unit} {rule : Rule} (hst : R i s t) (h : AlongRule P' script fuel rule t) :
    AlongRule P script fuel rule s := by
  induction fuel generalizing rule i s t with
  | zero => trivial
  | succ fuel ih => exact hR.along hP hst h hR.runRule ih

end Simulations

end Parsing

end CRBasic
