import CRBasic.Parsing.Script

/-!
# Runs that end

`Ends call fuel x s Q` says that the run of a script ends and that its result and last state satisfy
`Q`.  There is one rule for each way to build a script; the rule for repetition asks for a measure
that every round lowers.
-/

namespace CRBasic

namespace Parsing

namespace Script

variable {σ Mark : Type} [Machine σ Mark] {call : Rule → σ → Option σ} {fuel : Nat} {α β : Type}
  {s : σ}

/-- The run of a script ends, with a result and a last state that satisfy `Q`. -/
def Ends (call : Rule → σ → Option σ) (fuel : Nat) (x : Script α) (s : σ) (Q : α → σ → Prop) :
    Prop :=
  ∃ a t, x.run call fuel s = some (a, t) ∧ Q a t

theorem Ends.mono {x : Script α} {Q Q' : α → σ → Prop} (h : Ends call fuel x s Q)
    (hQ : ∀ a t, Q a t → Q' a t) : Ends call fuel x s Q' := by
  obtain ⟨a, t, hrun, h⟩ := h
  exact ⟨a, t, hrun, hQ a t h⟩

@[simp] theorem ends_pure (a : α) (Q : α → σ → Prop) : Ends call fuel (pure a) s Q ↔ Q a s := by
  constructor
  · rintro ⟨b, t, h, hQ⟩
    cases h
    exact hQ
  · intro h
    exact ⟨a, s, rfl, h⟩

@[simp] theorem ends_bind (x : Script α) (f : α → Script β) (Q : β → σ → Prop) :
    Ends call fuel (x >>= f) s Q ↔ Ends call fuel x s fun a t => Ends call fuel (f a) t Q := by
  have hrun : (x >>= f).run call fuel s =
      (x.run call fuel s).bind fun r => (f r.1).run call fuel r.2 := run_bind call fuel x f s
  constructor
  · rintro ⟨b, u, h, hQ⟩
    rw [hrun, Option.bind_eq_some_iff] at h
    obtain ⟨⟨a, t⟩, hx, hf⟩ := h
    exact ⟨a, t, hx, b, u, hf, hQ⟩
  · rintro ⟨a, t, hx, b, u, hf, hQ⟩
    exact ⟨b, u, by rw [hrun, hx]; exact hf, hQ⟩

theorem ends_ask (q : Query α) (Q : α → σ → Prop) :
    Ends call fuel (.ask q .done) s Q ↔ Q (Machine.answer s q) s := by
  change Ends call fuel (pure (Machine.answer s q)) s Q ↔ _
  rw [ends_pure]

theorem ends_act (a : Action) (Q : Unit → σ → Prop) :
    Ends call fuel (.act a .done) s Q ↔ Q () (Machine.perform s a) := by
  change Ends call fuel (pure ()) (Machine.perform s a) Q ↔ _
  rw [ends_pure]

theorem ends_within (scope : Scope) (body : Script α) (Q : α → σ → Prop) :
    Ends call fuel (within scope body) s Q ↔
      Ends call fuel body (Machine.begin s scope).2 fun a t =>
        Q a (Machine.leave t (Machine.begin s scope).1 scope) := by
  constructor
  · rintro ⟨a, t, h, hQ⟩
    simp only [within, run] at h
    split at h
    · cases h
    · next b u hu =>
      cases h
      exact ⟨_, u, hu, hQ⟩
  · rintro ⟨a, t, h, hQ⟩
    exact ⟨a, _, by simp only [within, run, h], hQ⟩

theorem ends_call {rule : Rule} {Q : Unit → σ → Prop} {t : σ} (h : call rule s = some t)
    (hQ : Q () t) : Ends call fuel (.call rule .done) s Q :=
  ⟨(), t, by simp only [run, h], hQ⟩

/-- A repetition ends if every round with a result keeps an invariant and lowers a measure. -/
theorem ends_collect {item : Script (Option β)} {I E : σ → Prop} (measure : σ → Nat)
    (hitem : ∀ s, I s → Ends call fuel item s fun r t =>
      (r.isSome → I t ∧ measure t < measure s) ∧ (r.isNone → E t))
    (hs : I s) (hfuel : measure s < fuel) : Ends call fuel (collect item) s fun _ t => E t := by
  have hrepeat : ∀ n s, I s → measure s < n →
      ∃ bs t, repeatStep (item.run call fuel) n s = some (bs, t) ∧ E t := by
    intro n
    induction n with
    | zero => exact fun s _ hn => absurd hn (Nat.not_lt_zero _)
    | succ n ih =>
      intro s hs hn
      obtain ⟨r, t, hrun, hsome, hnone⟩ := hitem s hs
      cases r with
      | none => exact ⟨[], t, by simp only [repeatStep, hrun], hnone rfl⟩
      | some b =>
        obtain ⟨ht, hlt⟩ := hsome rfl
        obtain ⟨bs, u, hu, hE⟩ := ih t ht (by omega)
        exact ⟨b :: bs, u, by simp only [repeatStep, hrun, hu], hE⟩
  obtain ⟨bs, t, h, hE⟩ := hrepeat fuel s hs hfuel
  exact ⟨bs, t, by simp only [collect, run, h], hE⟩

end Script

end Parsing

end CRBasic
