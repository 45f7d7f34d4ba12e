import CRBasic.Parsing.Script

/-!
# Fuel

More fuel does not change the result of a run (`run_mono`).  So what a script yields is a relation
that does not mention fuel (`Yields`), and it is built up like the script.
-/

namespace CRBasic

namespace Parsing

namespace Script

variable {σ Mark : Type}

theorem repeatStep_mono {β : Type} {step step' : σ → Option (Option β × σ)}
    (hstep : ∀ {s b t}, step s = some (b, t) → step' s = some (b, t)) {m n : Nat} (hmn : m ≤ n)
    {s t : σ} {bs : List β} (h : repeatStep step m s = some (bs, t)) :
    repeatStep step' n s = some (bs, t) := by
  induction m generalizing n s bs with
  | zero => simp [repeatStep] at h
  | succ m ih =>
    obtain ⟨n, rfl⟩ : ∃ k, n = k + 1 := ⟨n - 1, by omega⟩
    rw [repeatStep] at h ⊢
    split at h
    · cases h
    · next u hu =>
      cases h
      rw [hstep hu]
    · next b u hu =>
      split at h
      · cases h
      · next cs v hv =>
        cases h
        simp only [hstep hu, ih (Nat.le_of_succ_le_succ hmn) hv]

variable [Machine σ Mark]

theorem run_mono {call call' : Rule → σ → Option σ} {m n : Nat} (hmn : m ≤ n) {α : Type}
    {x : Script α} {s t : σ} {a : α} (h : x.run call m s = some (a, t))
    (hcall : ∀ {rule s t}, call rule s = some t → call' rule s = some t) :
    x.run call' n s = some (a, t) := by
  induction x generalizing s t with
  | done b => exact h
  | ask q next ih => exact ih _ h
  | act b next ih => exact ih () h
  | during scope body next ihBody ihNext =>
    simp only [run] at h ⊢
    split at h
    · cases h
    · next b u hu =>
      rw [ihBody hu]
      exact ihNext b h
  | many item next ihItem ihNext =>
    simp only [run] at h ⊢
    split at h
    · cases h
    · next bs u hu =>
      rw [repeatStep_mono ihItem hmn hu]
      exact ihNext bs h
  | call rule next ih =>
    simp only [run] at h ⊢
    split at h
    · cases h
    · next u hu =>
      rw [hcall hu]
      exact ih () h

theorem runRule_mono {script : Rule → Script Unit} {m n : Nat} (hmn : m ≤ n) {rule : Rule}
    {s t : σ} (h : runRule script m rule s = some t) : runRule script n rule s = some t := by
  induction m generalizing n rule s t with
  | zero => simp [runRule] at h
  | succ m ih =>
    obtain ⟨n, rfl⟩ : ∃ k, n = k + 1 := ⟨n - 1, by omega⟩
    simp only [runRule] at h ⊢
    split at h
    · cases h
    · next u hu =>
      cases h
      have hm : m ≤ n := Nat.le_of_succ_le_succ hmn
      rw [run_mono hm hu (ih hm)]

/-! ### What a script yields -/

variable {script : Rule → Script Unit} {α β : Type} {s t u : σ}

/-- A script, run from a state on some fuel, has a result and ends in a state. -/
def Yields (script : Rule → Script Unit) (x : Script α) (s : σ) (a : α) (t : σ) : Prop :=
  ∃ fuel, x.run (runRule script fuel) fuel s = some (a, t)

theorem Yields.run_of_le {x : Script α} {a : α} {m n : Nat} (hmn : m ≤ n)
    (h : x.run (runRule script m) m s = some (a, t)) :
    x.run (runRule script n) n s = some (a, t) :=
  run_mono hmn h (runRule_mono hmn)

/-- A script yields no two results. -/
theorem Yields.unique {x : Script α} {a b : α} (h : Yields script x s a t)
    (h' : Yields script x s b u) : a = b ∧ t = u := by
  obtain ⟨m, hm⟩ := h
  obtain ⟨n, hn⟩ := h'
  have hm := Yields.run_of_le (Nat.le_max_left m n) hm
  have hn := Yields.run_of_le (Nat.le_max_right m n) hn
  rw [hm] at hn
  simpa using hn

/-! ### Building up what a script yields -/

theorem yields_pure (a : α) : Yields script (pure a) s a s := ⟨0, rfl⟩

theorem Yields.bind {x : Script α} {f : α → Script β} {a : α} {b : β} (hx : Yields script x s a t)
    (hf : Yields script (f a) t b u) : Yields script (x >>= f) s b u := by
  obtain ⟨m, hm⟩ := hx
  obtain ⟨n, hn⟩ := hf
  have hm := Yields.run_of_le (Nat.le_max_left m n) hm
  have hn := Yields.run_of_le (Nat.le_max_right m n) hn
  refine ⟨max m n, ?_⟩
  change (x.bind f).run _ _ s = _
  rw [run_bind, hm]
  exact hn

theorem Yields.of_bind {x : Script α} {f : α → Script β} {b : β}
    (h : Yields script (x >>= f) s b u) :
    ∃ a t, Yields script x s a t ∧ Yields script (f a) t b u := by
  obtain ⟨fuel, h⟩ := h
  have hrun : (x.bind f).run (runRule script fuel) fuel s = some (b, u) := h
  rw [run_bind, Option.bind_eq_some_iff] at hrun
  obtain ⟨⟨a, t⟩, hx, hf⟩ := hrun
  exact ⟨a, t, ⟨fuel, hx⟩, fuel, hf⟩

theorem yields_ask {q : Query β} {f : β → Script α} {a : α} :
    Yields script (.ask q .done >>= f) s a t ↔ Yields script (f (Machine.answer s q)) s a t :=
  Iff.rfl

theorem Yields.within {scope : Scope} {body : Script α} {a : α}
    (h : Yields script body (Machine.begin s scope).2 a t) :
    Yields script (within scope body) s a (Machine.leave t (Machine.begin s scope).1 scope) := by
  obtain ⟨fuel, h⟩ := h
  refine ⟨fuel, ?_⟩
  simp only [Script.within, run, h]

theorem Yields.call {rule : Rule} (h : Yields script (script rule) s () t) :
    Yields script (.call rule .done) s () t := by
  obtain ⟨fuel, h⟩ := h
  refine ⟨fuel + 1, ?_⟩
  simp only [run, runRule, h]

theorem yields_collect_nil {item : Script (Option β)} (h : Yields script item s none t) :
    Yields script (collect item) s [] t := by
  obtain ⟨fuel, h⟩ := h
  refine ⟨fuel + 1, ?_⟩
  simp only [collect, run, repeatStep, Yields.run_of_le (Nat.le_succ fuel) h]

theorem yields_collect_cons {item : Script (Option β)} {b : β} {bs : List β}
    (h : Yields script item s (some b) t) (hbs : Yields script (collect item) t bs u) :
    Yields script (collect item) s (b :: bs) u := by
  obtain ⟨m, hm⟩ := h
  obtain ⟨n, hn⟩ := hbs
  have hm := Yields.run_of_le (Nat.le_trans (Nat.le_max_left m n) (Nat.le_succ _)) hm
  refine ⟨max m n + 1, ?_⟩
  simp only [collect, run] at hn ⊢
  split at hn
  · cases hn
  · next cs v hcs =>
    cases hn
    have hitem {s : σ} {b : Option β} {t : σ} (hs : item.run (runRule script n) n s = some (b, t)) :
        item.run (runRule script (max m n + 1)) (max m n + 1) s = some (b, t) :=
      Yields.run_of_le (Nat.le_trans (Nat.le_max_right m n) (Nat.le_succ _)) hs
    have hrounds := repeatStep_mono hitem (Nat.le_max_right m n) hcs
    simp only [repeatStep, hm, hrounds]

theorem yields_whileM_nil {test : Script Bool} {body : Script Unit}
    (htest : Yields script test s false t) : Yields script (whileM test body) s () t :=
  Yields.bind (yields_collect_nil (htest.bind (yields_pure none))) (yields_pure ())

theorem yields_whileM_cons {test : Script Bool} {body : Script Unit} {v : σ}
    (htest : Yields script test s true t) (hbody : Yields script body t () u)
    (h : Yields script (whileM test body) u () v) : Yields script (whileM test body) s () v := by
  obtain ⟨bs, v', hbs, hdone⟩ := h.of_bind
  refine Yields.bind (yields_collect_cons (b := ()) (htest.bind ?_) hbs) hdone
  exact hbody.bind (yields_pure (some ()))

end Script

end Parsing

end CRBasic
