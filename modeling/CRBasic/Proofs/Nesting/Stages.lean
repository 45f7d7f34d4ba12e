import CRBasic.Proofs.Nesting.Runs

/-!
# The stages of a parse

A machine that keeps the stages that it passes shows every one of them (`stages`).  The depth of a stage
never exceeds the limit (`depth_le_of_mem_stages`).  Rules call each other without end only where the
depth grows, for a call that does not nest leads from statements to expressions and from those nowhere
(`not_transGen_callsFlat`).
-/

namespace CRBasic

namespace Parsing

open Script Grammar

/-! ### Machines that keep their stages -/

/-- A stage, with those that were passed before it. -/
structure Recorded (σ : Type) where
  now : σ
  /-- The stages before, the last one first. -/
  past : List σ := []

namespace Recorded

variable {σ Mark : Type} [Machine σ Mark]

/-- The next stage. -/
def goTo (r : Recorded σ) (s : σ) : Recorded σ := ⟨s, r.now :: r.past⟩

/-- All stages, the last one first. -/
def stages (r : Recorded σ) : List σ := r.now :: r.past

instance : Machine (Recorded σ) Mark where
  answer r q := Machine.answer r.now q
  perform r a := r.goTo (Machine.perform r.now a)
  begin r scope := ((Machine.begin r.now scope).1, r.goTo (Machine.begin r.now scope).2)
  leave r mark scope := r.goTo (Machine.leave r.now mark scope)

/-- Keeping the stages changes no step. -/
theorem simulation : Simulation fun (_ : Unit) (s : σ) (r : Recorded σ) => r.now = s where
  answer q h := by
    subst h
    rfl
  perform a h := by
    subst h
    rfl
  stretch scope h := by
    subst h
    exact ⟨(), rfl, fun u v huv => by subst huv; rfl⟩

/-- The first stage stays the first one. -/
theorem kept_first :
    Kept fun (s : σ) (r : Recorded σ) => r.stages.getLast? = some s where
  perform a h := by
    rw [← h]
    exact List.getLast?_cons_cons
  stretch scope h := by
    refine ⟨_, by rw [← h]; exact List.getLast?_cons_cons, fun t ht => ?_⟩
    rw [← ht]
    exact List.getLast?_cons_cons

end Recorded

/-- The stages of a parse, from the one before the first word on. -/
def stages (options : ParseOptions) (words : List Word) : List State :=
  let fuel := fuelFor words
  let start : Recorded State := { now := State.initial options words }
  match sourceFile.run (runRule script fuel) fuel start with
  | some (_, r) => r.stages.reverse
  | none => []

variable (options : ParseOptions) (words : List Word)

/-- The run of a whole text with its stages. -/
theorem exists_recorded : ∃ r : Recorded State,
    Yields script sourceFile { now := State.initial options words } () r ∧
      stages options words = r.stages.reverse ∧ r.now = finalState options words := by
  have hstart : ({ now := State.initial options words } : Recorded State).now =
      State.initial options words := rfl
  obtain ⟨hrun, -⟩ := run_sourceFile options words (Nat.le_refl _)
  obtain ⟨r, hr, hnow⟩ := (Recorded.simulation (σ := State)).run (i := ()) hstart hrun
    (Recorded.simulation.runRule (i := ()))
  refine ⟨r, ⟨_, hr⟩, ?_, hnow⟩
  rw [stages, hr]

/-- The stages lead from the state before the first word to the one after the last. -/
theorem stages_ends : (stages options words).head? = some (State.initial options words) ∧
    (stages options words).getLast? = some (finalState options words) := by
  obtain ⟨r, ⟨fuel, hr⟩, hstages, hnow⟩ := exists_recorded options words
  rw [hstages, List.head?_reverse, List.getLast?_reverse, ← hnow]
  refine ⟨?_, rfl⟩
  exact (Recorded.kept_first (σ := State)).run rfl hr Recorded.kept_first.runRule

/-! ### Depths -/

/-- Where `k` levels are left, and no stage has exceeded the limit. -/
structure WithinLimit (limit k n m : Nat) (r : Recorded State) : Prop where
  now : r.now.HasLeft limit k
  past : ∀ s ∈ r.past, s.depth ≤ limit

namespace WithinLimit

variable {limit k n m n' m' : Nat} {r : Recorded State} {t : State}

theorem depth_le (h : WithinLimit limit k n m r) : ∀ s ∈ r.stages, s.depth ≤ limit := by
  intro s hs
  rcases List.mem_cons.1 hs with rfl | hs
  · exact Nat.le.intro h.now.left
  · exact h.past s hs

/-- A step to a stage with some levels left. -/
theorem goTo {j : Nat} (h : WithinLimit limit k n m r) (ht : t.HasLeft limit j) :
    WithinLimit limit j n' m' (r.goTo t) := ⟨ht, h.depth_le⟩

theorem perform (h : WithinLimit limit k n m r) (a : Action) :
    WithinLimit limit k n m (r.goTo (r.now.perform a)) := by
  apply h.goTo
  cases a with
  | take =>
    show r.now.take.HasLeft limit k
    unfold State.take
    split
    · exact h.now
    · exact ⟨h.now.options, h.now.left⟩
  | report place cause => exact h.now.report place cause
  | silence => exact ⟨h.now.options, h.now.left⟩
  | listen => exact ⟨h.now.options, h.now.left⟩

theorem openAround (h : WithinLimit limit k n m r) :
    WithinLimit limit k n' m' (r.goTo r.now.openAround) := by
  apply h.goTo
  unfold State.openAround
  split
  · exact h.now
  · exact h.now

/-- Every step stays within the limit, for a stretch that nests needs a level that is left. -/
theorem keeps (b : Budget) (limit : Nat) : Keeps b (WithinLimit limit) where
  tooDeep h := h.now.tooDeep_eq
  last h := ⟨h.now, h.past⟩
  perform a h := h.perform a
  node h _ := ⟨h.goTo h.now, fun _ hu => hu.goTo hu.now⟩
  wrap h _ _ _ := ⟨h.openAround, fun _ hu => hu.goTo hu.now⟩
  nested h := ⟨h.goTo h.now.enter, fun _ hu => hu.goTo (h.now.leave hu.now)⟩
  stopAt _ h := ⟨h.goTo ⟨h.now.options, h.now.left⟩, fun _ hu =>
    hu.goTo ⟨hu.now.options, hu.now.left⟩⟩
  measured h := ⟨h.goTo ⟨h.now.options, h.now.left⟩, fun _ hu =>
    hu.goTo ⟨hu.now.options, hu.now.left⟩⟩

end WithinLimit

/-- A budget that counts the nodes that nest. -/
def Budget.nests : Budget where
  silence := true
  oneLineIf := true
  nesting := 1
  operation := 0
  other := 0
  expression k := k
  statement k := k

theorem Budget.sound_nests : Budget.nests.Sound where
  silence := rfl
  oneLineIf := rfl
  skippedExpression := Nat.le_refl 0
  skippedStatement := Nat.le_refl 0
  name k := by
    show 0 + k ≤ k + 1
    omega
  nest k := Nat.le_of_eq (Nat.add_comm 1 k)
  operation k := by
    show 0 + k ≤ k + 1
    omega
  line k := Nat.le_of_eq (Nat.zero_add (k + 1))
  body k := Nat.le_of_eq (Nat.add_comm 1 k)

/-- At no point of a parse the depth is greater than the limit. -/
theorem depth_le_of_mem_stages {s : State} (hs : s ∈ stages options words) :
    s.depth ≤ options.maxDepth := by
  obtain ⟨r, ⟨fuel, hr⟩, hstages, -⟩ := exists_recorded options words
  rw [hstages, List.mem_reverse] at hs
  have hstart : WithinLimit options.maxDepth options.maxDepth 0 0
      { now := State.initial options words } :=
    ⟨⟨rfl, Nat.zero_add _⟩, fun s hs => absurd hs List.not_mem_nil⟩
  rw [sourceFile_eq, Script.node, run_within_iff] at hr
  obtain ⟨u, hu, rfl⟩ := hr
  have hbegin : WithinLimit options.maxDepth options.maxDepth options.maxDepth 0
      (Machine.begin ({ now := State.initial options words } : Recorded State)
        (.node .sourceFile)).2 := hstart.goTo hstart.now
  have hinner := (WithinLimit.keeps Budget.nests options.maxDepth).statements Budget.sound_nests
    hbegin ⟨fuel, hu⟩
  have hend : WithinLimit options.maxDepth options.maxDepth 0 0
      (Machine.leave u (Machine.begin ({ now := State.initial options words } : Recorded State)
        (.node .sourceFile)).1 (.node .sourceFile)) := hinner.goTo hinner.now
  exact hend.depth_le s hs

/-! ### Calls that do not nest -/

/-- A script may call a rule outside all nested stretches, given suitable answers.  Scripts do not refer
to themselves, so the rules are all that can call each other in a circle. -/
def Script.CallsFlat : {α : Type} → Script α → Rule → Prop
  | _, .done _, _ => False
  | _, .ask _ next, rule => ∃ a, (next a).CallsFlat rule
  | _, .act _ next, rule => (next ()).CallsFlat rule
  | _, .during .nested _ next, rule => ∃ a, (next a).CallsFlat rule
  | _, .during _ body next, rule => body.CallsFlat rule ∨ ∃ a, (next a).CallsFlat rule
  | _, .many item next, rule => item.CallsFlat rule ∨ ∃ as, (next as).CallsFlat rule
  | _, .call called next, rule => called = rule ∨ (next ()).CallsFlat rule

/-- Calls that do not nest are no higher than the script. -/
theorem Script.Bounded.call_le {b : Budget} {α : Type} {x : Script α} {rule : Rule} {k n m : Nat}
    (hx : x.Bounded b k n m) (h : x.CallsFlat rule) : b.call rule k ≤ n := by
  induction x generalizing n m with
  | done a => exact absurd h id
  | ask q next ih =>
    obtain ⟨a, h⟩ := h
    exact ih a (hx.2 a) h
  | act a next ih => exact ih () hx.2 h
  | during scope body next ihBody ih =>
    cases scope with
    | node kind =>
      obtain ⟨i, hi, hbody, hnext⟩ := hx
      rcases h with h | ⟨a, h⟩
      · have := ihBody hbody h
        omega
      · exact ih a (hnext a) h
    | wrap kind =>
      obtain ⟨i, height, hleft, hi, hn, hbody, hnext⟩ := hx
      rcases h with h | ⟨a, h⟩
      · have := ihBody hbody h
        omega
      · exact ih a (hnext a) h
    | nested =>
      obtain ⟨j, hj, hbody, hnext⟩ := hx
      obtain ⟨a, h⟩ := h
      exact ih a (hnext a) h
    | stopAt kinds =>
      rcases h with h | ⟨a, h⟩
      · exact ihBody hx.1 h
      · exact ih a (hx.2 a) h
    | measured =>
      rcases h with h | ⟨a, h⟩
      · exact ihBody hx.1 h
      · exact ih a (hx.2 a) h
  | many item next ihItem ih =>
    rcases h with h | ⟨as, h⟩
    · exact ihItem hx.1 h
    · exact ih as (hx.2 as) h
  | call called next ih =>
    rcases h with rfl | h
    · exact hx.1
    · exact ih () hx.2 h

/-- A budget that ranks the calls at a level: statements above expressions, and both above all that is
deeper. -/
def Budget.ranks : Budget where
  silence := true
  oneLineIf := true
  nesting := 0
  operation := 0
  other := 0
  expression k := if k = 0 then 0 else 1
  statement k := if k = 0 then 0 else 2

/-- The rank of a rule. -/
def Rule.rank (rule : Rule) : Nat := Budget.ranks.call rule 1

/-- A rule calls another one without nesting. -/
def CallsFlat (caller called : Rule) : Prop := (script caller).CallsFlat called

/-- A call that does not nest leads to a lower rank. -/
theorem CallsFlat.rank_lt {caller called : Rule} (h : CallsFlat caller called) :
    called.rank < caller.rank := by
  cases caller with
  | statement =>
    show called.rank < 2
    apply Nat.lt_succ_of_le
    obtain ⟨deep, h⟩ := h
    cases deep with
    | true => exact (bounded_skipDeepStatement (n := 1) (Nat.zero_le 1)).call_le h
    | false =>
      obtain ⟨found, h⟩ := h
      cases found with
      | none => exact absurd h id
      | some found =>
        exact (bounded_statementOf (b := Budget.ranks) (k := 0) (n := 1) (by decide) (by decide)
          found fun _ => rfl).call_le h
  | expression power =>
    show called.rank < 1
    apply Nat.lt_succ_of_le
    obtain ⟨deep, h⟩ := h
    cases deep with
    | true =>
      exact (bounded_skipDeepExpression (b := Budget.ranks) (n := 0) rfl (Nat.zero_le 0)).call_le h
    | false =>
      exact (bounded_deeperExpression (b := Budget.ranks) (k := 0) (n := 0) (by decide) (by decide)
        (by decide) power).call_le h

/-- No rule calls itself, directly or through others, without nesting. -/
theorem not_transGen_callsFlat (rule : Rule) : ¬ Relation.TransGen CallsFlat rule rule := by
  have hrank {caller called : Rule} (h : Relation.TransGen CallsFlat caller called) :
      called.rank < caller.rank := by
    induction h with
    | single h => exact h.rank_lt
    | tail _ h ih => exact Nat.lt_trans h.rank_lt ih
  intro h
  exact Nat.lt_irrefl _ (hrank h)

end Parsing

end CRBasic
