import CRBasic.Proofs.Embedding.Statements
import CRBasic.Proofs.Nesting.Statements
import CRBasic.Proofs.Parsing.Root

/-!
# Looser options

Options matter to a parse in two places: a rule asks whether the nesting has reached the limit, and an
`If` asks whether it may stand on one line.  Where looser options have another answer, the stricter ones
lead to a problem.  So a script takes the same steps under both, or a problem of that kind is found
(`Agrees`), and a text without such a problem is read alike (`ReadsAs.looser`).
-/

namespace CRBasic

namespace Parsing

open Script Grammar

/-- A problem that counts has been found. -/
def Reading.Blamed (bad : Cause → Prop) (s : Reading) : Prop := ∃ r ∈ s.reports.toList, bad r.cause

/-- What has been found stays found. -/
theorem Reading.GoesOn.blamed {bad : Cause → Prop} {s t : Reading} (h : s.GoesOn t)
    (hs : s.Blamed bad) : t.Blamed bad := by
  obtain ⟨r, hr, hbad⟩ := hs
  exact ⟨r, h.reports.subset hr, hbad⟩

/-- The same sketch under other options. -/
def Sketch.under (options : ParseOptions) (s : Sketch) : Sketch := { s with options }

/-- Options that allow more than others.  Where one-line forms are allowed in addition, it counts as a
problem if a line goes on where it should end, and no word may be in error. -/
structure Loosens (o o' : ParseOptions) (bad : Cause → Prop) (fit : Word → Prop) : Prop where
  maxDepth : o.maxDepth ≤ o'.maxDepth
  tooDeep : bad .nestingTooDeep
  singleLineIf : o'.singleLineIf = o.singleLineIf ∨ o.singleLineIf = false ∧
    (∀ k, bad (.trailing k)) ∧ ∀ w, fit w → w.kind ≠ .error

/-- A sketch under some options, with fit words left, where problems are not passed over. -/
structure Sketch.Ready (o : ParseOptions) (fit : Word → Prop) (s : Sketch) : Prop where
  options : s.options = o
  loud : s.silenced = false
  words : ∀ w ∈ s.rest, fit w

/-- A script takes the same steps under other options, unless a problem that counts is found. -/
def Agrees (o o' : ParseOptions) (bad : Cause → Prop) (fit : Word → Prop) (fuel : Nat) {α : Type}
    (x : Script α) : Prop :=
  ∀ (s : Sketch) (a : α) (t : Sketch), s.Ready o fit →
    x.run (runRule script fuel) fuel s = some (a, t) →
      t.Blamed bad ∨ t.Ready o fit ∧
        x.run (runRule script fuel) fuel (s.under o') = some (a, t.under o')

section Rules

variable {o o' : ParseOptions} {bad : Cause → Prop} {fit : Word → Prop} {fuel : Nat} {α β : Type}
  {s t : Sketch}

/-! ### Rules -/

theorem agrees_pure (a : α) : Agrees o o' bad fit fuel (pure a) := by
  intro s c t hs hrun
  obtain ⟨rfl, rfl⟩ := run_pure_iff.1 hrun
  exact .inr ⟨hs, run_pure_iff.2 ⟨rfl, rfl⟩⟩

theorem agrees_bind {x : Script α} {f : α → Script β} (hx : Agrees o o' bad fit fuel x)
    (hf : ∀ a, Agrees o o' bad fit fuel (f a)) : Agrees o o' bad fit fuel (x >>= f) := by
  intro s c t hs hrun
  obtain ⟨a, u, hu, hrun⟩ := run_bind_iff.1 hrun
  rcases hx s a u hs hu with hlost | ⟨hready, hu'⟩
  · exact .inl ((Sketch.goesOn_of_run hrun).blamed hlost)
  · refine (hf a u c t hready hrun).imp_right fun h => ⟨h.1, ?_⟩
    exact run_bind_iff.2 ⟨a, u.under o', hu', h.2⟩

theorem agrees_ask {q : Query α} {f : α → Script β}
    (hq : ∀ s : Sketch, Machine.answer (s.under o') q = Machine.answer s q)
    (hf : ∀ a, Agrees o o' bad fit fuel (f a)) :
    Agrees o o' bad fit fuel (Script.ask q .done >>= f) := by
  intro s c t hs hrun
  rw [run_ask_bind] at hrun
  rw [run_ask_bind, hq]
  exact hf _ s c t hs hrun

theorem Sketch.take_under (s : Sketch) : (s.under o').take = s.take.under o' := by
  have hrest : (s.under o').rest = s.rest := rfl
  unfold Sketch.take
  rw [hrest]
  cases s.rest <;> rfl

theorem Sketch.report_under (s : Sketch) (place : Place) (cause : Cause) :
    (s.under o').perform (.report place cause) = (s.perform (.report place cause)).under o' := by
  have hedges : ({ s.toReading with options := o' } : Reading).edges place = s.edges place := by
    cases place <;> rfl
  have hreport : ({ s.toReading with options := o' } : Reading).report place cause =
      { s.toReading.report place cause with options := o' } := by
    unfold Reading.report
    rw [hedges]
    by_cases hs : s.silenced = true
    · rw [if_pos hs, if_pos hs]
    · rw [if_neg hs, if_neg hs]
  show ({ toReading := ({ s.toReading with options := o' } : Reading).report place cause,
          parts := s.parts } : Sketch) = _
  rw [hreport]
  rfl

theorem Sketch.Ready.take (h : s.Ready o fit) : s.take.Ready o fit := by
  unfold Sketch.take
  split
  · exact h
  · next w rest hrest =>
    refine ⟨h.options, h.loud, fun v hv => h.words v ?_⟩
    rw [hrest]
    exact List.mem_cons_of_mem w hv

theorem Sketch.Ready.report (h : s.Ready o fit) (place : Place) (cause : Cause) :
    (s.perform (.report place cause)).Ready o fit := by
  show Sketch.Ready o fit { s with toReading := s.toReading.report place cause }
  unfold Reading.report
  split
  · exact h
  · exact ⟨h.options, h.loud, h.words⟩

theorem agrees_act {action : Action} (haction : action ≠ .silence) :
    Agrees o o' bad fit fuel (Script.act action .done) := by
  intro s c t hs hrun
  obtain rfl := run_act_iff.1 hrun
  refine .inr ?_
  rw [run_act_iff]
  cases action with
  | take => exact ⟨hs.take, s.take_under.symm⟩
  | report place cause => exact ⟨hs.report place cause, (s.report_under place cause).symm⟩
  | silence => exact absurd rfl haction
  | listen => exact ⟨⟨hs.options, rfl, hs.words⟩, rfl⟩

theorem agrees_within {scope : Scope} {x : Script α} (hx : Agrees o o' bad fit fuel x) :
    Agrees o o' bad fit fuel (within scope x) := by
  intro s c t hs hrun
  obtain ⟨u, hu, rfl⟩ := run_within_iff.1 hrun
  have hbegin : (Machine.begin s scope).2.Ready o fit := by
    cases scope <;> exact ⟨hs.options, hs.loud, hs.words⟩
  refine (hx _ c u hbegin hu).imp (fun h => ?_) fun h => ⟨?_, run_within_iff.2 ⟨u.under o', ?_, ?_⟩⟩
  · cases scope <;> exact h
  · cases scope <;> exact ⟨h.1.options, h.1.loud, h.1.words⟩
  · cases scope <;> exact h.2
  · cases scope <;> rfl

theorem agrees_collect {item : Script (Option β)} (h : Agrees o o' bad fit fuel item) :
    Agrees o o' bad fit fuel (collect item) := by
  intro s cs t hs hrun
  rw [run_collect_iff] at hrun ⊢
  refine repeatStep_induction (P := fun n (s : Sketch) cs (t : Sketch) => s.Ready o fit →
    t.Blamed bad ∨ t.Ready o fit ∧
      repeatStep (item.run (runRule script fuel) fuel) n (s.under o') = some (cs, t.under o'))
    ?_ ?_ hrun hs
  · intro n s t hst hs
    refine (h s none t hs hst).imp_right fun hrun => ⟨hrun.1, ?_⟩
    simp only [repeatStep, hrun.2]
  · intro n s c u cs t hsu hut ih hs
    rcases h s (some c) u hs hsu with hlost | ⟨hready, hsu'⟩
    · exact .inl ((Sketch.goesOn_of_rounds hut).blamed hlost)
    · refine (ih hready).imp_right fun hrun => ⟨hrun.1, ?_⟩
      simp only [repeatStep, hsu', hrun.2]

/-! ### Scripts that ask nothing of the options -/

/-- A budget for single steps: nothing costs, no problem is passed over, and the options do not
matter. -/
def Budget.steps : Budget where
  silence := false
  oneLineIf := false
  nesting := 0
  operation := 0
  other := 0
  expression _ := 0
  statement _ := 0

/-- What is bounded by that budget takes the same steps. -/
theorem agrees_of_bounded {x : Script α} {k n m : Nat} (hx : x.Bounded Budget.steps k n m)
    (hcall : ∀ rule, Agrees o o' bad fit fuel (.call rule .done)) : Agrees o o' bad fit fuel x := by
  induction x generalizing k n m with
  | done a => exact agrees_pure a
  | ask q next ih =>
    obtain ⟨hq, hnext⟩ := hx
    show Agrees o o' bad fit fuel (Script.ask q .done >>= next)
    refine agrees_ask (fun s => ?_) fun a => ih a (hnext a)
    cases q <;> first | rfl | cases hq
  | act action next ih =>
    obtain ⟨haction, hnext⟩ := hx
    show Agrees o o' bad fit fuel (Script.act action .done >>= next)
    refine agrees_bind (agrees_act ?_) fun u => ih u hnext
    rintro rfl
    cases haction
  | @during α β scope body next ihBody ih =>
    have hparts : (∃ k n m, body.Bounded Budget.steps k n m) ∧
        ∀ c, ∃ k n m, (next c).Bounded Budget.steps k n m := by
      cases scope with
      | node kind =>
        obtain ⟨i, -, hbody, hnext⟩ := hx
        exact ⟨⟨_, _, _, hbody⟩, fun c => ⟨_, _, _, hnext c⟩⟩
      | wrap kind =>
        obtain ⟨i, height, -, -, -, hbody, hnext⟩ := hx
        exact ⟨⟨_, _, _, hbody⟩, fun c => ⟨_, _, _, hnext c⟩⟩
      | nested =>
        obtain ⟨j, -, hbody, hnext⟩ := hx
        exact ⟨⟨_, _, _, hbody⟩, fun c => ⟨_, _, _, hnext c⟩⟩
      | stopAt kinds => exact ⟨⟨_, _, _, hx.1⟩, fun c => ⟨_, _, _, hx.2 c⟩⟩
      | measured => exact ⟨⟨_, _, _, hx.1⟩, fun c => ⟨_, _, _, hx.2 c⟩⟩
    obtain ⟨⟨_, _, _, hbody⟩, hnext⟩ := hparts
    show Agrees o o' bad fit fuel (within scope body >>= next)
    refine agrees_bind (agrees_within (ihBody hbody)) fun c => ?_
    obtain ⟨_, _, _, hc⟩ := hnext c
    exact ih c hc
  | many item next ihItem ih =>
    show Agrees o o' bad fit fuel (collect item >>= next)
    exact agrees_bind (agrees_collect (ihItem hx.1)) fun cs => ih cs (hx.2 cs)
  | call rule next ih =>
    show Agrees o o' bad fit fuel (Script.call rule .done >>= next)
    exact agrees_bind (hcall rule) fun u => ih u hx.2

end Rules

/-! ### The two questions -/

section Questions

variable {o o' : ParseOptions} {bad : Cause → Prop} {fit : Word → Prop} {fuel : Nat} {α : Type}
  {s t : Sketch} (h : Loosens o o' bad fit)

/-- A report that counts, where problems are not passed over. -/
theorem blamed_report {place : Place} {cause : Cause} (hs : s.silenced = false) (hcause : bad cause) :
    (s.perform (.report place cause)).Blamed bad := by
  show (s.toReading.report place cause).Blamed bad
  unfold Reading.report
  rw [if_neg (Bool.eq_false_iff.1 hs)]
  refine ⟨⟨cause, (s.edges place).1, (s.edges place).2⟩, ?_, hcause⟩
  show _ ∈ (s.reports.push _).toList
  rw [Array.toList_push]
  exact List.mem_append_right _ List.mem_cons_self

include h

/-- A rule that is too deep finds a problem; else it is not too deep under looser options either. -/
theorem Loosens.agrees_tooDeep {x y : Script Unit}
    (hx : ∀ {s t : Sketch}, s.silenced = false →
      x.run (runRule script fuel) fuel s = some ((), t) → t.Blamed bad)
    (hy : Agrees o o' bad fit fuel y) :
    Agrees o o' bad fit fuel (do if ← Script.tooDeep then x else y) := by
  intro s c t hs hrun
  rw [Script.tooDeep, run_ask_bind] at hrun ⊢
  have hmax := h.maxDepth
  by_cases hdeep : o.maxDepth ≤ s.depth
  · have hanswer : Machine.answer s .tooDeep = true := by
      show decide (s.options.maxDepth ≤ s.depth) = true
      rw [hs.options]
      exact decide_eq_true hdeep
    rw [hanswer] at hrun
    exact .inl (hx hs.loud hrun)
  · have hanswer : Machine.answer s .tooDeep = false := by
      show decide (s.options.maxDepth ≤ s.depth) = false
      rw [hs.options]
      exact decide_eq_false hdeep
    have hanswer' : Machine.answer (s.under o') .tooDeep = false := by
      show decide (o'.maxDepth ≤ s.depth) = false
      exact decide_eq_false (by omega)
    rw [hanswer] at hrun
    rw [hanswer']
    exact hy s c t hs hrun

/-- Where only looser options allow the one-line form, its statement is more of a line than the block
form has. -/
theorem Loosens.agrees_ifBranches (hblock : Agrees o o' bad fit fuel blockBranches)
    (hline : Agrees o o' bad fit fuel oneLineBranches) : Agrees o o' bad fit fuel ifBranches := by
  intro s c t hs hrun
  by_cases hend : AtEnd s
  · have hend' : AtEnd (s.under o') := hend
    rw [run_ifBranches_of_block (.inr hend)] at hrun
    rw [run_ifBranches_of_block (.inr hend')]
    exact hblock s c t hs hrun
  · have hend' : ¬ AtEnd (s.under o') := hend
    cases hsingle : s.options.singleLineIf with
    | true =>
      have hsingle' : (s.under o').options.singleLineIf = true := by
        rcases h.singleLineIf with heq | ⟨hfalse, -⟩
        · rw [hs.options, ← heq] at hsingle
          exact hsingle
        · rw [hs.options, hfalse] at hsingle
          cases hsingle
      rw [run_ifBranches_of_oneLine hsingle hend] at hrun
      rw [run_ifBranches_of_oneLine hsingle' hend']
      exact hline s c t hs hrun
    | false =>
      rw [run_ifBranches_of_block (.inl hsingle)] at hrun
      rcases h.singleLineIf with heq | ⟨-, htrailing, herror⟩
      · have hsingle' : (s.under o').options.singleLineIf = false := by
          rw [hs.options, ← heq] at hsingle
          exact hsingle
        rw [run_ifBranches_of_block (.inl hsingle')]
        exact hblock s c t hs hrun
      · have hwords (k : TokenKind) (hk : s.current = some k) : k ≠ .error := by
          obtain ⟨w, ws, hrest, rfl⟩ := Reading.exists_rest hk
          refine herror w (hs.words w ?_)
          rw [hrest]
          exact List.mem_cons_self
        obtain ⟨_, u, hu, hrun⟩ := run_bind_iff.1 hrun
        obtain ⟨k, x, hx⟩ := exists_trailing hend hwords hu
        have hblamed : (s.perform (.report .here (.trailing k))).Blamed bad :=
          blamed_report hs.loud (htrailing k)
        exact .inl ((Sketch.goesOn_of_run hrun).blamed ((Sketch.goesOn_of_run hx).blamed hblamed))

/-! ### Whole texts -/

/-- A statement under options of either kind.  Only an `If` asks for them. -/
theorem Loosens.agrees_statementOf (k : TokenKind)
    (hcall : ∀ rule, Agrees o o' bad fit fuel (.call rule .done)) :
    Agrees o o' bad fit fuel (statementOf k) := by
  have hzero : 3 * Budget.steps.other + Budget.steps.expression (0 + 1) ≤ 0 := Nat.le_refl 0
  have hbody : Budget.steps.other + Budget.steps.nesting + Budget.steps.statement 0 ≤ 0 :=
    Nat.le_refl 0
  by_cases hk : k = .kwIf
  · subst hk
    show Agrees o o' bad fit fuel (node .ifStmt (do take; condition; ifBranches))
    have hcondition : condition.Bounded Budget.steps 1 0 0 := bounded_condition (Nat.le_refl 0)
    refine agrees_within (agrees_bind (agrees_act nofun) fun _ => ?_)
    refine agrees_bind (agrees_of_bounded hcondition hcall) fun _ => h.agrees_ifBranches ?_ ?_
    · exact agrees_of_bounded (bounded_blockBranches hzero hbody) hcall
    · exact agrees_of_bounded (bounded_oneLineBranches hbody) hcall
  · exact agrees_of_bounded (bounded_statementOf hzero hbody k fun hif => absurd hif hk) hcall

/-- The script of a rule, where the rules that it calls agree. -/
theorem Loosens.agrees_script (rule : Rule)
    (hcall : ∀ rule, Agrees o o' bad fit fuel (.call rule .done)) :
    Agrees o o' bad fit fuel (script rule) := by
  have hlost {place : Place} {x : Script Unit} {s t : Sketch} (hs : s.silenced = false)
      (hrun : (do report place .nestingTooDeep; x).run (runRule script fuel) fuel s = some ((), t)) :
      t.Blamed bad :=
    (Sketch.goesOn_of_run (x := x) hrun).blamed (blamed_report hs h.tooDeep)
  cases rule with
  | statement =>
    refine agrees_bind (agrees_act nofun) fun _ => h.agrees_tooDeep hlost ?_
    refine agrees_ask (fun _ => rfl) fun found => ?_
    cases found with
    | none => exact agrees_pure ()
    | some k => exact h.agrees_statementOf k hcall
  | expression power =>
    refine h.agrees_tooDeep hlost (agrees_of_bounded (k := 1) (n := 0) (m := 0) ?_ hcall)
    exact bounded_deeperExpression (Nat.le_refl 0) (Nat.le_refl 0) (Nat.le_refl 0) power

/-- Every call of a rule, by induction on the fuel. -/
theorem Loosens.agrees_call (fuel : Nat) (rule : Rule) :
    Agrees o o' bad fit fuel (.call rule .done) := by
  have hrule : ∀ (n : Nat) (rule : Rule) (s t : Sketch), s.Ready o fit →
      runRule script n rule s = some t →
      t.Blamed bad ∨ t.Ready o fit ∧ runRule script n rule (s.under o') = some (t.under o') := by
    intro n
    induction n with
    | zero =>
      intro rule s t hs hrun
      cases hrun
    | succ n ih =>
      intro rule s t hs hrun
      have hcall (rule : Rule) : Agrees o o' bad fit n (.call rule .done) := by
        intro s c t hs hrun
        rw [run_call_iff] at hrun ⊢
        exact ih rule s t hs hrun
      refine (h.agrees_script rule hcall s () t hs (run_of_runRule hrun)).imp_right fun hagree => ?_
      refine ⟨hagree.1, ?_⟩
      rw [runRule, hagree.2]
  intro s c t hs hrun
  rw [run_call_iff] at hrun ⊢
  exact hrule fuel rule s t hs hrun

/-- A text without a problem that counts is read alike under looser options. -/
theorem ReadsAs.looser {words : List Word} {parts : List (Piece Draft)} {reports : List Report}
    (hreads : ReadsAs o words parts reports) (hwords : ∀ w ∈ words, fit w)
    (hreports : ∀ r ∈ reports, ¬ bad r.cause) : ReadsAs o' words parts reports := by
  obtain ⟨t, ⟨fuel, hrun⟩, hrest, rfl, rfl⟩ := hreads
  have hstatements : allStatements.Bounded Budget.steps 0 0 0 :=
    bounded_whileM (bounded_ask rfl fun _ => trivial) (bounded_statement (Nat.le_refl 0))
  have hagrees := agrees_of_bounded hstatements (h.agrees_call fuel)
  rcases hagrees (Sketch.initial o words) () t ⟨rfl, rfl, hwords⟩ hrun with hlost | ⟨-, hrun'⟩
  · obtain ⟨r, hr, hbad⟩ := hlost
    exact absurd hbad (hreports r hr)
  · exact ⟨t.under o', ⟨fuel, hrun'⟩, hrest, rfl, rfl⟩

end Questions

end Parsing

end CRBasic
