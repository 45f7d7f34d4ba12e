import CRBasic.Proofs.Nesting.Statements
import CRBasic.Proofs.Parsing.Root

/-!
# Runs that keep to a budget

A budget is sound if what it allows a rule is enough for the script of the rule (`Budget.Sound`).  What
the single steps keep of a stage, with the levels that are left and the heights of the parts so far
(`Keeps`), the run of all statements of a text then keeps (`Keeps.statements`).
-/

namespace CRBasic

namespace Parsing

/-- What a rule is allowed at a level is enough for its script. -/
structure Budget.Sound (b : Budget) : Prop where
  silence : b.silence = true
  oneLineIf : b.oneLineIf = true
  skippedExpression : b.other ≤ b.expression 0
  skippedStatement : b.other ≤ b.statement 0
  name (k : Nat) : 2 * b.other + b.expression k ≤ b.expression (k + 1)
  nest (k : Nat) : b.nesting + b.expression k ≤ b.expression (k + 1)
  operation (k : Nat) : b.operation + b.expression k ≤ b.expression (k + 1)
  line (k : Nat) : 4 * b.other + b.expression (k + 1) ≤ b.statement (k + 1)
  body (k : Nat) : 2 * b.other + b.nesting + b.statement k ≤ b.statement (k + 1)

/-- Of the levels up to the limit, `k` are left. -/
structure Reading.HasLeft (limit k : Nat) (s : Reading) : Prop where
  options : s.options.maxDepth = limit
  left : s.depth + k = limit

namespace Reading.HasLeft

variable {limit k : Nat} {s t : Reading}

theorem tooDeep_eq (h : s.HasLeft limit k) : s.tooDeep = decide (k = 0) := by
  have hlimit := h.options
  have hleft := h.left
  unfold Reading.tooDeep
  exact decide_eq_decide.2 (by omega)

theorem report (h : s.HasLeft limit k) (place : Place) (cause : Cause) :
    (s.report place cause).HasLeft limit k := by
  rw [Reading.report_eq]
  exact ⟨h.options, h.left⟩

theorem enter (h : s.HasLeft limit (k + 1)) : (s.enter .nested).HasLeft limit k := by
  have hleft := h.left
  refine ⟨h.options, ?_⟩
  show s.depth + 1 + k = limit
  omega

/-- A level that is left before a nested stretch is left again after it. -/
theorem leave (h : s.HasLeft limit (k + 1)) (ht : t.HasLeft limit k) :
    (t.leave .nested).HasLeft limit (k + 1) := by
  have hleft := h.left
  have hinner := ht.left
  refine ⟨ht.options, ?_⟩
  show t.depth - 1 + (k + 1) = limit
  omega

end Reading.HasLeft

section

variable {σ Mark : Type} [Machine σ Mark]

/-- Every single step keeps a property of stages.  The property depends on the levels that are left, on
a bound for the parts of the open node, and on one for the last of them. -/
structure Keeps (b : Budget) (I : Nat → Nat → Nat → σ → Prop) : Prop where
  tooDeep {k n m : Nat} {s : σ} (h : I k n m s) : Machine.answer s .tooDeep = decide (k = 0)
  last {k n m : Nat} {s : σ} (h : I k n m s) : I k n n s
  perform {k n m : Nat} {s : σ} (a : Action) (h : I k n m s) : I k n m (Machine.perform s a)
  node {k n m i : Nat} {s : σ} {kind : NodeKind} (h : I k n m s) (hi : b.cost kind + i ≤ n) :
    I k i 0 (Machine.begin s (.node kind)).2 ∧ ∀ u, I k i i u →
      I k n (b.cost kind + i) (Machine.leave u (Machine.begin s (.node kind)).1 (.node kind))
  wrap {k n m i height : Nat} {s : σ} {kind : NodeKind} (h : I k n m s)
    (hleft : b.leftCost kind + m ≤ height) (hi : b.cost kind + i ≤ height) (hn : height ≤ n) :
    I k i 0 (Machine.begin s (.wrap kind)).2 ∧ ∀ u, I k i i u →
      I k n height (Machine.leave u (Machine.begin s (.wrap kind)).1 (.wrap kind))
  nested {k n m : Nat} {s : σ} (h : I (k + 1) n m s) :
    I k n n (Machine.begin s .nested).2 ∧ ∀ u, I k n n u →
      I (k + 1) n n (Machine.leave u (Machine.begin s .nested).1 .nested)
  stopAt {k n m : Nat} {s : σ} (kinds : List TokenKind) (h : I k n m s) :
    I k n n (Machine.begin s (.stopAt kinds)).2 ∧ ∀ u, I k n n u →
      I k n n (Machine.leave u (Machine.begin s (.stopAt kinds)).1 (.stopAt kinds))
  measured {k n m : Nat} {s : σ} (h : I k n m s) :
    I k n n (Machine.begin s .measured).2 ∧ ∀ u, I k n n u →
      I k n n (Machine.leave u (Machine.begin s .measured).1 .measured)

variable {b : Budget} {I : Nat → Nat → Nat → σ → Prop} {k n m fuel : Nat} {s t : σ}

/-- A run of a bounded script keeps what the steps keep, if the rules that it calls do. -/
theorem Keeps.run (hI : Keeps b I) {call : Rule → σ → Option σ} {α : Type} {x : Script α} {a : α}
    (hx : x.Bounded b k n m) (hs : I k n m s) (h : x.run call fuel s = some (a, t))
    (hcall : ∀ {rule k n m s t}, b.call rule k ≤ n → I k n m s → call rule s = some t →
      I k n n t) : I k n n t := by
  induction x generalizing k n m s t with
  | done c =>
    cases h
    exact hI.last hs
  | ask q next ih => exact ih _ (hx.2 _) hs h
  | act action next ih => exact ih () hx.2 (hI.perform action hs) h
  | during scope body next ihBody ihNext =>
    simp only [Script.run] at h
    split at h
    · cases h
    · next c u hu =>
      cases scope with
      | node kind =>
        obtain ⟨i, hi, hbody, hnext⟩ := hx
        obtain ⟨hbegin, hleave⟩ := hI.node hs hi
        exact ihNext c (hnext c) (hleave u (ihBody hbody hbegin hu)) h
      | wrap kind =>
        obtain ⟨i, height, hleft, hi, hn, hbody, hnext⟩ := hx
        obtain ⟨hbegin, hleave⟩ := hI.wrap hs hleft hi hn
        exact ihNext c (hnext c) (hleave u (ihBody hbody hbegin hu)) h
      | nested =>
        obtain ⟨j, rfl, hbody, hnext⟩ := hx
        obtain ⟨hbegin, hleave⟩ := hI.nested hs
        exact ihNext c (hnext c) (hleave u (ihBody hbody hbegin hu)) h
      | stopAt kinds =>
        obtain ⟨hbegin, hleave⟩ := hI.stopAt kinds hs
        exact ihNext c (hx.2 c) (hleave u (ihBody hx.1 hbegin hu)) h
      | measured =>
        obtain ⟨hbegin, hleave⟩ := hI.measured hs
        exact ihNext c (hx.2 c) (hleave u (ihBody hx.1 hbegin hu)) h
  | many item next ihItem ihNext =>
    simp only [Script.run] at h
    split at h
    · cases h
    · next cs u hu =>
      refine ihNext cs (hx.2 cs) ?_ h
      refine Script.repeatStep_induction (P := fun _ s _ t => I k n n s → I k n n t) ?_ ?_ hu
        (hI.last hs)
      · exact fun _ s t hst hs => ihItem hx.1 hs hst
      · exact fun _ s c u cs t hsu _ hut hs => hut (ihItem hx.1 hs hsu)
  | call rule next ih =>
    simp only [Script.run] at h
    split at h
    · cases h
    · next u hu => exact ih () hx.2 (hcall hx.1 hs hu) h

open Grammar

/-- A rule asks first whether a level is left.  If not, it skips a line, and else its script is bounded
with one level fewer for what nests. -/
theorem Keeps.runRule (hI : Keeps b I) (hb : b.Sound) {rule : Rule} (hrule : b.call rule k ≤ n)
    (hs : I k n m s) (h : Script.runRule script fuel rule s = some t) : I k n n t := by
  induction fuel generalizing rule k n m s t with
  | zero => simp [Script.runRule] at h
  | succ fuel ih =>
    have hrun := Script.run_of_runRule h
    cases rule with
    | statement =>
      change b.statement k ≤ n at hrule
      have hlisten := hI.perform .listen hs
      change ((do if ← Script.tooDeep then skipDeepStatement else _ : Script Unit).run _ _
        (Machine.perform s .listen)) = _ at hrun
      rw [Script.tooDeep, Script.run_ask_bind, hI.tooDeep hlisten] at hrun
      cases k with
      | zero =>
        have hskip := bounded_skipDeepStatement (k := 0) (Nat.le_trans hb.skippedStatement hrule)
        exact hI.run hskip (hI.last hlisten) hrun ih
      | succ k =>
        have hline := hb.line k
        have hbody := hb.body k
        refine hI.run (n := n) (m := n) ?_ (hI.last hlisten) hrun ih
        refine ⟨rfl, fun found => ?_⟩
        cases found with
        | none => trivial
        | some found =>
          have hstatement := bounded_statementOf (n := n - b.other) (b := b) (k := k) (by omega)
            (by omega) found fun _ => hb.oneLineIf
          rwa [Nat.add_sub_cancel' (by omega)] at hstatement
    | expression power =>
      change b.expression k ≤ n at hrule
      change ((do if ← Script.tooDeep then skipDeepExpression else _ : Script Unit).run _ _ s) = _
        at hrun
      rw [Script.tooDeep, Script.run_ask_bind, hI.tooDeep hs] at hrun
      cases k with
      | zero =>
        have hskip := bounded_skipDeepExpression (k := 0) hb.silence
          (Nat.le_trans hb.skippedExpression hrule)
        exact hI.run hskip (hI.last hs) hrun ih
      | succ k =>
        have hname := Nat.le_trans (hb.name k) hrule
        have hnest := Nat.le_trans (hb.nest k) hrule
        have hoperation := Nat.le_trans (hb.operation k) hrule
        exact hI.run (bounded_deeperExpression hname hnest hoperation power) (hI.last hs) hrun ih

/-- The statements of a whole text. -/
theorem Keeps.statements (hI : Keeps b I) (hb : b.Sound) (hs : I k (b.statement k) m s)
    (h : Script.Yields script allStatements s () t) :
    I k (b.statement k) (b.statement k) t := by
  obtain ⟨fuel, h⟩ := h
  have hstatements : allStatements.Bounded b k (b.statement k) (b.statement k) := by
    apply Script.bounded_whileM
    · exact Script.bounded_ask rfl fun found => trivial
    · exact Script.bounded_statement (Nat.le_refl _)
  exact hI.run hstatements (hI.last hs) h (hI.runRule hb)

end

end Parsing

end CRBasic
