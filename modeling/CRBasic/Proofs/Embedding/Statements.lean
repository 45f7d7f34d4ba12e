import CRBasic.Proofs.Embedding.Blocks
import CRBasic.Proofs.Embedding.Names
import CRBasic.Proofs.Expression.Ranked

/-!
# Statements in a larger text

Statements are alike in a text and in a larger one (`alike_statement`).  Two choices look ahead and ask
which words end a block: an `If` looks at the word after `Then`, and a statement that starts with a name
looks for an assignment operator.  Only a one-line `If` with nothing before its `Else` is read otherwise
inside a branch.
-/

namespace CRBasic

namespace Word

/-- The fewer words end blocks, the more statements are assignments. -/
theorem assignsBefore_mono {p q : TokenKind → Bool} (h : ∀ k, p k → q k) {depth : Nat}
    {ws : List Word} (hws : assignsBefore q depth ws = true) : assignsBefore p depth ws = true := by
  induction ws generalizing depth with
  | nil => exact hws
  | cons w ws ih =>
    rw [assignsBefore] at hws ⊢
    split
    · next hw => exact ih (by rwa [if_pos hw] at hws)
    · next hw =>
      rw [if_neg hw] at hws
      split
      · next hw' => exact ih (by rwa [if_pos hw'] at hws)
      · next hw' =>
        rw [if_neg hw'] at hws
        split
        · rfl
        · next hassignment =>
          rw [if_neg hassignment] at hws
          split
          · next hstop =>
            rw [Bool.and_eq_true] at hstop
            rw [if_pos (by rw [hstop.1, h _ hstop.2]; rfl)] at hws
            cases hws
          · split at hws
            · cases hws
            · exact ih hws

end Word

namespace Grammar

open Parsing Parsing.Script

section Rules

variable {c : Setting} {total : Nat} {Lost : Sketch → Prop} {fuel : Nat} {α β : Type} {st : Stage}
  {m m' m'' : Mode} {l b : Bool} {k : TokenKind} {s t u : Sketch} {before : List (Piece Draft)}

/-! ### The forms of an `If` -/

/-- The branches of an `If` in either form. -/
def ifBranches : Script Unit := do
  if (← singleLineIf) && !(← statementEnds) then oneLineBranches
  else blockBranches

theorem ifStatement_eq : ifStatement = node .ifStmt (do take; condition; ifBranches) := rfl

theorem run_ifBranches_of_block {call : Rule → Sketch → Option Sketch}
    (h : s.options.singleLineIf = false ∨ AtEnd s) :
    ifBranches.run call fuel s = blockBranches.run call fuel s := by
  change (statementEnds >>= fun ends =>
    if s.options.singleLineIf && !ends then oneLineBranches else blockBranches).run call fuel s = _
  by_cases hend : AtEnd s
  · rw [run_statementEnds_of_atEnd hend, Bool.not_true, Bool.and_false]
    rfl
  · rw [run_statementEnds_of_not hend, h.resolve_right hend]
    rfl

theorem run_ifBranches_of_oneLine {call : Rule → Sketch → Option Sketch}
    (h : s.options.singleLineIf = true) (hend : ¬ AtEnd s) :
    ifBranches.run call fuel s = oneLineBranches.run call fuel s := by
  change (statementEnds >>= fun ends =>
    if s.options.singleLineIf && !ends then oneLineBranches else blockBranches).run call fuel s = _
  rw [run_statementEnds_of_not hend, h]
  rfl

/-- The branches of an `If` have one of the two forms. -/
theorem run_ifBranches_cases {call : Rule → Sketch → Option Sketch} {r : Unit × Sketch}
    (hrun : ifBranches.run call fuel s = some r) :
    (¬ AtEnd s ∧ oneLineBranches.run call fuel s = some r) ∨
      blockBranches.run call fuel s = some r := by
  by_cases hform : s.options.singleLineIf = true ∧ ¬ AtEnd s
  · rw [run_ifBranches_of_oneLine hform.1 hform.2] at hrun
    exact .inl ⟨hform.2, hrun⟩
  · have hform : s.options.singleLineIf = false ∨ AtEnd s := by
      rcases Classical.not_and_iff_not_or_not.1 hform with h | h
      · exact .inl (Bool.eq_false_iff.2 h)
      · exact .inr (Classical.not_not.1 h)
    rw [run_ifBranches_of_block hform] at hrun
    exact .inr hrun

variable (hlost : LosingBlocks c Lost)
  (hstatement : ∀ {s b k}, Alike c total Lost fuel .outer (.word s b k) statement (.live true false))
include hlost hstatement

theorem alike_oneLineBranches :
    Alike c total Lost fuel .inner (.live true b) oneLineBranches (.live true false) := by
  have hlines : LineRules fun st m x m' => Alike c total Lost fuel st m x m' :=
    alike_lines hlost.toLosing
  have hbody {b : Bool} {stops : List TokenKind} (hstops : ∀ k ∈ stops, k.closes) :
      Alike c total Lost fuel .inner (.live true b) (inlineBody stops) (.live true false) :=
    alike_inlineBody hlost (fun _ => hstatement) hstops
  refine alike_bind (hbody (by decide)) fun _ => hlines.ifOnLine ?_ (alike_pure ())
  exact hlines.node rfl (alike_bind (hlines.take_seeing (.inl rfl)) fun _ => hbody nofun)

/-- An `If` that has the same form in the larger text has the same branches. -/
theorem steps_ifBranches {v : Unit} (hs : Holds c total .inner (.live l b) s)
    (hform : s.options.singleLineIf = true → ¬ AtEnd s → ¬ AtEnd (c.embed [] s))
    (hrun : ifBranches.run (runRule script fuel) fuel s = some (v, t)) :
    StepsAlike c total Lost fuel .inner (.live true false) [] s ifBranches v t := by
  have hblock := alike_blockRules hlost hstatement
  by_cases h : s.options.singleLineIf = true ∧ ¬ AtEnd s
  · obtain ⟨k, hk, hstop⟩ := exists_onLine h.2
    have hloud : s.silenced = false :=
      Bool.eq_false_iff.2 fun hsilenced => h.2 (hs.settled hsilenced)
    have hs : Holds c total .inner (.live true b) s := { hs with loud := fun _ => hloud }
    rw [run_ifBranches_of_oneLine h.1 h.2] at hrun
    rw [StepsAlike, run_ifBranches_of_oneLine (s := c.embed [] s) h.1 (hform h.1 h.2)]
    exact (alike_oneLineBranches hlost hstatement).steps (fun _ => rfl) hs hrun
  · have h : s.options.singleLineIf = false ∨ AtEnd s := by
      rcases Classical.not_and_iff_not_or_not.1 h with h | h
      · exact .inl (Bool.eq_false_iff.2 h)
      · exact .inr (Classical.not_not.1 h)
    rw [run_ifBranches_of_block h] at hrun
    rw [StepsAlike, run_ifBranches_of_block (s := c.embed [] s) (h.imp id (.embed []))]
    exact (walk_blockBranches hblock).steps (fun _ => rfl) hs hrun

/-! ### One-line `If`s whose `Else` would end a branch -/

omit hlost hstatement in
/-- A body at a word that ends a block is empty, and the word one that ends the body, if no problem is
found. -/
theorem inlineBody_puts {stops : List TokenKind} {v : Unit} (hk : s.onLine = some k)
    (hstop : s.atStop = false) (hcloses : k.closes)
    (hrun : (inlineBody stops).run (runRule script fuel) fuel s = some (v, t))
    (ht : t.reports = #[]) :
    k ∈ stops ∧ t = { s with parts := .node (.node .stmtList []) :: s.parts } := by
  obtain ⟨u, hu, rfl⟩ := run_within_iff.1 hrun
  obtain ⟨u, hu', rfl⟩ := run_within_iff.1 hu
  obtain ⟨u, hu'', rfl⟩ := run_within_iff.1 hu'
  have hcurrent := Reading.current_of_onLine hk
  have hisStop : s.isStop k = false := by
    rw [Reading.atStop, hcurrent] at hstop
    exact hstop
  let w : Sketch :=
    { s with frames := stops :: s.frames, depth := s.depth + 1, parts := [] }
  have hend : AtEnd w ↔ k ∈ stops := by
    have hcurrent : w.current = some k := hcurrent
    have honLine : w.onLine = some k := hk
    have hstop : w.isStop k = (stops.contains k || s.isStop k) := rfl
    rw [AtEnd, honLine, Reading.atStop, hcurrent, Option.any_some, hstop, hisStop, Bool.or_false,
      List.contains_iff_mem]
    simp
  change (statementEnds >>= fun ends => if ends then _ else statement).run _ _ w = _ at hu''
  by_cases hmem : k ∈ stops
  · rw [run_statementEnds_of_atEnd (hend.2 hmem)] at hu''
    obtain ⟨-, rfl⟩ := run_pure_iff.1 hu''
    exact ⟨hmem, rfl⟩
  · rw [run_statementEnds_of_not ((not_congr hend).2 hmem)] at hu''
    have hreports : u.reports = #[] := ht
    exact absurd hreports (statement_reports (s := w) hcurrent hcloses hu'')

omit hlost hstatement in
/-- A one-line `If` at a word that ends a block has no statement before its `Else`, if no problem is
found. -/
theorem oneLineBranches_puts {v : Unit} (hk : s.onLine = some k) (hstop : s.atStop = false)
    (hcloses : k.closes) (hrun : oneLineBranches.run (runRule script fuel) fuel s = some (v, t))
    (ht : t.reports = #[]) : k = .kwElse ∧ ∃ ps, t.parts =
      .node (.node .elseClause ps) :: .node (.node .stmtList []) :: s.parts := by
  obtain ⟨_, u, hu, hrun⟩ := run_bind_iff.1 hrun
  have hreports := (Sketch.goesOn_of_run hrun).reports_eq_nil ht
  obtain ⟨hmem, rfl⟩ := inlineBody_puts hk hstop hcloses hu hreports
  obtain rfl : k = .kwElse := by simpa using hmem
  refine ⟨rfl, ?_⟩
  have hsame : Machine.answer ({ s with parts := .node (.node .stmtList []) :: s.parts } : Sketch)
      Query.onLine = some .kwElse := hk
  rw [onLine, run_ask_bind, hsame] at hrun
  exact Sketch.parts_node hrun

omit hlost hstatement in
/-- A condition puts an expression and `Then`, if no problem is found. -/
theorem condition_puts {v : Unit} (hs : s.Ranked)
    (hrun : condition.run (runRule script fuel) fuel s = some (v, t)) (ht : t.reports = #[]) :
    ∃ d w, w.kind = .kwThen ∧ t.parts = .word w :: .node d :: s.parts := by
  obtain ⟨_, u, hu, hwant⟩ := run_bind_iff.1 hrun
  have hreports := (Sketch.goesOn_of_run hwant).reports_eq_nil ht
  obtain ⟨hranked, ⟨d, hd, -⟩, -⟩ := callsPut fuel 0 s u hu hreports hs
  obtain ⟨w, hw, hparts⟩ := want_puts hranked.heard ht hwant
  exact ⟨d, w, hw, by rw [hparts, hd]⟩

omit hstatement in
/-- An `If` that is read as one line here and as a block in the larger text is lost. -/
theorem lost_ifBranches {v : Unit} {w : Word} {ps : List (Piece Draft)}
    (hw : w.kind = .kwIf) (hs : s.Ranked) (hparts : s.parts = [.word w])
    (hcondition : condition.run (runRule script fuel) fuel s = some (v, t))
    (hline : t.options.singleLineIf = true) (hend : ¬ AtEnd t) (hembed : AtEnd (c.embed [] t))
    (hrun : ifBranches.run (runRule script fuel) fuel t = some (v, u)) :
    Lost (Machine.leave u ps (.node .ifStmt)) := by
  obtain ⟨k, hk, hstop⟩ := exists_onLine hend
  obtain ⟨k', hk', hends⟩ := (Option.any_eq_true _ _).1 (ends_of_embed hend hembed)
  obtain rfl : k = k' := by rw [Reading.current_of_onLine hk] at hk'; exact Option.some.inj hk'
  by_cases hreports : u.reports = #[]
  · have hboth := (Sketch.goesOn_of_run hrun).reports_eq_nil hreports
    obtain ⟨d, w', hw', htparts⟩ := condition_puts hs hcondition hboth
    rw [run_ifBranches_of_oneLine hline hend] at hrun
    obtain ⟨rfl, qs, hu⟩ :=
      oneLineBranches_puts hk hstop (Setting.closes_of_ends hends) hrun hreports
    refine hlost.bare (d := .node .ifStmt u.parts.reverse) hends List.mem_cons_self ⟨_, rfl, ?_, ?_⟩
    · simp [hu]
    · intro x hx
      rw [hu, htparts, hparts] at hx
      have hx : x = w ∨ x = w' := by simpa using hx
      rcases hx with rfl | rfl
      · rw [hw]; exact nofun
      · rw [hw']; exact nofun
  · exact hlost.report (Setting.frames_ne_nil_of_ends hends) hreports

theorem alike_ifStatement {started : Bool} :
    Alike c total Lost fuel .outer (.word started b .kwIf) ifStatement (.live true false) := by
  have hblock := alike_blockRules hlost hstatement
  intro before s v t hbefore hrun
  refine ⟨fun hs => .inl (hlost.kept hrun (hs.lost nofun)), fun hs => ?_⟩
  rw [ifStatement_eq] at hrun ⊢
  obtain ⟨t, hbody, rfl⟩ := run_within_iff.1 hrun
  obtain ⟨w, ws, hrest, hw⟩ := Reading.exists_rest hs.sees
  have hs' : Holds c total .inner (.word started b .kwIf) { s with parts := [] } :=
    hs.transfer_of_frames ⟨rfl, rfl, rfl, rfl⟩ rfl nofun
  obtain ⟨_, s₁, htake, hbranches⟩ := run_bind_iff.1 hbody
  obtain ⟨_, s₂, hcondition, hbranches'⟩ := run_bind_iff.1 hbranches
  by_cases hform : s₂.options.singleLineIf = true ∧ ¬ AtEnd s₂ ∧ AtEnd (c.embed [] s₂)
  · refine .inl (.inl ?_)
    have hs₁ : s₁ = Sketch.take { s with parts := [] } := run_act_iff.1 htake
    rw [Sketch.take_eq (s := { s with parts := [] }) hrest] at hs₁
    have hranked : s₁.Ranked := by
      rw [hs₁]
      exact ⟨hs.loud rfl, by simp⟩
    have hparts : s₁.parts = [.word w] := by rw [hs₁]
    exact lost_ifBranches hlost hw hranked hparts hcondition hform.1 hform.2.1 hform.2.2 hbranches'
  · refine steps_node hlost.toLosing ?_
    refine steps_bind (m := .live true b) hlost.toLosing nofun hbranches
      (hblock.take_word.steps (fun _ => rfl) hs' htake) fun hs₁ => ?_
    refine steps_bind (m := .live false b) hlost.toLosing nofun hbranches'
      ((walk_condition hblock.toLineRules).steps (fun _ => rfl) hs₁ hcondition) fun hs₂ => ?_
    refine steps_ifBranches hlost hstatement hs₂ (fun hline hend hembed => ?_) hbranches'
    exact hform ⟨hline, hend, hembed⟩

/-! ### Statements that start with a name -/

omit hlost hstatement in
theorem atAssignment_embed (hrest : s.rest ≠ []) : (c.embed before s).atAssignment =
    Word.assignsBefore (fun k => s.isStop k || c.ends k) 0 (Word.line s.rest) := by
  rw [Reading.atAssignment, Setting.line_embed hrest]
  congr 1
  funext k
  exact Setting.isStop_embed

/-- A statement that starts with a name is an assignment in the larger text too, or lost. -/
theorem alike_assignmentOrInstruction {started : Bool} :
    Alike c total Lost fuel .outer (.word started b .ident) assignmentOrInstruction
      (.live true false) := by
  have hblock := alike_blockRules hlost hstatement
  intro before s v t hbefore hrun
  refine ⟨fun hs => .inl (hlost.kept hrun (hs.lost nofun)), fun hs => ?_⟩
  have hcurrent : s.current = some .ident := hs.sees
  have hembed : (c.embed before s).atAssignment = _ :=
    atAssignment_embed (Reading.ne_nil_of_current hcurrent)
  rw [assignmentOrInstruction, atAssignment, run_ask_bind, answer_atAssignment] at hrun ⊢
  cases hs' : s.atAssignment with
  | true =>
    rw [hs'] at hrun
    cases hboth : (c.embed before s).atAssignment with
    | true => exact (walk_assignmentStatement hblock.toLineRules before s v t hbefore hrun).2 hs
    | false =>
      -- An assignment without a problem has its operator before any word that ends a block.
      refine .inl (.inl (hlost.report (fun hframes => ?_) fun ht => ?_))
      · have hends (k : TokenKind) : c.ends k = false := by rw [Setting.ends, hframes]; rfl
        simp only [hends, Bool.or_false] at hembed
        rw [hboth] at hembed
        exact Bool.false_ne_true (hembed.trans hs')
      · rw [hboth, assignsBefore_of_run hcurrent (hs.loud rfl) (fun k hk => ?_) hrun ht] at hembed
        · cases hembed
        · rw [Bool.or_eq_true] at hk
          exact hk.elim (hs.closers k) Setting.closes_of_ends
  | false =>
    rw [hs'] at hrun
    cases hboth : (c.embed before s).atAssignment with
    | false => exact (walk_instruction hblock.toLineRules before s v t hbefore hrun).2 hs
    | true =>
      rw [hboth] at hembed
      have h := Word.assignsBefore_mono (p := s.isStop) (fun k hk => by rw [hk, Bool.true_or])
        hembed.symm
      exact absurd (hs'.symm.trans h) Bool.false_ne_true

theorem alike_statementRules : StatementRules fun st m x m' => Alike c total Lost fuel st m x m' where
  toBlockRules := alike_blockRules hlost hstatement
  forLoop := alike_node hlost.toLosing
    (walk_loopParts (alike_blockRules hlost hstatement) (alike_texts hlost.toLosing))
  scanStatement := alike_node hlost.toLosing (walk_scanParts (alike_blockRules hlost hstatement) rfl)
  subScanStatement := alike_node hlost.toLosing (walk_scanParts (alike_blockRules hlost hstatement) rfl)
  ifStatement := alike_ifStatement hlost hstatement
  assignmentOrInstruction := alike_assignmentOrInstruction hlost hstatement

omit hstatement in
/-- Statements are alike in a text and in a larger one. -/
theorem alike_statement {started : Bool} :
    Alike c total Lost fuel .outer (.word started b k) statement (.live true false) := by
  induction fuel generalizing started b k with
  | zero => exact alike_callOfNone
  | succ fuel ih => exact alike_call (walk_statementRule (alike_statementRules hlost ih))

end Rules

end Grammar

end CRBasic
