import CRBasic.Proofs.Spelling.Blocks

/-!
# Statements in another spelling

The two words start the same clause as the one word (`carries_elseIfBranch`), and every other statement
and block takes the same steps.  So a text that is read without a problem is read without one in the
other spelling, into the same parts but for the heads of clauses (`exists_readsAs_respelled`).
-/

namespace CRBasic

namespace Grammar

open Parsing Parsing.Script

/-- Calls of statements carry one parse along with the other. -/
def CarriesStatements (fuel : Nat) : Prop :=
  ∀ {b : Bool} {k : TokenKind} {s s' : Sketch}, Abreast b (.word true false k) s s' →
    Carries fuel s s' statement statement fun _ => Abreast b .body

section Ends

variable {fuel : Nat} {α : Type} {b l : Bool} {s s' : Sketch} {m : Mode} {kind opener : TokenKind}

/-! ### Ends of lines and blocks -/

theorem carries_lineEnd (h : Abreast b (.live l false) s s') :
    Carries fuel s s' lineEnd lineEnd fun _ => Abreast b .body :=
  (respells_lineEnd.carries h).mono fun _ _ _ => Abreast.toBody

/-- Whether the statement ends is the same in both parses. -/
theorem Abreast.statementEnds {f f' : Bool → Script α} {Q : α → Sketch → Sketch → Prop}
    (h : Abreast b (.live l false) s s') (hend : Carries fuel s s' (f true) (f' true) Q)
    (hmore : ∀ k, Abreast b (.seeing true false k) s s' → Carries fuel s s' (f false) (f' false) Q) :
    Carries fuel s s' (Grammar.statementEnds >>= f) (Grammar.statementEnds >>= f') Q := by
  rw [Grammar.statementEnds, LawfulMonad.bind_assoc, LawfulMonad.bind_assoc]
  refine Carries.ask ?_
  change Carries fuel s s' ((if s.onLine.isNone = true then pure true else Script.atStop) >>= f)
    ((if s'.onLine.isNone = true then pure true else Script.atStop) >>= f') Q
  rw [h.onLine_eq]
  cases honLine : s.onLine with
  | none => exact hend
  | some k =>
    refine Carries.ask ?_
    change Carries fuel s s' (f s.atStop) (f' s'.atStop) Q
    have hseeing := h.seeing honLine
    rw [hseeing.word_of_seeing.atStop_eq]
    cases s.atStop with
    | true => exact hend
    | false => exact hmore k hseeing

/-- A block ends in both parses with the same word. -/
theorem carries_terminator (h : Abreast b .body s s') (hkind : kind ≠ .kwElseIf) :
    Carries fuel s s' (terminator kind opener) (terminator kind opener)
      fun found t t' => found = true ∧ Abreast b (.live true false) t t' := by
  have hmissing {x' : Script Bool} : Carries fuel s s'
      (do report .word (.unclosedBlock kind opener); return false) x'
      fun found t t' => found = true ∧ Abreast b (.live true false) t t' :=
    carries_report h.silenced_eq
  refine h.current_body (fun _ _ => hmissing) (fun k hk => ?_) fun _ => ?_
  · by_cases hfound : (some k == some kind) = true
    · rw [if_pos hfound]
      exact (respells_lines.take_word.carries hk).bind fun _ _ _ ht => carries_pure ⟨rfl, ht⟩
    · rw [if_neg hfound]
      exact hmissing
  · rw [if_neg (by simpa using hkind.symm)]
    exact hmissing

theorem carries_blockEnd (h : Abreast b .body s s') (hkind : kind ≠ .kwElseIf) :
    Carries fuel s s' (blockEnd kind opener) (blockEnd kind opener) fun _ => Abreast b .body := by
  refine (carries_terminator h hkind).bind fun found t t' ht => ?_
  obtain ⟨rfl, ht⟩ := ht
  exact carries_lineEnd ht

theorem carries_ending (form : BlockForm) (name? : Option (List Char)) (h : Abreast b .body s s') :
    Carries fuel s s' (form.ending name?) (form.ending name?) fun _ => Abreast b .body := by
  have hlines : LineRules fun st m x m' => Respells fuel st m x m' := respells_lines
  have hclosing : Respells fuel .inner (.live true false) (form.closing name?)
      (.live false false) := by
    have hnone : Respells fuel .inner (.live true false) (pure ()) (.live false false) :=
      hlines.post .quiet (hlines.pure ())
    cases form with
    | forLoop => exact respells_closingVariable name?
    | doLoop => exact walk_loopCondition hlines
    | _ => exact hnone
  have hkind : form.terminator ≠ .kwElseIf := by cases form <;> exact TokenKind.noConfusion
  refine (carries_terminator h hkind).bind fun found t t' ht => ?_
  obtain ⟨rfl, ht⟩ := ht
  exact (hclosing.carries ht).bind fun _ _ _ => carries_lineEnd

end Ends

section Calls

variable {fuel : Nat} {b l : Bool} {s s' : Sketch} {m : Mode} {k : TokenKind} {stops : List TokenKind}
  (hcalls : CarriesStatements fuel)
include hcalls

/-! ### Bodies -/

/-- The statements of a block that `Else` ends, if `ElseIf` does. -/
theorem carries_blockBody (hstops : .kwElseIf ∈ stops → .kwElse ∈ stops) (h : Abreast b .body s s') :
    Carries fuel s s' (blockBody stops) (blockBody stops) fun _ => Abreast b .body := by
  have hround (u u' : Sketch) (hu : Abreast false .body u u') :
      Carries fuel u u' (round continuesBody statement) (round continuesBody statement)
        fun o t t' => o.elim (Abreast false .body t t') fun _ => Abreast false .body t t' := by
    simp only [Script.round, continuesBody, LawfulMonad.bind_assoc, pure_bind]
    refine hu.current_body (fun _ _ => Carries.ask ?_) (fun k hk => Carries.ask ?_)
      fun htwo => Carries.ask ?_
    · exact carries_pure hu
    · change Carries fuel u u' (if (!u.atStop) = true then _ else _)
        (if (!u'.atStop) = true then _ else _) _
      rw [hk.atStop_eq]
      split
      · exact (hcalls hk).bind fun _ _ _ ht => carries_pure ht
      · exact carries_pure hu
    · change Carries fuel u u' (if (!u.atStop) = true then _ else _)
        (if (!u'.atStop) = true then _ else _) _
      cases hstop : u.atStop with
      | true =>
        rw [htwo.atStop hstop]
        exact carries_pure hu
      | false => exact htwo.statement
  have hloop (u u' : Sketch) (hu : Abreast false .body u u') :
      Carries fuel u u' (whileM continuesBody statement) (whileM continuesBody statement)
        fun _ => Abreast false .body :=
    (carries_collect hround hu).bind fun _ _ _ ht => carries_pure ht
  exact h.node fun h => h.stopAt hstops fun _ _ h => h.nested hloop

theorem carries_lineThenBody (hstops : .kwElseIf ∈ stops → .kwElse ∈ stops)
    (h : Abreast b (.live l false) s s') :
    Carries fuel s s' (do lineEnd; blockBody stops) (do lineEnd; blockBody stops)
      fun _ => Abreast b .body :=
  (carries_lineEnd h).bind fun _ _ _ => carries_blockBody hcalls hstops

/-- A statement on the line of a one-line `If`. -/
theorem carries_inlineBody (hstops : .kwElseIf ∈ stops → .kwElse ∈ stops)
    (h : Abreast b (.live l false) s s') :
    Carries fuel s s' (inlineBody stops) (inlineBody stops) fun _ => Abreast b .body := by
  have hstatement (u u' : Sketch) (hu : Abreast false (.live l false) u u') :
      Carries fuel u u' (do unless ← statementEnds do statement)
        (do unless ← statementEnds do statement) fun _ => Abreast false .body := by
    refine hu.statementEnds (carries_pure hu.toBody) fun k hk => ?_
    exact hcalls hk.word_of_seeing
  exact h.node fun h => h.stopAt hstops fun _ _ h => h.nested hstatement

/-! ### Blocks -/

theorem carries_form (form : BlockForm) (h : Abreast b (.word true false form.opener) s s') :
    Carries fuel s s' (statementOf form.opener) (statementOf form.opener) fun _ => Abreast b .body := by
  have hterminator : .kwElseIf ∈ [form.terminator] → .kwElse ∈ [form.terminator] := by
    cases form <;> decide
  rw [form.statementOf_opener]
  refine h.node fun h => ?_
  simp only [BlockForm.opening, LawfulMonad.bind_assoc, pure_bind]
  refine (respells_lines.take_word.carries h).bind fun _ _ _ h => ?_
  refine ((respells_head form).carries h).bind fun name? _ _ h => ?_
  refine (carries_lineEnd h).bind fun _ _ _ h => ?_
  refine (carries_blockBody hcalls hterminator h).bind fun _ _ _ h => ?_
  exact carries_ending form name? h

/-- A branch of a block on its own line, after its first words. -/
theorem carries_branch {kind : NodeKind} {x : Script Unit}
    (hx : Respells fuel .inner (.live true false) x (.live false false))
    (hstops : .kwElseIf ∈ stops → .kwElse ∈ stops) (h : Abreast b (.word true false k) s s') :
    Carries fuel s s' (node kind do take; x; lineEnd; blockBody stops)
      (node kind do take; x; lineEnd; blockBody stops) fun _ => Abreast b .body := by
  refine h.node fun h => ?_
  refine (respells_lines.take_word.carries h).bind fun _ _ _ h => ?_
  refine (hx.carries h).bind fun _ _ _ h => ?_
  exact carries_lineThenBody hcalls hstops h

omit hcalls in
/-- In a new node the one word has been taken, and the two words. -/
theorem BeforeTwo.takes {f f' : Unit → Script Unit} {Q : Unit → Sketch → Sketch → Prop}
    (h : BeforeTwo b s s')
    (hf : ∀ t t', Abreast true (.live true false) t t' → Carries fuel t t' (f ()) (f' ()) Q) :
    Carries fuel s.fresh s'.fresh (take >>= f) (do take; take >>= f') Q := by
  obtain ⟨horigins, d, w, first, second, vs, ws, ps, hw, hvs, hrest, rfl, hs⟩ := h
  have hsound := hs.sound
  rw [hvs] at hsound
  have htake : s.fresh.take =
      { s with rest := vs, taken := s.taken + 1, parts := [.word w] } := Sketch.take_eq hvs
  have htakes : (s.beside d (first :: second :: ws) ps).fresh.take.take =
      s.fresh.take.beside (d + 1) ws [.word second, .word first] := by
    rw [htake]
    simp only [Sketch.beside, Sketch.fresh, Sketch.take, horigins, List.map_nil]
    congr 2
    omega
  change Carries fuel s.fresh.take (s.beside d (first :: second :: ws) ps).fresh.take.take _ _ Q
  refine hf _ _ ⟨by rw [htake]; exact horigins, d + 1, ws, _, htakes, ?_⟩
  rw [htake]
  exact ⟨trivial, rfl, hs.loud, hs.reports, fun v hv => hsound v (List.mem_cons_of_mem w hv), hs.stops,
    hrest, fun h => absurd h Bool.false_ne_true, .head hw, Stage.noConfusion⟩

theorem carries_conditionalBranch (h : Abreast b (.live true false) s s') :
    Carries fuel s s' conditionalBranch conditionalBranch fun _ => Abreast b .body :=
  ((walk_condition respells_lines).carries h).bind fun _ _ _ =>
    carries_lineThenBody hcalls (by decide)

/-- The two words start the same clause as the one word.  After the clauses the next word is the same in
both parses. -/
theorem carries_elseIfBranch (h : Abreast b .body s s') :
    Carries fuel s s' elseIfBranch elseIfBranch fun o t t' => o.elim
      (Abreast b .body t t' ∧ ¬ BeforeTwo b t t') fun _ => Abreast b .body t t' := by
  have hother (hk : s.current ≠ some .kwElseIf) : Abreast b .body s s' ∧ ¬ BeforeTwo b s s' :=
    ⟨h, fun htwo => hk htwo.current_eq.1⟩
  refine h.current_body (fun hs _ => carries_pure (hother (by simp [hs]))) (fun k hk => ?_)
    fun htwo => ?_
  · split
    · next hkind =>
      cases hkind
      refine Carries.bind (hk.node fun hk => ?_) fun _ _ _ h => carries_pure h
      refine (respells_lines.take_word.carries hk).bind fun _ _ _ h => ?_
      exact carries_conditionalBranch hcalls h
    · next hkind =>
      cases hkind
      have hnone : Abreast b .body s s' ∧ ¬ BeforeTwo b s s' := hother (by simp [hk.current_eq.1])
      refine Carries.ask ?_
      change Carries fuel s s' (if (s.secondOnLine == some .kwIf) = true then _ else _)
        (if (s'.secondOnLine == some .kwIf) = true then _ else _) _
      rw [hk.secondOnLine_eq]
      split
      · next hsecond =>
        have hpair := hk.pair (beq_iff_eq.1 hsecond)
        refine Carries.bind (hpair.node fun hpair => ?_) fun _ _ _ h => carries_pure h
        refine (respells_lines.take_pair.carries hpair).bind fun _ _ _ h => ?_
        have htake : Respells fuel .inner (.seeing true false .kwIf) take (.live true false) :=
          respells_lines.take_seeing (.inl rfl)
        exact (htake.carries h).bind fun _ _ _ => carries_conditionalBranch hcalls
      · exact carries_pure hnone
    · next hkind _ =>
      exact carries_pure (hother (by simpa [hk.current_eq.1] using hkind))
  · refine Carries.askSecond ?_
    change Carries fuel s s' _ (if (s'.secondOnLine == some .kwIf) = true then _ else _) _
    rw [htwo.current_eq.2.2, if_pos (beq_self_eq_true _)]
    refine Carries.bind ?_ fun _ _ _ h => carries_pure h
    exact carries_node htwo.abreast.parts (fun _ => rfl)
      (htwo.takes fun _ _ => carries_conditionalBranch hcalls)

/-- The branches of a block after its first one.  The word of the last branch is no word that is written
as two. -/
theorem carries_moreBranches {item : Script (Option Unit)} {kind : NodeKind}
    (hitem : ∀ u u', Abreast b .body u u' → Carries fuel u u' item item fun o t t' => o.elim
      (Abreast b .body t t' ∧ (k ≠ .kwElse ∨ ¬ BeforeTwo b t t')) fun _ => Abreast b .body t t')
    (hk : k ≠ .kwElseIf) (hstops : .kwElseIf ∈ stops → .kwElse ∈ stops) (h : Abreast b .body s s') :
    Carries fuel s s' (moreBranches item k kind stops) (moreBranches item k kind stops)
      fun _ => Abreast b .body := by
  refine (carries_collect hitem h).bind fun _ t t' ⟨ht, hnext⟩ => ?_
  have hnone (j : TokenKind) (hj : j ≠ k) {x : Script Unit} :
      (if (some j == some k) = true then x else pure ()) = pure () :=
    if_neg (by simpa using hj)
  refine ht.current_body (fun _ _ => carries_pure ht) (fun j hj => ?_) fun htwo => ?_
  · by_cases hjk : j = k
    · subst hjk
      rw [if_pos (beq_self_eq_true _)]
      refine hj.node fun hj => (respells_lines.take_word.carries hj).bind fun _ _ _ h => ?_
      exact carries_lineThenBody hcalls hstops h
    · rw [hnone j hjk]
      exact carries_pure ht
  · rw [hnone _ hk.symm, hnone _ (hnext.resolve_right fun h => h htwo).symm]
    exact carries_pure ht

/-! ### Conditional blocks -/

theorem carries_blockBranches (h : Abreast b (.live l false) s s') :
    Carries fuel s s' blockBranches blockBranches fun _ => Abreast b .body := by
  rw [blockBranches_eq]
  refine (carries_lineEnd h).bind fun _ _ _ h => ?_
  refine (carries_blockBody hcalls (by decide) h).bind fun _ _ _ h => ?_
  refine Carries.bind (carries_moreBranches hcalls (fun u u' hu => ?_) (by decide) (by decide) h)
    fun _ _ _ h => carries_blockEnd h (by decide)
  refine (carries_elseIfBranch hcalls hu).mono fun o t t' ht => ?_
  cases o with
  | none => exact ⟨ht.1, .inr ht.2⟩
  | some _ => exact ht

theorem carries_oneLineBranches (h : Abreast b (.live l false) s s') :
    Carries fuel s s' oneLineBranches oneLineBranches fun _ => Abreast b .body := by
  refine (carries_inlineBody hcalls (by decide) h).bind fun _ t t' ht => Carries.ask ?_
  change Carries fuel t t' (if (t.onLine == some .kwElse) = true then _ else _)
    (if (t'.onLine == some .kwElse) = true then _ else _) _
  rw [ht.onLine_eq]
  split
  · next hk =>
    refine (ht.seeing (beq_iff_eq.1 hk)).node fun h => ?_
    have htake : Respells fuel .inner (.seeing true false .kwElse) take (.live true false) :=
      respells_lines.take_seeing (.inl rfl)
    exact (htake.carries h).bind fun _ _ _ => carries_inlineBody hcalls (by simp)
  · exact carries_pure ht

theorem carries_ifStatement (h : Abreast b (.word true false .kwIf) s s') :
    Carries fuel s s' ifStatement ifStatement fun _ => Abreast b .body := by
  refine h.node fun h => ?_
  refine (respells_lines.take_word.carries h).bind fun _ _ _ h => ?_
  refine ((walk_condition respells_lines).carries h).bind fun _ t t' h => Carries.ask ?_
  rw [show t'.answer .singleLineIf = t.answer .singleLineIf from h.singleLineIf_eq]
  have hblock := carries_blockBranches hcalls h
  refine h.statementEnds ?_ fun k hk => ?_
  · rw [Bool.not_true, Bool.and_false]
    exact hblock
  · split
    · exact carries_oneLineBranches hcalls h
    · exact hblock

theorem carries_directiveElseIf (h : Abreast b .body s s') :
    Carries fuel s s' directiveElseIf directiveElseIf fun _ => Abreast b .body := by
  refine h.current_body (fun _ _ => carries_pure h) (fun k hk => ?_) fun _ => carries_pure h
  split
  · refine Carries.bind ?_ fun _ _ _ h => carries_pure h
    exact carries_branch hcalls (walk_directiveCondition respells_lines) (by decide) hk
  · exact carries_pure h

theorem carries_directiveBranches {opener : TokenKind} (h : Abreast b (.live l false) s s') :
    Carries fuel s s' (directiveBranches opener) (directiveBranches opener)
      fun _ => Abreast b .body := by
  rw [directiveBranches_eq]
  refine (carries_lineEnd h).bind fun _ _ _ h => ?_
  refine (carries_blockBody hcalls (by decide) h).bind fun _ _ _ h => ?_
  refine Carries.bind (carries_moreBranches hcalls (fun u u' hu => ?_) (by decide) (by decide) h)
    fun _ _ _ h => carries_blockEnd h (by decide)
  refine (carries_directiveElseIf hcalls hu).mono fun o t t' ht => ?_
  cases o with
  | none => exact ⟨ht, .inl (by decide)⟩
  | some _ => exact ht

/-! ### Selection -/

theorem carries_caseOrSkipped (h : Abreast b .body s s') :
    Carries fuel s s' caseOrSkipped caseOrSkipped fun _ => Abreast b .body := by
  refine h.current_body (fun _ _ => carries_pure h) (fun k hk => ?_) fun htwo => ?_
  · split
    · exact carries_pure h
    · exact carries_pure h
    · refine Carries.bind ?_ fun _ _ _ h => carries_pure h
      exact carries_branch hcalls (walk_caseSelector respells_lines) (by decide) hk
    · refine Carries.ask ?_
      change Carries fuel s s' (if s.atStop = true then _ else _)
        (if s'.atStop = true then _ else _) _
      rw [hk.atStop_eq]
      split
      · exact carries_pure h
      · exact carries_report h.silenced_eq
  · refine Carries.ask ?_
    change Carries fuel s s' (if s.atStop = true then _ else _) (if s'.atStop = true then _ else _) _
    cases hstop : s.atStop with
    | true =>
      rw [htwo.atStop hstop]
      exact carries_pure h
    | false => exact carries_report h.silenced_eq

theorem carries_selectStatement (h : Abreast b (.word true false .kwSelect) s s') :
    Carries fuel s s' selectStatement selectStatement fun _ => Abreast b .body := by
  have hlines : LineRules fun st m x m' => Respells fuel st m x m' := respells_lines
  refine h.node fun h => ?_
  refine (hlines.take_word.carries h).bind fun _ _ _ h => ?_
  refine ((walk_want hlines (.inl rfl)).carries h).bind fun _ _ _ h => ?_
  refine ((hlines.expression 0).carries h).bind fun _ _ _ h => ?_
  refine (carries_lineEnd h).bind fun _ _ _ h => ?_
  refine Carries.bind (carries_collect (fun u u' hu => ?_) h)
    fun _ _ _ h => carries_blockEnd h (by decide)
  refine (carries_caseOrSkipped hcalls hu).mono fun o t t' ht => ?_
  cases o <;> exact ht

/-! ### All statements -/

theorem carries_statementOf (h : Abreast b (.word true false k) s s') :
    Carries fuel s s' (statementOf k) (statementOf k) fun _ => Abreast b .body := by
  have hlines : LineRules fun st m x m' => Respells fuel st m x m' := respells_lines
  have hline {x : Script Unit} (hx : Respells fuel .outer (.word true false k) x (.live true false)) :
      Carries fuel s s' x x fun _ => Abreast b .body :=
    (hx.carriesOuter h).mono fun _ _ _ => Abreast.toBody
  have hdirective {l : Bool} {kind : NodeKind} {opener : TokenKind} {x : Script Unit}
      (hx : Respells fuel .inner (.live true false) x (.live l false)) :
      Carries fuel s s' (node kind do take; x; directiveBranches opener)
        (node kind do take; x; directiveBranches opener) fun _ => Abreast b .body := by
    refine h.node fun h => (hlines.take_word.carries h).bind fun _ _ _ h => ?_
    exact (hx.carries h).bind fun _ _ _ => carries_directiveBranches hcalls
  unfold statementOf
  split
  · exact carries_form hcalls .program h
  · exact carries_form hcalls .function h
  · exact carries_form hcalls .subroutine h
  · exact carries_ifStatement hcalls h
  · exact carries_form hcalls .forLoop h
  · exact carries_form hcalls .whileLoop h
  · exact carries_form hcalls .doLoop h
  · exact carries_selectStatement hcalls h
  · exact carries_form hcalls .scan h
  · exact carries_form hcalls .subScan h
  · exact carries_form hcalls .slowSequence h
  · exact carries_form hcalls .displayMenu h
  · exact carries_form hcalls .subMenu h
  · exact hline (walk_menuItem hlines)
  · exact carries_form hcalls .dataTable h
  · exact hline (walk_callTable hlines)
  · exact hline (walk_variableDeclaration hlines)
  · exact hline (walk_variableDeclaration hlines)
  · exact hline (walk_constantDeclaration hlines)
  · exact carries_form hcalls .constantTable h
  · exact hline (walk_aliasDeclaration hlines)
  · exact hline (walk_unitsDeclaration hlines)
  · exact hline (walk_returnStatement hlines)
  · exact hline (walk_exitStatement hlines)
  · exact hline (walk_callStatement hlines)
  · exact hdirective (walk_directiveCondition hlines)
  · exact hdirective (walk_namedIdentifier hlines)
  · exact hline (walk_directiveUndefine hlines)
  · exact hline (walk_inclusion hlines)
  · refine hline (respells_askAny (fun hs => hs.atAssignment_eq (hs.head rfl) _) fun assigns => ?_)
    split
    · exact walk_assignmentStatement hlines
    · exact walk_instruction hlines
  · exact hline (walk_unexpectedWord hlines)

theorem carries_statementRule (h : Abreast b (.word true false k) s s') :
    Carries fuel s s' statementRule statementRule fun _ => Abreast b .body := by
  refine (respells_lines.listen_word.carries h).bind fun _ t t' h => Carries.ask ?_
  rw [show t'.answer .tooDeep = t.answer .tooDeep from h.tooDeep_eq]
  split
  · exact carries_report h.silenced_eq
  · refine Carries.ask ?_
    have hcurrent : t.answer .current = some k := h.current_eq.1
    have hcurrent' : t'.answer .current = some k := h.current_eq.2
    rw [hcurrent, hcurrent']
    exact carries_statementOf hcalls h

end Calls

theorem carries_statement (fuel : Nat) : CarriesStatements fuel := by
  induction fuel with
  | zero =>
    intro b k s s' _ a t hrun
    cases run_call_iff.1 hrun
  | succ fuel ih =>
    intro b k s s' h a t hrun hreports
    obtain ⟨t', ht', h'⟩ :=
      carries_statementRule ih h a t (run_of_runRule (run_call_iff.1 hrun)) hreports
    have hrule : (script .statement).run (runRule script fuel) fuel s' = some (a, t') := ht'
    refine ⟨t', run_call_iff.2 ?_, h'⟩
    rw [runRule, hrule]

theorem carries_allStatements {fuel : Nat} {b : Bool} {s s' : Sketch} (h : Abreast b .body s s') :
    Carries fuel s s' allStatements allStatements fun _ => Abreast b .body := by
  have hround (u u' : Sketch) (hu : Abreast b .body u u') :
      Carries fuel u u' (round continuesText statement) (round continuesText statement)
        fun o t t' => o.elim (Abreast b .body t t') fun _ => Abreast b .body t t' := by
    simp only [Script.round, continuesText, LawfulMonad.bind_assoc, pure_bind]
    refine hu.current_body (fun _ _ => carries_pure hu) (fun k hk => ?_) fun htwo => htwo.statement
    exact (carries_statement fuel hk).bind fun _ _ _ ht => carries_pure ht
  exact (carries_collect hround h).bind fun _ _ _ ht => carries_pure ht

end Grammar

open Parsing Grammar

/-- A text that is read without a problem is read without one where some `ElseIf` at the start of a line
are written as two words, and into the same parts but for the heads of clauses. -/
theorem exists_readsAs_respelled {options : ParseOptions} {words words' : List Word}
    {parts : List (Piece Draft)} (h : ReadsAs options words parts [])
    (hwords : Word.Respelled words words') (hsound : ∀ w ∈ words, w.kind ≠ .error) :
    ∃ parts', ReadsAs options words' parts' [] ∧
      Piece.Respelled false parts.reverse parts'.reverse := by
  obtain ⟨t, ⟨fuel, hrun⟩, hrest, rfl, hreports⟩ := h
  have hstart : Abreast false .body (Sketch.initial options words) (Sketch.initial options words') :=
    ⟨rfl, 0, words', [], rfl, trivial, rfl, rfl, rfl, hsound, fun _ hmem => absurd hmem List.not_mem_nil,
      hwords, fun h => absurd h Bool.false_ne_true, .nil, Stage.noConfusion⟩
  obtain ⟨t', ht', -, d, ws, ps, rfl, hs⟩ :=
    carries_allStatements hstart () t hrun (Array.toList_eq_nil_iff.1 hreports)
  have hws := hs.rest
  rw [hrest] at hws
  refine ⟨ps.reverse, ⟨_, ⟨fuel, ht'⟩, hws.eq_nil_iff.2 rfl, rfl, hreports⟩, ?_⟩
  rw [List.reverse_reverse, List.reverse_reverse]
  exact hs.parts

end CRBasic
