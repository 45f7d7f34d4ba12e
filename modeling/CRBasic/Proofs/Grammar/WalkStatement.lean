import CRBasic.Proofs.Grammar.Walk

/-!
# Statements by rules

What the rules for blocks and statements say of every form of statement, and so of the rule for
statements (`walk_statementRule`).
-/

namespace CRBasic

namespace Grammar

open Parsing Parsing.Script

theorem closes_directiveStops : ∀ k ∈ directiveStops, k.closes := by decide

theorem closes_branchStops : ∀ k ∈ branchStops, k.closes := by decide

theorem closes_caseStops : ∀ k ∈ caseStops, k.closes := by decide

section Heads

variable {J : Judgement} (h : LineRules J) {l b s : Bool} {k : TokenKind}
include h

/-! ### Heads of blocks -/

theorem walk_procedureHeader (part : Part) :
    J .inner (.live l b) (procedureHeader part) (.live false b) := by
  refine h.bind (walk_namedIdentifier h) fun _ => ?_
  exact h.ifOnLine (walk_parameterList h)
    (h.post .quiet (h.pure ()))

theorem walk_condition : J .inner (.live l b) condition (.live false b) :=
  h.bind (h.expression 0) fun _ => walk_want h (.inr rfl)

omit h in
theorem walk_loopVariable (h : TextRules J) : J .inner (.live l b) loopVariable (.live false b) := by
  have hlines := h.toLineRules
  refine hlines.ifOnLine (h.text fun name => ?_) ?_
  · exact h.bind (walk_nameReference hlines (h.take_seeing (.inr rfl))) fun _ => h.pure _
  · refine h.bind (walk_report hlines rfl) fun _ => ?_
    exact hlines.post .quiet (h.pure none)

theorem walk_loopBounds : J .inner (.live false b) loopBounds (.live false b) := by
  have hstep : J .inner (.live false b) (do if ← eat .kwStep then expression) (.live false b) :=
    walk_eatThen h (.inr rfl) (h.expression 0) (h.pure ())
  refine walk_expectThen h (.inr rfl) ?_ (h.pure ())
  refine h.bind (h.expression 0) fun _ => ?_
  refine walk_expectThen h (.inr rfl) ?_ (h.pure ())
  exact h.bind (h.expression 0) fun _ => hstep

theorem walk_loopCondition : J .inner (.live l b) loopCondition (.live false b) := by
  refine h.onLine (h.post .quiet (h.pure ())) fun k => ?_
  split
  · next hk =>
    cases hk
    exact h.bind (h.take_seeing (.inr rfl)) fun _ => h.expression 0
  · next hk =>
    cases hk
    exact h.bind (h.take_seeing (.inr rfl)) fun _ => h.expression 0
  · exact h.unsee (h.post .quiet (h.pure ()))

theorem walk_directiveCondition : J .inner (.live l b) directiveCondition (.live false b) :=
  h.bind (h.expression 0) fun _ =>
    h.bind (walk_eat h (.inr rfl)) fun _ => h.pure ()

theorem walk_caseValue : J .inner (.live l b) caseValue (.live false b) :=
  h.bind (h.expression 0) fun _ =>
    walk_eatThen h (.inr rfl) (h.expression 0) (h.pure ())

theorem walk_caseSelector : J .inner (.live true b) caseSelector (.live false b) := by
  have hvalues : J .inner (.live true b) (do let _ ← separated caseValue) (.live false b) :=
    h.bind (walk_separated h (walk_caseValue h)) fun _ => h.pure ()
  refine h.onLine hvalues fun k => ?_
  split
  · exact h.post .quiet (h.take_seeing (.inl rfl))
  · refine h.bind (h.take_seeing (.inl rfl)) fun _ => h.onLine (h.expression 0) fun k => ?_
    rw [Option.any_some]
    split
    · exact h.bind (h.take_seeing (.inl rfl)) fun _ => h.expression 0
    · exact h.unsee (h.expression 0)
  · exact h.unsee hvalues

/-! ### Statements of one line -/

theorem walk_directiveUndefine : J .outer (.word s b k) directiveUndefine (.live true false) :=
  h.node rfl (h.bind h.take_word fun _ =>
    h.bind (walk_namedIdentifier h) fun _ => walk_finish h)

theorem walk_inclusion : J .outer (.word s b k) inclusion (.live true false) := by
  refine h.node rfl (h.bind h.take_word fun _ => ?_)
  refine h.ifOnLine ?_ ?_
  · refine h.unsee ?_
    exact h.bind (h.expression 0) fun _ => walk_finish h
  · refine h.bind (h.report_live rfl) fun _ => h.bind (h.node rfl h.takeLine) fun _ => ?_
    exact walk_finish h

/-- The end of an instruction whose arguments parentheses may enclose. -/
theorem walk_enclosedEnd (enclosed : Bool) : J .inner (.live l b)
    (do if enclosed then want .rParen
        lineEnd) (.live true false) := by
  cases enclosed with
  | false => exact walk_finish h
  | true => exact h.bind (walk_want h (.inr rfl)) fun _ => walk_finish h

theorem walk_menuItem : J .outer (.word s b k) menuItem (.live true false) := by
  refine h.node rfl (h.bind h.take_word fun _ => ?_)
  refine h.bind (walk_eat h (.inl rfl)) fun enclosed => ?_
  have hend {l : Bool} : J .inner (.live l b)
      (do let _ ← eat .comma
          named .menuItemVariable nameReference
          if enclosed then want .rParen
          lineEnd) (.live true false) :=
    h.bind (walk_eat h (.inr rfl)) fun _ =>
      h.bind (walk_namedReference h) fun _ => walk_enclosedEnd h enclosed
  refine h.ifOnLine ?_ (h.bind (walk_report h rfl) fun _ => hend)
  exact h.unsee (h.bind (h.expression 0) fun _ => hend)

theorem walk_callTable : J .outer (.word s b k) callTable (.live true false) := by
  refine h.node rfl (h.bind h.take_word fun _ => ?_)
  refine h.bind (walk_eat h (.inl rfl)) fun enclosed => ?_
  exact h.bind (walk_namedIdentifier h) fun _ => walk_enclosedEnd h enclosed

theorem walk_assignmentStatement :
    J .outer (.word s b k) assignmentStatement (.live true false) := by
  have hvalue {l : Bool} : J .inner (.live l b) (do expression; lineEnd) (.live true false) :=
    h.bind (h.expression 0) fun _ => walk_finish h
  have hmissing : J .inner (.live false b)
      (do report .here (.missingPart .assignmentOperator); expression; lineEnd)
      (.live true false) := h.bind (walk_report h rfl) fun _ => hvalue
  refine h.node rfl (h.bind (walk_nameReference h h.take_word) fun _ => ?_)
  refine h.onLine hmissing fun k => ?_
  rw [Option.any_some]
  split
  · next hk =>
    refine h.bind (h.take_seeing (.inr ?_)) fun _ => hvalue
    cases k <;> first | rfl | cases hk
  · exact h.unsee hmissing

theorem walk_instruction : J .outer (.word s b k) instruction (.live true false) := by
  have hcall : J .inner (.live true b) (do if (← onLine) == some .lParen then arguments)
      (.live false b) :=
    h.ifOnLine (walk_arguments h)
      (h.post .quiet (h.pure ()))
  rw [instruction, ← LawfulMonad.bind_assoc]
  refine h.bind (h.wrapped ?_ hcall) fun _ => walk_finish h
  exact walk_identifier h h.take_word

theorem walk_returnStatement : J .outer (.word s b k) returnStatement (.live true false) := by
  refine h.node rfl (h.bind h.take_word fun _ => h.onLine (walk_finish h) fun k => ?_)
  rw [Option.any_some]
  split
  · refine h.unsee ?_
    exact h.bind (h.expression 0) fun _ => walk_finish h
  · exact h.unsee (walk_finish h)

theorem walk_exitStatement : J .outer (.word s b k) exitStatement (.live true false) := by
  have hmissing : J .inner (.live true b)
      (do report .here (.missingPart .exitedBlock); lineEnd) (.live true false) :=
    h.bind (walk_report h rfl) fun _ => walk_finish h
  refine h.node rfl (h.bind h.take_word fun _ => h.onLine hmissing fun k => ?_)
  rw [Option.any_some]
  split
  · exact h.bind (h.take_seeing (.inl rfl)) fun _ => walk_finish h
  · exact h.unsee hmissing

theorem walk_callStatement : J .outer (.word s b k) callStatement (.live true false) :=
  h.node rfl (h.bind h.take_word fun _ =>
    h.bind (walk_namedReference h) fun _ => walk_finish h)

theorem walk_unexpectedWord : J .outer (.word s b k) (unexpectedWord k) (.live true false) := by
  have hskip {s : Bool} : J .outer (.word s true k) skipWords (.live true false) :=
    h.post .blamed (walk_skipWords h)
  rw [unexpectedWord]
  split
  · next hk =>
    obtain rfl : k = .error := by simpa using hk
    exact h.error hskip
  · exact h.bind (h.report_word rfl) fun _ => hskip

end Heads

section Blocks

variable {J : Judgement} (h : BlockRules J) {st : Stage} {l b s : Bool} {k : TokenKind}
include h

theorem walk_blockEnd (kind opener : TokenKind) :
    J .inner .body (blockEnd kind opener) (.live true false) := by
  refine h.bind (h.terminator kind opener) fun c => ?_
  cases c with
  | false => exact h.pure ()
  | true => exact h.lineEnd

/-- The first line of a block ends, and its body follows. -/
theorem walk_lineThenBody {stops : List TokenKind} (hstops : ∀ k ∈ stops, k.closes) :
    J .inner (.live l b) (do lineEnd; blockBody stops) .body :=
  h.bind h.lineEnd fun _ => h.blockBody hstops

theorem walk_blockTail {opener kind : TokenKind} (hkind : kind.closes) :
    J .inner (.live l b) (blockTail opener kind) (.live true false) :=
  h.bind h.lineEnd fun _ =>
    h.bind (h.blockBody (by simpa using hkind)) fun _ => walk_blockEnd h kind opener

/-! ### Directives -/

theorem walk_directiveElseIf : J .inner .body directiveElseIf .body := by
  refine h.current_body (h.pure none) fun k => ?_
  split
  · refine h.bind (h.node rfl ?_) fun _ => h.pure (some ())
    refine h.bind h.take_word fun _ => h.bind (walk_directiveCondition h.toLineRules) fun _ => ?_
    exact walk_lineThenBody h closes_directiveStops
  · exact h.pre .bodyWord (h.pure none)

theorem walk_directiveBranches (opener : TokenKind) :
    J .inner (.live l b) (directiveBranches opener) (.live true false) := by
  refine h.bind h.lineEnd fun _ => h.bind (h.blockBody closes_directiveStops) fun _ => ?_
  refine h.bind (h.collect (walk_directiveElseIf h)) fun _ => ?_
  have hend : J .inner .body (blockEnd .ppEndIf opener) (.live true false) := walk_blockEnd h _ _
  refine h.current_body hend fun k => ?_
  split
  · refine h.bind (h.node rfl (h.bind h.take_word fun _ => ?_)) fun _ => hend
    exact walk_lineThenBody h (by decide)
  · exact h.pre .bodyWord hend

theorem walk_directiveIf : J .outer (.word s b k) directiveIf (.live true false) :=
  h.node rfl (h.bind h.take_word fun _ =>
    h.bind (walk_directiveCondition h.toLineRules) fun _ => walk_directiveBranches h _)

theorem walk_directiveIfDefined : J .outer (.word s b k) directiveIfDefined (.live true false) :=
  h.node rfl (h.bind h.take_word fun _ =>
    h.bind (walk_namedIdentifier h.toLineRules) fun _ => walk_directiveBranches h _)

/-! ### The program and its procedures -/

theorem walk_program : J .outer (.word s b k) program (.live true false) :=
  h.node rfl (h.bind h.take_word fun _ => walk_blockTail h rfl)

theorem walk_functionDeclaration :
    J .outer (.word s b k) functionDeclaration (.live true false) :=
  h.node rfl (h.bind h.take_word fun _ => h.bind (walk_procedureHeader h.toLineRules _) fun _ =>
    h.bind (walk_asType h.toLineRules) fun _ => walk_blockTail h rfl)

theorem walk_subroutineDeclaration :
    J .outer (.word s b k) subroutineDeclaration (.live true false) :=
  h.node rfl (h.bind h.take_word fun _ => h.bind (walk_procedureHeader h.toLineRules _) fun _ =>
    walk_blockTail h rfl)

/-! ### Conditions -/

theorem walk_conditionalBranch : J .inner (.live l b) conditionalBranch .body :=
  h.bind (walk_condition h.toLineRules) fun _ => walk_lineThenBody h closes_branchStops

theorem walk_elseIfBranch : J .inner .body elseIfBranch .body := by
  have hnone {k : TokenKind} : J .inner (.word true false k) (return none : Script (Option Unit))
      .body := h.pre .bodyWord (h.pure none)
  refine h.current_body (h.pure none) fun k => ?_
  split
  · refine h.bind (h.node rfl (h.bind h.take_word fun _ => ?_)) fun _ => h.pure (some ())
    exact walk_conditionalBranch h
  · refine h.second_word hnone fun k' => ?_
    split
    · refine h.bind (h.node rfl (h.bind h.take_pair fun _ => ?_)) fun _ => h.pure (some ())
      exact h.bind (h.take_seeing (.inl rfl)) fun _ => walk_conditionalBranch h
    · exact h.pre .bodyPair (h.pure none)
  · exact hnone

theorem walk_blockBranches : J .inner (.live l b) blockBranches (.live true false) := by
  refine h.bind h.lineEnd fun _ => h.bind (h.blockBody closes_branchStops) fun _ => ?_
  refine h.bind (h.collect (walk_elseIfBranch h)) fun _ => ?_
  have hend : J .inner .body (blockEnd .kwEndIf .kwIf) (.live true false) := walk_blockEnd h _ _
  refine h.current_body hend fun k => ?_
  split
  · refine h.bind (h.node rfl (h.bind h.take_word fun _ => ?_)) fun _ => hend
    exact walk_lineThenBody h (by decide)
  · exact h.pre .bodyWord hend

/-! ### Loops -/

/-- What a counting loop holds. -/
def loopParts : Script Unit := do
  take
  let name? ← loopVariable
  loopBounds
  lineEnd
  blockBody [.kwNext]
  if ← terminator .kwNext .kwFor then
    closingVariable name?
    lineEnd

theorem walk_loopParts (htext : TextRules J) :
    J .inner (.word s b k) loopParts (.live true false) := by
  refine h.bind h.take_word fun _ => h.bind (walk_loopVariable htext) fun name? => ?_
  refine h.bind (walk_loopBounds h.toLineRules) fun _ => h.bind h.lineEnd fun _ => ?_
  refine h.bind (h.blockBody (by decide)) fun _ => h.bind (h.terminator _ _) fun c => ?_
  cases c with
  | false => exact h.pure ()
  | true => exact h.bind (h.closingVariable _) fun _ => h.lineEnd

theorem walk_whileLoop : J .outer (.word s b k) whileLoop (.live true false) :=
  h.node rfl (h.bind h.take_word fun _ => h.bind (h.expression 0) fun _ => walk_blockTail h rfl)

theorem walk_doLoop : J .outer (.word s b k) doLoop (.live true false) := by
  refine h.node rfl (h.bind h.take_word fun _ => h.bind (walk_loopCondition h.toLineRules) fun _ => ?_)
  refine h.bind h.lineEnd fun _ => h.bind (h.blockBody (by decide)) fun _ => ?_
  refine h.bind (h.terminator _ _) fun c => ?_
  cases c with
  | false => exact h.pure ()
  | true => exact h.bind (walk_loopCondition h.toLineRules) fun _ => h.lineEnd

/-! ### Selection -/

theorem walk_caseOrSkipped : J .inner .body caseOrSkipped .body := by
  have hnone {k : TokenKind} : J .inner (.word true false k) (return none : Script (Option Unit))
      .body := h.pre .bodyWord (h.pure none)
  refine h.current_body (h.pure none) fun k => ?_
  split
  · exact hnone
  · exact hnone
  · refine h.bind (h.node rfl (h.bind h.take_word fun _ => ?_)) fun _ => h.pure (some ())
    exact h.bind (walk_caseSelector h.toLineRules) fun _ => walk_lineThenBody h closes_caseStops
  · refine h.unlessAtStop rfl hnone (h.bind (walk_skipWords h.toLineRules) fun _ => ?_)
    exact h.post .body (h.pure (some ()))

theorem walk_selectStatement : J .outer (.word s b k) selectStatement (.live true false) := by
  refine h.node rfl (h.bind h.take_word fun _ => ?_)
  refine h.bind (walk_want h.toLineRules (.inl rfl)) fun _ => h.bind (h.expression 0) fun _ => ?_
  refine h.bind h.lineEnd fun _ => h.pre .body ?_
  exact h.bind (h.collect (walk_caseOrSkipped h)) fun _ => walk_blockEnd h _ _

/-! ### Instructions that open blocks -/

/-- What a scan holds. -/
def scanParts (opener kindOfEnd : TokenKind) (least most : Nat) : Script Unit := do
  take
  scanArguments opener least most
  blockTail opener kindOfEnd

theorem walk_scanParts {opener kindOfEnd : TokenKind} {least most : Nat} (hkind : kindOfEnd.closes) :
    J .inner (.word s b k) (scanParts opener kindOfEnd least most) (.live true false) :=
  h.bind h.take_word fun _ => h.bind (h.scanArguments _ _ _) fun _ => walk_blockTail h hkind

theorem walk_slowSequence : J .outer (.word s b k) slowSequence (.live true false) :=
  h.node rfl (h.bind h.take_word fun _ => walk_blockTail h rfl)

/-- An argument list, if there is one, and then the body of a block. -/
theorem walk_argumentsThenTail {opener kind : TokenKind} (hkind : kind.closes) :
    J .inner (.live true b) (do
        if (← onLine) == some .lParen then arguments
        blockTail opener kind) (.live true false) := by
  refine h.ifOnLine ?_ (walk_blockTail h hkind)
  exact h.bind (walk_arguments h.toLineRules) fun _ => walk_blockTail h hkind

theorem walk_menu {kind : NodeKind} {opener kindOfEnd : TokenKind} (hkind : kind.isRoutine)
    (hend : kindOfEnd.closes) :
    J .outer (.word s b k) (menu kind opener kindOfEnd) (.live true false) :=
  h.node hkind (h.bind h.take_word fun _ => walk_argumentsThenTail h hend)

theorem walk_constantTable : J .outer (.word s b k) constantTable (.live true false) :=
  h.node rfl (h.bind h.take_word fun _ => walk_argumentsThenTail h rfl)

theorem walk_dataTable : J .outer (.word s b k) dataTable (.live true false) :=
  h.node rfl (h.bind h.take_word fun _ =>
    h.bind (h.tableArguments _ _ _) fun _ => walk_blockTail h rfl)

end Blocks

section Statements

variable {J : Judgement} (h : StatementRules J) {s b : Bool} {k : TokenKind}
include h

theorem walk_statementOf : J .outer (.word s b k) (statementOf k) (.live true false) := by
  have hr := h.toBlockRules
  unfold statementOf
  split
  · exact walk_program hr
  · exact walk_functionDeclaration hr
  · exact walk_subroutineDeclaration hr
  · exact h.ifStatement
  · exact h.forLoop
  · exact walk_whileLoop hr
  · exact walk_doLoop hr
  · exact walk_selectStatement hr
  · exact h.scanStatement
  · exact h.subScanStatement
  · exact walk_slowSequence hr
  · exact walk_menu hr rfl rfl
  · exact walk_menu hr rfl rfl
  · exact walk_menuItem hr.toLineRules
  · exact walk_dataTable hr
  · exact walk_callTable hr.toLineRules
  · exact walk_variableDeclaration h.toLineRules
  · exact walk_variableDeclaration h.toLineRules
  · exact walk_constantDeclaration h.toLineRules
  · exact walk_constantTable hr
  · exact walk_aliasDeclaration h.toLineRules
  · exact walk_unitsDeclaration h.toLineRules
  · exact walk_returnStatement hr.toLineRules
  · exact walk_exitStatement hr.toLineRules
  · exact walk_callStatement hr.toLineRules
  · exact walk_directiveIf hr
  · exact walk_directiveIfDefined hr
  · exact walk_directiveUndefine hr.toLineRules
  · exact walk_inclusion hr.toLineRules
  · exact h.assignmentOrInstruction
  · exact walk_unexpectedWord hr.toLineRules

/-- A statement at a word ends loud. -/
theorem walk_statementRule : J .outer (.word s b k) statementRule (.live true false) := by
  refine h.bind h.listen_word fun _ => h.tooDeep fun deep => ?_
  split
  · exact h.post .blamed (walk_skipDeepStatement h.toLineRules)
  · exact h.current_word (walk_statementOf h)

end Statements

end Grammar

end CRBasic
