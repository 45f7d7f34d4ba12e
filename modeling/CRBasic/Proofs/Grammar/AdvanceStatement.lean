import CRBasic.Proofs.Grammar.Advance

/-!
# Statements advance

The forms of statements take their first word and go on from there, so every statement takes a word
and ends.  This closes the circle of the two rules (`rulesAdvance`).
-/

namespace CRBasic

namespace Grammar

open Parsing Parsing.Script

/-! ### Blocks -/

section Blocks

variable {call : Rule → State → Option State} {fuel : Nat} {word : Bool} {slack : Nat}
  (hr : RulesAdvance call fuel)
include hr

theorem advances_program : Advances call fuel true slack (fun _ => 1) program :=
  advances_node _ (advances_bind advances_take fun _ => advances_blockTail hr _ _)

theorem advances_procedureHeader (part : Part) :
    Advances call fuel word slack (fun _ => 0) (procedureHeader part) := by
  refine advances_bind (advances_named advances_identifier.zero) fun _ => ?_
  exact advances_ifOnLine (advances_parameterList hr).zero (advances_pure rfl)

theorem advances_functionDeclaration :
    Advances call fuel true slack (fun _ => 1) functionDeclaration :=
  advances_node _ (advances_bind advances_take fun _ =>
    advances_bind (advances_procedureHeader hr _) fun _ =>
      advances_bind (advances_asType hr) fun _ => advances_blockTail hr _ _)

theorem advances_subroutineDeclaration :
    Advances call fuel true slack (fun _ => 1) subroutineDeclaration :=
  advances_node _ (advances_bind advances_take fun _ =>
    advances_bind (advances_procedureHeader hr _) fun _ => advances_blockTail hr _ _)

theorem advances_condition : Advances call fuel word (slack + 1) (fun _ => 0) condition :=
  advances_bind (advances_expression hr) fun _ => advances_want _

theorem advances_conditionalBranch :
    Advances call fuel word (slack + 1) (fun _ => 0) conditionalBranch :=
  advances_bind (advances_condition hr) fun _ =>
    advances_bind advances_lineEnd fun _ => advances_blockBody hr _

theorem advances_elseIfBranch :
    Advances call fuel word slack (fun r => r.toList.length) elseIfBranch := by
  refine advances_current (advances_pure rfl) fun k => ?_
  split
  · refine advances_bind (m := fun _ => 1) (advances_node _ ?_) fun _ => advances_pure rfl
    exact advances_bind advances_take fun _ => advances_conditionalBranch hr
  · refine advances_ask fun k => ?_
    split
    · refine advances_bind (m := fun _ => 1) (advances_node _ ?_) fun _ => advances_pure rfl
      refine advances_bind advances_take fun _ => ?_
      exact advances_bind (advances_act _) fun _ => advances_conditionalBranch hr
    · exact advances_pure rfl
  · exact advances_pure rfl

theorem advances_oneLineBranches :
    Advances call fuel word (slack + 1) (fun _ => 0) oneLineBranches := by
  refine advances_bind (advances_inlineBody hr _) fun _ => ?_
  refine advances_ifOnLine (advances_node _ ?_) (advances_pure rfl)
  exact (advances_bind advances_take fun _ => advances_inlineBody hr _ :
    Advances call fuel true _ (fun _ => 1) _).zero

theorem advances_blockBranches :
    Advances call fuel word (slack + 1) (fun _ => 0) blockBranches := by
  refine advances_bind advances_lineEnd fun _ => advances_bind (advances_blockBody hr _) fun _ => ?_
  refine advances_bind (m := fun _ => 0) (advances_collect (advances_elseIfBranch hr)) fun _ => ?_
  exact advances_lastBranch hr _ _ _ _ _

theorem advances_ifStatement : Advances call fuel true slack (fun _ => 1) ifStatement := by
  refine advances_node _ (advances_bind advances_take fun _ => ?_)
  refine advances_bind (advances_condition hr) fun _ => advances_ask fun b => ?_
  intro s hs hfuel
  rw [ends_bind]
  refine (ends_statementEnds s).mono ?_
  rintro c t ⟨rfl, -⟩
  split
  · exact advances_oneLineBranches hr t hs hfuel
  · exact advances_blockBranches hr t hs hfuel

theorem advances_loopVariable : Advances call fuel word slack (fun _ => 0) loopVariable := by
  refine advances_ifOnLine (advances_ask fun _ => ?_) ?_
  · exact advances_bind (advances_nameReference hr) fun _ => advances_pure (Nat.zero_sub _)
  · exact advances_act_bind (by simp) (advances_pure rfl)

theorem advances_loopBounds : Advances call fuel word slack (fun _ => 0) loopBounds := by
  refine advances_bind (advances_expect _) fun b => ?_
  cases b with
  | false => exact advances_pure rfl
  | true =>
    refine advances_bind (advances_expression hr) fun _ => ?_
    refine advances_bind (advances_expect _) fun b => ?_
    cases b with
    | false => exact advances_pure rfl
    | true =>
      refine advances_bind (advances_expression hr) fun _ => ?_
      exact advances_ifEat (advances_expression hr) (advances_pure rfl)

theorem advances_closingVariable (name? : Option (List Char)) :
    Advances call fuel word slack (fun _ => 0) (closingVariable name?) := by
  refine advances_ifOnLine (advances_within _ (advances_ask fun closing => ?_)) (advances_pure rfl)
  refine (advances_bind (advances_nameReference hr) fun _ => ?_ :
    Advances call fuel true slack (fun _ => 1) _).zero
  cases name? with
  | none => exact advances_pure rfl
  | some name =>
    dsimp only
    split
    · exact advances_pure rfl
    · exact advances_report _ _

theorem advances_forLoop : Advances call fuel true slack (fun _ => 1) forLoop := by
  refine advances_node _ (advances_bind advances_take fun _ => ?_)
  refine advances_bind (advances_loopVariable hr) fun name? => ?_
  refine advances_bind (advances_loopBounds hr) fun _ => ?_
  refine advances_bind advances_lineEnd fun _ => advances_bind (advances_blockBody hr _) fun _ => ?_
  exact advances_ifTerminator
    (advances_bind (advances_closingVariable hr _) fun _ => advances_lineEnd)

theorem advances_whileLoop : Advances call fuel true slack (fun _ => 1) whileLoop :=
  advances_node _ (advances_bind advances_take fun _ =>
    advances_bind (advances_expression hr) fun _ => advances_blockTail hr _ _)

theorem advances_loopCondition : Advances call fuel word slack (fun _ => 0) loopCondition := by
  have htake : Advances call fuel true slack (fun _ => 0) (take >>= fun _ => expression) :=
    (advances_bind advances_take fun _ => advances_expression hr :
      Advances call fuel true slack (fun _ => 1) _).zero
  refine advances_onLine (advances_pure rfl) fun k => ?_
  split
  · exact htake
  · exact htake
  · exact advances_pure rfl

theorem advances_doLoop : Advances call fuel true slack (fun _ => 1) doLoop := by
  refine advances_node _ (advances_bind advances_take fun _ => ?_)
  refine advances_bind (advances_loopCondition hr) fun _ => ?_
  refine advances_bind advances_lineEnd fun _ => advances_bind (advances_blockBody hr _) fun _ => ?_
  exact advances_ifTerminator
    (advances_bind (advances_loopCondition hr) fun _ => advances_lineEnd)

theorem advances_caseValue : Advances call fuel word (slack + 1) (fun _ => 0) caseValue :=
  advances_bind (advances_expression hr) fun _ =>
    advances_ifEat (advances_expression hr) (advances_pure rfl)

theorem advances_caseSelector :
    Advances call fuel word (slack + 1) (fun _ => 0) caseSelector := by
  have hvalues {word} : Advances call fuel word (slack + 1) (fun _ => 0)
      (separated caseValue >>= fun _ => pure ()) :=
    advances_bind (m := fun _ => 0) (advances_separated (fun _ => rfl) (advances_caseValue hr))
      fun _ => advances_pure rfl
  refine advances_onLine hvalues fun k => ?_
  split
  · exact advances_take.zero
  · refine (advances_bind advances_take fun _ => ?_ :
      Advances call fuel true (slack + 1) (fun _ => 1) _).zero
    refine advances_onLine (advances_expression hr) fun k => ?_
    rw [Option.any_some]
    split
    · exact (advances_bind advances_take fun _ => advances_expression hr :
        Advances call fuel true (slack + 1 + 1) (fun _ => 1) _).zero
    · exact advances_expression hr
  · exact hvalues

theorem advances_caseClause : Advances call fuel true slack (fun _ => 1) caseClause :=
  advances_node _ (advances_bind advances_take fun _ =>
    advances_bind (advances_caseSelector hr) fun _ =>
      advances_bind advances_lineEnd fun _ => advances_blockBody hr _)

theorem advances_caseOrSkipped :
    Advances call fuel word slack (fun r => r.toList.length) caseOrSkipped := by
  refine advances_current (advances_pure rfl) fun k => ?_
  split
  · exact advances_pure rfl
  · exact advances_pure rfl
  · exact advances_bind (advances_caseClause hr) fun _ => advances_pure rfl
  · refine advances_ask fun b => ?_
    split
    · exact advances_pure rfl
    · refine advances_act_bind (by simp) ?_
      exact advances_bind advances_skipWords fun _ => advances_pure rfl

theorem advances_selectStatement : Advances call fuel true slack (fun _ => 1) selectStatement := by
  refine advances_node _ (advances_bind advances_take fun _ => ?_)
  refine advances_bind (advances_want _) fun _ => advances_bind (advances_expression hr) fun _ => ?_
  refine advances_bind advances_lineEnd fun _ => ?_
  exact advances_bind (m := fun _ => 0) (advances_collect (advances_caseOrSkipped hr))
    fun _ => advances_blockEnd _ _

theorem advances_instructionArguments (instruction : TokenKind) (least most : Nat) :
    Advances call fuel word slack (fun _ => 0) (instructionArguments instruction least most) := by
  refine advances_ifOnLine ?_ (advances_act_bind (by simp) (advances_pure rfl))
  refine (advances_bind (advances_argumentList hr) fun args => ?_ :
    Advances call fuel true slack (fun _ => 1) _).zero
  dsimp only
  split
  · exact advances_pure rfl
  · exact advances_act_bind (by simp) (advances_pure rfl)

omit hr in
theorem advances_checkScanUnits (args : List Argument) :
    Advances call fuel word slack (fun _ => 0) (checkScanUnits args) := by
  unfold checkScanUnits
  split
  · split
    · exact advances_pure rfl
    · exact advances_report _ _
  · exact advances_pure rfl

theorem advances_scanArguments (instruction : TokenKind) (least most : Nat) :
    Advances call fuel word slack (fun _ => 0) (scanArguments instruction least most) :=
  advances_within _ (advances_bind (advances_instructionArguments hr _ _ _) fun _ =>
    advances_checkScanUnits _)

theorem advances_scanStatement : Advances call fuel true slack (fun _ => 1) scanStatement :=
  advances_node _ (advances_bind advances_take fun _ =>
    advances_bind (advances_scanArguments hr _ _ _) fun _ => advances_blockTail hr _ _)

theorem advances_subScanStatement : Advances call fuel true slack (fun _ => 1) subScanStatement :=
  advances_node _ (advances_bind advances_take fun _ =>
    advances_bind (advances_scanArguments hr _ _ _) fun _ => advances_blockTail hr _ _)

theorem advances_slowSequence : Advances call fuel true slack (fun _ => 1) slowSequence :=
  advances_node _ (advances_bind advances_take fun _ => advances_blockTail hr _ _)

theorem advances_menu (kind : NodeKind) (opener kindOfEnd : TokenKind) :
    Advances call fuel true slack (fun _ => 1) (menu kind opener kindOfEnd) := by
  refine advances_node _ (advances_bind advances_take fun _ => ?_)
  exact advances_ifOnLine
    (advances_bind (advances_arguments hr).zero fun _ => advances_blockTail hr _ _)
    (advances_blockTail hr _ _)

omit hr in
/-- The end of an instruction whose arguments parentheses may enclose. -/
theorem advances_enclosedEnd (enclosed : Bool) : Advances call fuel word slack (fun _ => 0)
    (do if enclosed then want .rParen
        lineEnd) := by
  cases enclosed with
  | false => exact advances_lineEnd
  | true => exact advances_bind (advances_want _) fun _ => advances_lineEnd

theorem advances_menuItem : Advances call fuel true slack (fun _ => 1) menuItem := by
  refine advances_node _ (advances_bind advances_take fun _ => ?_)
  refine advances_bind (m := fun _ => 0) (advances_eat _).zero fun enclosed => ?_
  have hend {word} {slack : Nat} : Advances call fuel word (slack + 1) (fun _ => 0)
      (do let _ ← eat .comma
          named .menuItemVariable nameReference
          if enclosed then want .rParen
          lineEnd) := by
    refine advances_bind (m := fun _ => 0) (advances_eat _).zero fun _ => ?_
    exact advances_bind (advances_named (advances_nameReference hr).zero) fun _ =>
      advances_enclosedEnd enclosed
  exact advances_ifOnLine (advances_bind (advances_expression hr) fun _ => hend)
    (advances_act_bind (by simp) hend)

theorem advances_dataTable : Advances call fuel true slack (fun _ => 1) dataTable := by
  refine advances_node _ (advances_bind advances_take fun _ => ?_)
  refine advances_bind (m := fun _ => 0) (advances_within _ ?_) fun _ => advances_blockTail hr _ _
  exact advances_bind (advances_instructionArguments hr _ _ _) fun _ => advances_pure rfl

omit hr in
theorem advances_callTable : Advances call fuel true slack (fun _ => 1) callTable := by
  refine advances_node _ (advances_bind advances_take fun _ => ?_)
  refine advances_bind (m := fun _ => 0) (advances_eat _).zero fun enclosed => ?_
  exact advances_bind (advances_named advances_identifier.zero) fun _ =>
    advances_enclosedEnd enclosed

end Blocks

/-! ### Statements -/

section Statements

variable {call : Rule → State → Option State} {fuel : Nat} {word : Bool} {slack : Nat}
  (hr : RulesAdvance call fuel)
include hr

theorem advances_assignmentStatement :
    Advances call fuel true slack (fun _ => 1) assignmentStatement := by
  refine advances_node _ (advances_bind (advances_nameReference hr) fun _ => ?_)
  have hvalue {word} {slack : Nat} : Advances call fuel word (slack + 1) (fun _ => 0)
      (expression >>= fun _ => lineEnd) :=
    advances_bind (advances_expression hr) fun _ => advances_lineEnd
  have hmissing : Advances call fuel false (slack + 1) (fun _ => 0)
      (report .here (.missingPart .assignmentOperator) >>= fun _ => expression >>= fun _ =>
        lineEnd) :=
    advances_act_bind (by simp) hvalue
  refine advances_onLine hmissing fun k => ?_
  rw [Option.any_some]
  split
  · exact (advances_bind advances_take fun _ => hvalue :
      Advances call fuel true (slack + 1) (fun _ => 1) _).zero
  · exact advances_act_bind (by simp) hvalue

theorem advances_instruction : Advances call fuel true slack (fun _ => 1) instruction := by
  refine advances_bind advances_identifier fun _ => ?_
  refine advances_bind (m := fun _ => 0) (advances_wrap _ ?_) fun _ => advances_lineEnd
  exact advances_ifOnLine (advances_arguments hr).zero (advances_pure rfl)

theorem advances_assignmentOrInstruction :
    Advances call fuel true slack (fun _ => 1) assignmentOrInstruction := by
  refine advances_ask fun b => ?_
  split
  · exact advances_assignmentStatement hr
  · exact advances_instruction hr

theorem advances_returnStatement : Advances call fuel true slack (fun _ => 1) returnStatement := by
  refine advances_node _ (advances_bind advances_take fun _ => ?_)
  refine advances_onLine advances_lineEnd fun k => ?_
  rw [Option.any_some]
  split
  · exact advances_bind (advances_expression hr) fun _ => advances_lineEnd
  · exact advances_lineEnd

omit hr in
theorem advances_exitStatement : Advances call fuel true slack (fun _ => 1) exitStatement := by
  refine advances_node _ (advances_bind advances_take fun _ => ?_)
  refine advances_onLine (advances_act_bind (by simp) advances_lineEnd) fun k => ?_
  rw [Option.any_some]
  split
  · exact (advances_bind advances_take fun _ => advances_lineEnd :
      Advances call fuel true (slack + 1) (fun _ => 1) _).zero
  · exact advances_act_bind (by simp) advances_lineEnd

theorem advances_callStatement : Advances call fuel true slack (fun _ => 1) callStatement :=
  advances_node _ (advances_bind advances_take fun _ =>
    advances_bind (advances_named (advances_nameReference hr).zero) fun _ => advances_lineEnd)

omit hr in
theorem advances_unexpectedWord (found : TokenKind) :
    Advances call fuel true slack (fun _ => 1) (unexpectedWord found) := by
  unfold unexpectedWord
  split
  · exact advances_skipWords
  · exact advances_act_bind (by simp) advances_skipWords

/-- Every form of statement takes its first word. -/
theorem advances_statementOf (k : TokenKind) :
    Advances call fuel true slack (fun _ => 1) (statementOf k) := by
  unfold statementOf
  split
  · exact advances_program hr
  · exact advances_functionDeclaration hr
  · exact advances_subroutineDeclaration hr
  · exact advances_ifStatement hr
  · exact advances_forLoop hr
  · exact advances_whileLoop hr
  · exact advances_doLoop hr
  · exact advances_selectStatement hr
  · exact advances_scanStatement hr
  · exact advances_subScanStatement hr
  · exact advances_slowSequence hr
  · exact advances_menu hr _ _ _
  · exact advances_menu hr _ _ _
  · exact advances_menuItem hr
  · exact advances_dataTable hr
  · exact advances_callTable
  · exact advances_variableDeclaration hr
  · exact advances_variableDeclaration hr
  · exact advances_constantDeclaration hr
  · exact advances_constantTable hr
  · exact advances_aliasDeclaration hr
  · exact advances_unitsDeclaration hr
  · exact advances_returnStatement hr
  · exact advances_exitStatement
  · exact advances_callStatement hr
  · exact advances_directiveIf hr
  · exact advances_directiveIfDefined hr
  · exact advances_directiveUndefine
  · exact advances_inclusion hr
  · exact advances_assignmentOrInstruction hr
  · exact advances_unexpectedWord _

theorem advances_statementRule :
    Advances call fuel true slack (fun _ => 1) statementRule := by
  refine advances_act_bind (by simp) (advances_ask fun deep => ?_)
  split
  · exact advances_skipDeepStatement
  · intro s hs hfuel
    obtain ⟨w, ws, h⟩ := List.exists_cons_of_ne_nil (hs rfl)
    have hanswer : Machine.answer s Query.current = some w.kind := by
      change s.current = _
      simp [Reading.current, h]
    rw [ends_bind, current, ends_ask, hanswer]
    exact advances_statementOf hr _ s hs hfuel

end Statements

/-! ### Both rules -/

theorem ends_runRule {fuel : Nat} {rule : Rule} {s : State} {Q : Unit → State → Prop}
    (h : Ends (runRule script fuel) fuel (script rule) s Q) :
    Ends (runRule script (fuel + 1)) (fuel + 1) (.call rule .done) s Q := by
  obtain ⟨u, t, hrun, hQ⟩ := h
  refine ends_call (t := t) ?_ hQ
  rw [runRule, hrun]

/-- Whatever the fuel, the rules advance on it. -/
theorem rulesAdvance (fuel : Nat) : RulesAdvance (runRule script fuel) fuel := by
  induction fuel with
  | zero => exact ⟨fun _ _ _ _ _ h => absurd h (by omega), fun _ _ h => absurd h (by omega)⟩
  | succ fuel ih =>
    constructor
    · intro power word slack s hs hfuel
      have h : Advances (runRule script fuel) fuel word slack (fun _ => 0) (expressionRule power) :=
        advances_expressionRule ih power
      exact ends_runRule (h s hs (by omega))
    · intro slack s hs hfuel
      have h : Advances (runRule script fuel) fuel true slack (fun _ => 1) statementRule :=
        advances_statementRule ih
      exact ends_runRule (h s hs (by omega))

/-- The loop of the root goes on until no word is left. -/
theorem ends_sourceFile {fuel : Nat} {s : State} (hfuel : s.rest.length + 1 < fuel) :
    Ends (runRule script fuel) fuel sourceFile s fun _ t => t.rest = [] := by
  have hitem (t : State) (ht : t.rest.length + 1 < fuel) :
      Ends (runRule script fuel) fuel (do
          if ← (do return (← current).isSome) then
            statement
            return some ()
          else return none) t fun r u =>
        (r.isSome → u.rest.length + 1 < fuel ∧ u.rest.length < t.rest.length) ∧
          (r.isNone → u.rest = []) := by
    have hcurrent : Machine.answer t Query.current = t.rest.head?.map (·.kind) := rfl
    rw [ends_bind, ends_bind, current, ends_ask, ends_pure, hcurrent]
    cases h : t.rest with
    | nil => simp [h]
    | cons w ws =>
      simp only [List.head?_cons, Option.map_some, Option.isSome_some, if_true, ends_bind, ends_pure]
      have hstatement : Advances (runRule script fuel) fuel true (0 + 1) (fun _ => 1) statement :=
        (rulesAdvance fuel).statement
      refine (hstatement t (by simp [h]) ht).mono fun _ u hu => ?_
      simp only [Option.isNone_some, Bool.false_eq_true, false_implies, and_true, true_implies]
      rw [h] at ht hu
      dsimp only at hu
      exact ⟨by omega, by omega⟩
  have hloop : Ends (runRule script fuel) fuel (whileM (do return (← current).isSome) statement)
      (Machine.begin s (.node .sourceFile)).2 fun _ t => t.rest = [] := by
    rw [whileM, ends_bind]
    refine (ends_collect (I := fun t : State => t.rest.length + 1 < fuel)
      (fun t : State => t.rest.length) hitem ?_ ?_).mono fun _ t ht => ?_
    · rwa [rest_begin]
    · rw [rest_begin]
      omega
    · rwa [ends_pure]
  rw [sourceFile, node, ends_within]
  refine hloop.mono fun _ t ht => ?_
  rwa [rest_leave]

end Grammar

end CRBasic
