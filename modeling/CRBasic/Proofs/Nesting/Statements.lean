import CRBasic.Proofs.Nesting.Budget

/-!
# Budgets of statements

How high a statement is follows from two numbers: how high an expression is at its level, and how high
a statement is in a block of its own, one level deeper.  An expression lies below at most four other
nodes of a statement, as in the length of a string that is the type of a parameter; the statement list
of a block lies below at most two.
-/

namespace CRBasic

namespace Grammar

open Parsing Parsing.Script

variable {α : Type} {b : Budget} {k n : Nat}

/-! ### Declarations -/

section Declarations

theorem bounded_asType (hn : b.other + b.expression k ≤ n) :
    typeAnnotation.Bounded b k n n := by
  refine bounded_ifOnLine (bounded_node rfl hn (bounded_act rfl (bounded_named ?_))) trivial
  exact bounded_act rfl (bounded_eatThen (bounded_expression (Nat.le_refl _)) trivial)

theorem bounded_declarator (hn : 2 * b.other + b.expression k ≤ n) :
    declarator.Bounded b k n n := by
  refine bounded_node (i := b.other + b.expression k) rfl (by omega) (bounded_named ?_)
  have htype : typeAnnotation.Bounded b k (b.other + b.expression k) (b.other + b.expression k) :=
    bounded_asType (Nat.le_refl _)
  refine (bounded_identifier (Nat.le_add_right _ _)).bind fun _ => bounded_ifOnLine ?_ htype
  refine (bounded_parenthesized rfl (Nat.le_refl _) ?_).bind fun _ => htype
  exact bounded_expression (Nat.le_refl _)

theorem bounded_parameter (hn : 2 * b.other + b.expression k ≤ n) : parameter.Bounded b k n n := by
  refine bounded_node (i := b.other + b.expression k) rfl (by omega) (bounded_ask rfl fun found => ?_)
  have hword : b.other ≤ b.other + b.expression k := Nat.le_add_right _ _
  have htype : typeAnnotation.Bounded b k (b.other + b.expression k) (b.other + b.expression k) :=
    bounded_asType (Nat.le_refl _)
  split
  · refine (bounded_identifier hword).bind fun _ => bounded_eatThen ?_ htype
    exact (bounded_want _).bind fun _ => htype
  · refine bounded_act rfl ?_
    split
    · trivial
    · trivial
    · trivial
    · exact bounded_oneWord rfl hword

theorem bounded_parameterList (hn : 3 * b.other + b.expression k ≤ n) :
    parameterList.Bounded b k n n :=
  bounded_parenthesized (i := 2 * b.other + b.expression k) rfl (by omega)
    (bounded_parameter (Nat.le_refl _))

theorem bounded_namedIdentifier {part : Part} (hn : b.other ≤ n) :
    (named part identifier).Bounded b k n n := bounded_named (bounded_identifier hn)

theorem bounded_procedureHeader {part : Part} (hn : 3 * b.other + b.expression k ≤ n) :
    (procedureHeader part).Bounded b k n n :=
  (bounded_namedIdentifier (by omega)).bind fun _ =>
    bounded_ifOnLine (bounded_parameterList hn) trivial

end Declarations

/-! ### Parts of one line -/

section Parts

theorem bounded_condition (hn : b.expression k ≤ n) : condition.Bounded b k n n :=
  (bounded_expression hn).bind fun _ => bounded_want _

theorem bounded_directiveCondition (hn : b.expression k ≤ n) :
    directiveCondition.Bounded b k n n :=
  (bounded_expression hn).bind fun _ => (bounded_eat _).bind fun _ => trivial

theorem bounded_loopVariable (hn : 2 * b.other + b.expression k ≤ n) :
    loopVariable.Bounded b k n n := by
  refine bounded_ifOnLine (bounded_ask rfl fun name => ?_) (bounded_act rfl trivial)
  exact (bounded_nameReference hn).bind fun _ => trivial

theorem bounded_loopBounds (hn : b.expression k ≤ n) : loopBounds.Bounded b k n n := by
  have hexpression : expression.Bounded b k n n := bounded_expression hn
  refine bounded_expectThen (hexpression.bind fun _ => bounded_expectThen ?_ trivial) trivial
  exact hexpression.bind fun _ => bounded_eatThen hexpression trivial

theorem bounded_closingVariable (name? : Option (List Char))
    (hn : 2 * b.other + b.expression k ≤ n) : (closingVariable name?).Bounded b k n n := by
  refine bounded_ifOnLine (bounded_measured (bounded_ask rfl fun closing => ?_)) trivial
  refine (bounded_nameReference hn).bind fun _ => ?_
  split
  · trivial
  · split
    · trivial
    · exact bounded_report

theorem bounded_loopCondition (hn : b.expression k ≤ n) : loopCondition.Bounded b k n n := by
  have hcondition : (do take; expression : Script Unit).Bounded b k n n :=
    bounded_act rfl (bounded_expression hn)
  apply bounded_ask rfl
  intro found
  split
  · exact hcondition
  · exact hcondition
  · trivial

theorem bounded_caseValue (hn : b.expression k ≤ n) : caseValue.Bounded b k n n :=
  (bounded_expression hn).bind fun _ => bounded_eatThen (bounded_expression hn) trivial

theorem bounded_caseSelector (hn : b.expression k ≤ n) : caseSelector.Bounded b k n n := by
  have hexpression : expression.Bounded b k n n := bounded_expression hn
  apply bounded_ask rfl
  intro found
  split
  · exact bounded_take
  · refine bounded_act rfl (bounded_ask rfl fun sign => ?_)
    split
    · exact bounded_act rfl hexpression
    · exact hexpression
  · exact (bounded_separated (bounded_caseValue hn)).bind fun _ => trivial

theorem bounded_instructionArguments (instruction : TokenKind) (least most : Nat)
    (hn : b.other + b.expression k ≤ n) :
    (instructionArguments instruction least most).Bounded b k n n := by
  refine bounded_ifOnLine ((bounded_argumentList hn).bind fun args => ?_) (bounded_act rfl trivial)
  dsimp only
  split
  · trivial
  · exact bounded_act rfl trivial

theorem bounded_scanArguments (instruction : TokenKind) (least most : Nat)
    (hn : b.other + b.expression k ≤ n) :
    (scanArguments instruction least most).Bounded b k n n := by
  refine bounded_measured ((bounded_instructionArguments _ _ _ hn).bind fun args => ?_)
  unfold checkScanUnits
  split
  · split
    · trivial
    · exact bounded_report
  · trivial

/-- The end of an instruction whose arguments parentheses may enclose. -/
theorem bounded_enclosedEnd (enclosed : Bool) (hn : b.other ≤ n) :
    (do if enclosed then want .rParen
        lineEnd).Bounded b k n n := by
  have hend : lineEnd.Bounded b k n n := bounded_lineEnd hn
  split
  · exact (bounded_want _).bind fun _ => hend
  · exact hend

end Parts

/-! ### Blocks -/

section Blocks

variable (hexpression : 3 * b.other + b.expression (k + 1) ≤ n)
  (hbody : b.other + b.nesting + b.statement k ≤ n)

include hbody in
theorem bounded_tail (opener kind : TokenKind) :
    (blockTail opener kind).Bounded b (k + 1) n n :=
  bounded_blockTail (by omega) (by omega)

include hbody in
theorem bounded_oneLineBranches : oneLineBranches.Bounded b (k + 1) n n := by
  refine (bounded_inlineBody (by omega)).bind fun _ => bounded_ifOnLine ?_ trivial
  refine bounded_node (i := n - b.other) rfl (by omega) (bounded_act rfl ?_)
  exact bounded_inlineBody (by omega)

include hexpression hbody

/-- A part of a block that is a node of its own, with a line and a body. -/
theorem bounded_clause {kind : NodeKind} {stops : List TokenKind} {x : Script Unit}
    (hkind : b.cost kind = b.other)
    (hx : x.Bounded b (k + 1) (n - b.other) (n - b.other)) :
    (node kind (do x; lineEnd; blockBody stops)).Bounded b (k + 1) n n := by
  refine bounded_node (i := n - b.other) hkind (by omega) (hx.bind fun _ => ?_)
  exact (bounded_lineEnd (by omega)).bind fun _ => bounded_blockBody (by omega)

/-- What is left of a block after its line, where other branches may follow its body. -/
theorem bounded_branches {stops stops' : List TokenKind} {branch : Script (Option Unit)}
    {other kindOfEnd opener : TokenKind} {kind : NodeKind} (hkind : b.cost kind = b.other)
    (hbranch : branch.Bounded b (k + 1) n n) :
    (do
      lineEnd
      blockBody stops
      let _ ← collect branch
      if (← current) == some other then
        node kind do
          take
          lineEnd
          blockBody stops'
      blockEnd kindOfEnd opener : Script Unit).Bounded b (k + 1) n n := by
  have hend : (blockEnd kindOfEnd opener).Bounded b (k + 1) n n := bounded_blockEnd (by omega)
  refine (bounded_lineEnd (by omega)).bind fun _ => (bounded_blockBody (by omega)).bind fun _ => ?_
  refine Bounded.bind (bounded_collect hbranch) fun _ => bounded_ask rfl fun found => ?_
  split
  · exact (bounded_clause hexpression hbody hkind bounded_take).bind fun _ => hend
  · exact hend

theorem bounded_elseIfBranch : elseIfBranch.Bounded b (k + 1) n n := by
  have hcondition : condition.Bounded b (k + 1) (n - b.other) (n - b.other) :=
    bounded_condition (by omega)
  apply bounded_ask rfl
  intro found
  split
  · refine (bounded_clause (x := do take; condition) hexpression hbody rfl ?_).bind fun _ => trivial
    exact bounded_act rfl hcondition
  · refine bounded_ask rfl fun second => ?_
    split
    · refine (bounded_clause (x := do take; take; condition) hexpression hbody rfl ?_).bind
        fun _ => trivial
      exact bounded_act rfl (bounded_act rfl hcondition)
    · trivial
  · trivial

theorem bounded_blockBranches : blockBranches.Bounded b (k + 1) n n :=
  bounded_branches hexpression hbody rfl (bounded_elseIfBranch hexpression hbody)

theorem bounded_directiveElseIf : directiveElseIf.Bounded b (k + 1) n n := by
  apply bounded_ask rfl
  intro found
  split
  · refine (bounded_clause (x := do take; directiveCondition) hexpression hbody rfl ?_).bind
      fun _ => trivial
    exact bounded_act rfl (bounded_directiveCondition (by omega))
  · trivial

theorem bounded_directiveBranches (opener : TokenKind) :
    (directiveBranches opener).Bounded b (k + 1) n n :=
  bounded_branches hexpression hbody rfl (bounded_directiveElseIf hexpression hbody)

theorem bounded_caseOrSkipped : caseOrSkipped.Bounded b (k + 1) n n := by
  apply bounded_ask rfl
  intro found
  split
  · trivial
  · trivial
  · refine (bounded_clause (x := do take; caseSelector) hexpression hbody rfl ?_).bind
      fun _ => trivial
    exact bounded_act rfl (bounded_caseSelector (by omega))
  · refine bounded_ask rfl fun stop => ?_
    split
    · trivial
    · exact bounded_act rfl ((bounded_skipWords (by omega)).bind fun _ => trivial)

end Blocks

/-! ### Statements -/

section Statements

/-- A node that is a statement. -/
theorem bounded_form {kind : NodeKind} {x : Script α} (hkind : b.cost kind = b.other)
    (h : x.Bounded b k n n) : (node kind x).Bounded b k (b.other + n) (b.other + n) :=
  bounded_node hkind (Nat.le_refl _) h

variable (hexpression : 3 * b.other + b.expression (k + 1) ≤ n)
  (hbody : b.other + b.nesting + b.statement k ≤ n)

section Lines

include hexpression

theorem bounded_variableDeclaration :
    variableDeclaration.Bounded b (k + 1) (b.other + n) (b.other + n) := by
  refine bounded_form rfl (bounded_act rfl ?_)
  refine (bounded_separated (bounded_declarator (by omega))).bind fun _ => ?_
  exact bounded_lineEnd (by omega)

theorem bounded_constantDeclaration :
    constantDeclaration.Bounded b (k + 1) (b.other + n) (b.other + n) := by
  have hend : lineEnd.Bounded b (k + 1) n n := bounded_lineEnd (by omega)
  refine bounded_form rfl (bounded_act rfl ((bounded_namedIdentifier (by omega)).bind fun _ => ?_))
  refine (bounded_asType (by omega)).bind fun _ => bounded_expectThen ?_ hend
  exact (bounded_expression (by omega)).bind fun _ => hend

theorem bounded_aliasDeclaration :
    aliasDeclaration.Bounded b (k + 1) (b.other + n) (b.other + n) := by
  have hend : lineEnd.Bounded b (k + 1) n n := bounded_lineEnd (by omega)
  have hname : nameReference.Bounded b (k + 1) n n := bounded_nameReference (by omega)
  refine bounded_form rfl (bounded_act rfl ((bounded_named hname).bind fun _ => ?_))
  exact bounded_expectThen ((bounded_namedIdentifier (by omega)).bind fun _ => hend) hend

theorem bounded_unitsDeclaration :
    unitsDeclaration.Bounded b (k + 1) (b.other + n) (b.other + n) := by
  have hend : lineEnd.Bounded b (k + 1) n n := bounded_lineEnd (by omega)
  have hname : nameReference.Bounded b (k + 1) n n := bounded_nameReference (by omega)
  refine bounded_form rfl (bounded_act rfl ((bounded_named hname).bind fun _ => ?_))
  exact bounded_expectThen (bounded_eatThen hend (bounded_report.bind fun _ => hend)) hend

theorem bounded_directiveUndefine :
    directiveUndefine.Bounded b (k + 1) (b.other + n) (b.other + n) := by
  refine bounded_form rfl (bounded_act rfl ((bounded_namedIdentifier (by omega)).bind fun _ => ?_))
  exact bounded_lineEnd (by omega)

theorem bounded_inclusion : inclusion.Bounded b (k + 1) (b.other + n) (b.other + n) := by
  have hend : lineEnd.Bounded b (k + 1) n n := bounded_lineEnd (by omega)
  refine bounded_form rfl (bounded_act rfl (bounded_ifOnLine ?_ (bounded_act rfl ?_)))
  · exact (bounded_expression (by omega)).bind fun _ => hend
  · exact (bounded_errorLine (by omega)).bind fun _ => hend

theorem bounded_menuItem : menuItem.Bounded b (k + 1) (b.other + n) (b.other + n) := by
  refine bounded_form rfl (bounded_act rfl ((bounded_eat _).bind fun enclosed => ?_))
  have hend : (do
      let _ ← eat .comma
      named .menuItemVariable nameReference
      if enclosed then want .rParen
      lineEnd : Script Unit).Bounded b (k + 1) n n := by
    refine (bounded_eat _).bind fun _ => ?_
    refine (bounded_named (bounded_nameReference (by omega))).bind fun _ => ?_
    exact bounded_enclosedEnd enclosed (by omega)
  refine bounded_ifOnLine ?_ (bounded_report.bind fun _ => hend)
  exact (bounded_expression (by omega)).bind fun _ => hend

theorem bounded_callTable : callTable.Bounded b (k + 1) (b.other + n) (b.other + n) := by
  refine bounded_form rfl (bounded_act rfl ((bounded_eat _).bind fun enclosed => ?_))
  refine (bounded_namedIdentifier (by omega)).bind fun _ => ?_
  exact bounded_enclosedEnd enclosed (by omega)

theorem bounded_assignmentStatement :
    assignmentStatement.Bounded b (k + 1) (b.other + n) (b.other + n) := by
  have hvalue : (do expression; lineEnd : Script Unit).Bounded b (k + 1) n n :=
    (bounded_expression (by omega)).bind fun _ => bounded_lineEnd (by omega)
  refine bounded_form rfl ((bounded_nameReference (by omega)).bind fun _ => ?_)
  refine bounded_ask rfl fun found => ?_
  split
  · exact bounded_act rfl hvalue
  · exact bounded_act rfl hvalue

theorem bounded_assignmentOrInstruction :
    assignmentOrInstruction.Bounded b (k + 1) (b.other + n) (b.other + n) := by
  apply bounded_ask rfl
  intro assigns
  split
  · exact bounded_assignmentStatement hexpression
  · refine bounded_afterIdentifier (by omega) fun _ => ?_
    have hcall : (do if (← onLine) == some .lParen then arguments : Script Unit).Bounded b (k + 1)
        (b.other + b.expression (k + 1)) (b.other + b.expression (k + 1)) :=
      bounded_ifOnLine (bounded_arguments (Nat.le_refl _)) trivial
    refine (bounded_call (n := b.other + n) (by omega) hcall).bind_of_le (by omega) fun _ => ?_
    exact bounded_lineEnd (by omega)

theorem bounded_returnStatement :
    returnStatement.Bounded b (k + 1) (b.other + n) (b.other + n) := by
  have hend : lineEnd.Bounded b (k + 1) n n := bounded_lineEnd (by omega)
  refine bounded_form rfl (bounded_act rfl (bounded_ask rfl fun found => ?_))
  split
  · exact (bounded_expression (by omega)).bind fun _ => hend
  · exact hend

theorem bounded_exitStatement :
    exitStatement.Bounded b (k + 1) (b.other + n) (b.other + n) := by
  have hend : lineEnd.Bounded b (k + 1) n n := bounded_lineEnd (by omega)
  refine bounded_form rfl (bounded_act rfl (bounded_ask rfl fun found => ?_))
  split
  · exact bounded_act rfl hend
  · exact bounded_act rfl hend

theorem bounded_callStatement :
    callStatement.Bounded b (k + 1) (b.other + n) (b.other + n) := by
  have hname : nameReference.Bounded b (k + 1) n n := bounded_nameReference (by omega)
  refine bounded_form rfl (bounded_act rfl ((bounded_named hname).bind fun _ => ?_))
  exact bounded_lineEnd (by omega)

end Lines

theorem bounded_unexpectedWord (found : TokenKind) :
    (unexpectedWord found).Bounded b k (b.other + n) (b.other + n) := by
  have hskip : skipWords.Bounded b k (b.other + n) (b.other + n) :=
    bounded_skipWords (Nat.le_add_right _ _)
  unfold unexpectedWord
  split
  · exact hskip
  · exact bounded_act rfl hskip

include hbody in
/-- A block with a line of its own and a body, which no other branch follows. -/
theorem bounded_block {kind : NodeKind} {opener kindOfEnd : TokenKind} {x : Script Unit}
    (hkind : b.cost kind = b.other) (hx : x.Bounded b (k + 1) n n) :
    (node kind (do x; blockTail opener kindOfEnd)).Bounded b (k + 1) (b.other + n)
      (b.other + n) :=
  bounded_form hkind (hx.bind fun _ => bounded_tail hbody _ _)

include hexpression hbody

theorem bounded_ifStatement (hif : b.oneLineIf = true) :
    ifStatement.Bounded b (k + 1) (b.other + n) (b.other + n) := by
  refine bounded_form rfl (bounded_act rfl ((bounded_condition (by omega)).bind fun _ => ?_))
  refine bounded_ask hif fun single => bounded_statementEnds.bind fun ends => ?_
  split
  · exact bounded_oneLineBranches hbody
  · exact bounded_blockBranches hexpression hbody

theorem bounded_argumentsBlock {kind : NodeKind} {opener kindOfEnd : TokenKind}
    (hkind : b.cost kind = b.other) :
    (node kind do
      take
      if (← onLine) == some .lParen then arguments
      blockTail opener kindOfEnd).Bounded b (k + 1) (b.other + n) (b.other + n) := by
  have htail : (blockTail opener kindOfEnd).Bounded b (k + 1) n n := bounded_tail hbody _ _
  refine bounded_form hkind (bounded_act rfl (bounded_ifOnLine ?_ htail))
  exact (bounded_arguments (by omega)).bind fun _ => htail

theorem bounded_forLoop : forLoop.Bounded b (k + 1) (b.other + n) (b.other + n) := by
  have hend : lineEnd.Bounded b (k + 1) n n := bounded_lineEnd (by omega)
  refine bounded_form rfl (bounded_act rfl ((bounded_loopVariable (by omega)).bind fun name? => ?_))
  refine (bounded_loopBounds (by omega)).bind fun _ => hend.bind fun _ => ?_
  refine (bounded_blockBody (by omega)).bind fun _ => bounded_terminatorThen ?_
  exact (bounded_closingVariable name? (by omega)).bind fun _ => hend

theorem bounded_doLoop : doLoop.Bounded b (k + 1) (b.other + n) (b.other + n) := by
  have hend : lineEnd.Bounded b (k + 1) n n := bounded_lineEnd (by omega)
  have hcondition : loopCondition.Bounded b (k + 1) n n := bounded_loopCondition (by omega)
  refine bounded_form rfl (bounded_act rfl (hcondition.bind fun _ => hend.bind fun _ => ?_))
  refine (bounded_blockBody (by omega)).bind fun _ => bounded_terminatorThen ?_
  exact hcondition.bind fun _ => hend

theorem bounded_selectStatement :
    selectStatement.Bounded b (k + 1) (b.other + n) (b.other + n) := by
  refine bounded_form rfl (bounded_act rfl ((bounded_want _).bind fun _ => ?_))
  refine (bounded_expression (by omega)).bind fun _ => (bounded_lineEnd (by omega)).bind fun _ => ?_
  refine Bounded.bind (bounded_collect (bounded_caseOrSkipped hexpression hbody)) fun _ => ?_
  exact bounded_blockEnd (by omega)

theorem bounded_functionDeclaration :
    functionDeclaration.Bounded b (k + 1) (b.other + n) (b.other + n) := by
  refine bounded_form rfl (bounded_act rfl ((bounded_procedureHeader (by omega)).bind fun _ => ?_))
  exact (bounded_asType (by omega)).bind fun _ => bounded_tail hbody _ _

theorem bounded_directiveIf : directiveIf.Bounded b (k + 1) (b.other + n) (b.other + n) := by
  refine bounded_form rfl (bounded_act rfl ((bounded_directiveCondition (by omega)).bind fun _ => ?_))
  exact bounded_directiveBranches hexpression hbody _

theorem bounded_directiveIfDefined :
    directiveIfDefined.Bounded b (k + 1) (b.other + n) (b.other + n) := by
  refine bounded_form rfl (bounded_act rfl ((bounded_namedIdentifier (by omega)).bind fun _ => ?_))
  exact bounded_directiveBranches hexpression hbody _

theorem bounded_dataTable : dataTable.Bounded b (k + 1) (b.other + n) (b.other + n) := by
  refine bounded_form rfl (bounded_act rfl (Bounded.bind (bounded_measured ?_) fun _ => ?_))
  · exact (bounded_instructionArguments _ _ _ (by omega)).bind fun _ => trivial
  · exact bounded_tail hbody _ _

/-- A statement in the budget, given that an `If` may ask for the options if it is one. -/
theorem bounded_statementOf (found : TokenKind) (hif : found = .kwIf → b.oneLineIf = true) :
    (statementOf found).Bounded b (k + 1) (b.other + n) (b.other + n) := by
  have hscan {opener : TokenKind} {least most : Nat} :
      (do take; scanArguments opener least most : Script Unit).Bounded b (k + 1) n n :=
    bounded_act rfl (bounded_scanArguments _ _ _ (by omega))
  unfold statementOf
  split
  · exact bounded_block hbody rfl bounded_take
  · exact bounded_functionDeclaration hexpression hbody
  · exact bounded_block (x := do take; procedureHeader .subroutineName) hbody rfl
      (bounded_act rfl (bounded_procedureHeader (by omega)))
  · exact bounded_ifStatement hexpression hbody (hif rfl)
  · exact bounded_forLoop hexpression hbody
  · exact bounded_block (x := do take; expression) hbody rfl
      (bounded_act rfl (bounded_expression (by omega)))
  · exact bounded_doLoop hexpression hbody
  · exact bounded_selectStatement hexpression hbody
  · exact bounded_block (x := do take; scanArguments .kwScan 4 4) hbody rfl hscan
  · exact bounded_block (x := do take; scanArguments .kwSubScan 2 3) hbody rfl hscan
  · exact bounded_block hbody rfl bounded_take
  · exact bounded_argumentsBlock hexpression hbody rfl
  · exact bounded_argumentsBlock hexpression hbody rfl
  · exact bounded_menuItem hexpression
  · exact bounded_dataTable hexpression hbody
  · exact bounded_callTable hexpression
  · exact bounded_variableDeclaration hexpression
  · exact bounded_variableDeclaration hexpression
  · exact bounded_constantDeclaration hexpression
  · exact bounded_argumentsBlock hexpression hbody rfl
  · exact bounded_aliasDeclaration hexpression
  · exact bounded_unitsDeclaration hexpression
  · exact bounded_returnStatement hexpression
  · exact bounded_exitStatement hexpression
  · exact bounded_callStatement hexpression
  · exact bounded_directiveIf hexpression hbody
  · exact bounded_directiveIfDefined hexpression hbody
  · exact bounded_directiveUndefine hexpression
  · exact bounded_inclusion hexpression
  · exact bounded_assignmentOrInstruction hexpression
  · exact bounded_unexpectedWord _

end Statements

end Grammar

end CRBasic
