import CRBasic.Proofs.Blocks.Lines
import CRBasic.Proofs.Grammar.Forms

/-!
# Heads lay down no blocks

Statements of one line lay down no block, and neither do the lines that open blocks and end them
(`lays_head`, `lays_closing`).
-/

namespace CRBasic

namespace Grammar

open Parsing Parsing.Script Draft

variable {fuel : Nat} {K kind : NodeKind} {blamed : Bool} {α : Type} {o : Option TokenKind}
  {k : TokenKind} {x y : Script Unit}

/-- One of the parts is an expression. -/
def HasExpression (ps : List (Piece Draft)) : Prop := ∃ d, .node d ∈ ps ∧ Expr.isForm d.kind

theorem lays_expression : Lays fuel K blamed o expression fun _ ps => IsExpression ps :=
  expressions fuel 0

theorem lays_eatThen (hk : k.isTerminator = false) (hx : Lays fuel K blamed none x Free)
    (hy : Lays fuel K blamed none y Free) :
    Lays fuel K blamed o (do if ← eat k then x else y) Free := by
  refine lays_seq (lays_eat hk) fun c => ?_
  split
  · exact hx
  · exact hy

theorem lays_expectThen (hk : k.isTerminator = false) (hx : Lays fuel K blamed none x Free)
    (hy : Lays fuel K blamed none y Free) :
    Lays fuel K blamed o (do if ← expect k then x else y) Free := by
  refine lays_seq (lays_expect hk) fun c => ?_
  split
  · exact hx
  · exact hy

/-- A branch on a property of the next word on the line. -/
theorem lays_ifAny {p : TokenKind → Bool} (hp : ∀ k, p k → k.isTerminator = false)
    (hx : ∀ k, k.isTerminator = false → Lays fuel K blamed (some k) x Free)
    (hy : Lays fuel K blamed none y Free) :
    Lays fuel K blamed o (do if (← onLine).any p then x else y) Free := by
  refine lays_onLine fun o => ?_
  split
  · next ho =>
    obtain ⟨k, rfl, hk⟩ := (Option.any_eq_true p o).1 ho
    exact hx k (hp k hk)
  · exact hy.forget

/-! ### Declarations -/

theorem lays_typeReference : Lays fuel K blamed (some .kwAs) typeReference Free := by
  refine lays_node rfl nofun (Q := Free) (lays_seq (lays_take rfl) fun _ => lays_named ?_)
    fun _ _ _ => trivial
  exact lays_seq (lays_take rfl) fun _ =>
    lays_eatThen rfl lays_expression.free (lays_pure trivial)

theorem lays_typeAnnotation : Lays fuel K blamed o typeAnnotation Free :=
  lays_ifOnLine lays_typeReference (lays_pure trivial)

theorem lays_parenthesized {item : Script α} (hends : kind.ends? = none) (hlist : kind ≠ .stmtList)
    (hfits : ∀ ps, EndsInParen ps → kind.Fits ps) (h : Lays fuel kind blamed none item Free) :
    Lays fuel K blamed (some .lParen) (parenthesized kind item) Free := by
  refine lays_node hends hlist (lays_thenParen (lays_take rfl) fun _ => lays_onLine fun o => ?_)
    fun _ ps => hfits ps
  split
  · exact lays_wantParen
  · exact lays_thenParen (lays_separated h) fun _ => lays_wantParen

theorem lays_declarator : Lays fuel K blamed o declarator Free := by
  refine lays_node rfl nofun (Q := Free) (lays_named ?_) fun _ _ _ => trivial
  refine lays_seq lays_identifier fun _ => lays_ifOnLine ?_ lays_typeAnnotation
  exact lays_seq (lays_parenthesized rfl nofun (fun _ h => h) lays_expression.free) fun _ =>
    lays_typeAnnotation

theorem lays_variableDeclaration (hk : k.isTerminator = false) :
    Lays fuel K blamed (some k) variableDeclaration Free :=
  lays_node rfl nofun (Q := Free) (lays_seq (lays_take hk) fun _ =>
    lays_seq (lays_separated lays_declarator) fun _ => lays_lineEnd) fun _ _ _ => trivial

theorem lays_namedIdentifier {part : Part} : Lays fuel K blamed o (named part identifier) Free :=
  lays_named lays_identifier

theorem lays_namedReference {part : Part} : Lays fuel K blamed o (named part nameReference) Free :=
  lays_named (lays_nameReference (expressions fuel)).free

theorem lays_constantDeclaration : Lays fuel K blamed (some .kwConst) constantDeclaration Free := by
  refine lays_node rfl nofun (Q := Free) (lays_seq (lays_take rfl) fun _ =>
    lays_seq lays_namedIdentifier fun _ => lays_seq lays_typeAnnotation fun _ => ?_) fun _ _ _ => trivial
  exact lays_expectThen rfl (lays_seq lays_expression fun _ => lays_lineEnd) lays_lineEnd

theorem lays_aliasDeclaration : Lays fuel K blamed (some .kwAlias) aliasDeclaration Free := by
  refine lays_node rfl nofun (Q := Free) (lays_seq (lays_take rfl) fun _ =>
    lays_seq lays_namedReference fun _ => ?_) fun _ _ _ => trivial
  exact lays_expectThen rfl (lays_seq lays_namedIdentifier fun _ => lays_lineEnd) lays_lineEnd

theorem lays_unitsDeclaration : Lays fuel K blamed (some .kwUnits) unitsDeclaration Free := by
  refine lays_node rfl nofun (Q := Free) (lays_seq (lays_take rfl) fun _ =>
    lays_seq lays_namedReference fun _ => ?_) fun _ _ _ => trivial
  refine lays_expectThen rfl ?_ lays_lineEnd
  exact lays_eatThen rfl lays_lineEnd (lays_report_bind rfl lays_lineEnd)

theorem lays_parameter : Lays fuel K blamed o parameter Free := by
  refine lays_node rfl nofun (Q := Free) (lays_onLine fun o => ?_) fun _ _ _ => trivial
  split
  · refine lays_seq lays_identifier fun _ => lays_eatThen rfl ?_ lays_typeAnnotation
    exact lays_seq (lays_want rfl) fun _ => lays_typeAnnotation
  · refine lays_report_bind rfl ?_
    split
    · exact lays_pure trivial
    · exact lays_pure trivial
    · exact lays_pure trivial
    · exact lays_errorNode skips_take (.inl rfl)

theorem lays_parameterList : Lays fuel K blamed (some .lParen) parameterList Free :=
  lays_parenthesized rfl nofun (fun _ h => h) lays_parameter

/-! ### Heads of blocks -/

theorem lays_procedureHeader {part : Part} : Lays fuel K blamed o (procedureHeader part) Free :=
  lays_seq lays_namedIdentifier fun _ => lays_ifOnLine lays_parameterList (lays_pure trivial)

/-- A condition puts an expression, if there is no problem. -/
theorem lays_condition : Lays fuel K blamed o condition fun _ ps => HasExpression ps := by
  refine lays_bind lays_expression fun _ => (lays_want rfl).mono ?_
  rintro _ _ - _ ⟨d, rfl, hd⟩
  exact ⟨d, List.mem_cons_self, hd⟩

theorem lays_loopVariable : Lays fuel K blamed o loopVariable Free := by
  refine lays_ifOnLine (lays_ask fun name => ?_) (lays_report_bind rfl (lays_pure trivial))
  exact lays_seq (lays_nameReference (expressions fuel)) fun _ => lays_pure trivial

theorem lays_loopBounds : Lays fuel K blamed o loopBounds Free := by
  refine lays_expectThen rfl (lays_seq lays_expression fun _ => ?_) (lays_pure trivial)
  refine lays_expectThen rfl (lays_seq lays_expression fun _ => ?_) (lays_pure trivial)
  exact lays_eatThen rfl lays_expression.free (lays_pure trivial)

theorem lays_loopCondition : Lays fuel K blamed o loopCondition Free := by
  refine lays_onLine fun o => ?_
  split
  · exact lays_seq (lays_take rfl) fun _ => lays_expression.free
  · exact lays_seq (lays_take rfl) fun _ => lays_expression.free
  · exact lays_pure trivial

theorem lays_closingVariable (name? : Option (List Char)) :
    Lays fuel K blamed o (closingVariable name?) Free := by
  refine lays_ifOnLine (lays_measured (lays_ask fun closing => ?_)) (lays_pure trivial)
  refine lays_seq (lays_nameReference (expressions fuel)) fun _ => ?_
  split
  · exact lays_pure trivial
  · split
    · exact lays_pure trivial
    · exact lays_report rfl

theorem lays_instructionArguments {instruction : TokenKind} {least most : Nat} :
    Lays fuel K blamed o (instructionArguments instruction least most) Free := by
  refine lays_ifOnLine (lays_seq (lays_argumentList (expressions fuel)) fun args => ?_) ?_
  · dsimp only
    split
    · exact lays_pure trivial
    · exact lays_report_bind rfl (lays_pure trivial)
  · exact lays_report_bind rfl (lays_pure trivial)

theorem lays_checkScanUnits (args : List Argument) :
    Lays fuel K blamed o (checkScanUnits args) Free := by
  unfold checkScanUnits
  split
  · split
    · exact lays_pure trivial
    · exact lays_report rfl
  · exact lays_pure trivial

theorem lays_scanArguments {instruction : TokenKind} {least most : Nat} :
    Lays fuel K blamed o (scanArguments instruction least most) Free :=
  lays_measured (lays_seq lays_instructionArguments lays_checkScanUnits)

theorem lays_optionalArguments : Lays fuel K blamed o BlockForm.optionalArguments Free :=
  lays_ifOnLine (lays_arguments (expressions fuel)) (lays_pure trivial)

/-- What follows the word that opens a block on its line. -/
theorem lays_head (form : BlockForm) : Lays fuel K blamed o form.head Free := by
  have hdone {o : Option TokenKind} {x : Script Unit} (hx : Lays fuel K blamed o x Free) :
      Lays fuel K blamed o (do x; return none : Script (Option (List Char))) Free :=
    lays_seq hx fun _ => lays_pure trivial
  cases form with
  | program => exact lays_pure trivial
  | slowSequence => exact lays_pure trivial
  | function => exact lays_seq lays_procedureHeader fun _ => hdone lays_typeAnnotation
  | subroutine => exact hdone lays_procedureHeader
  | forLoop =>
    exact lays_seq lays_loopVariable fun _ => lays_seq lays_loopBounds fun _ => lays_pure trivial
  | whileLoop => exact hdone lays_expression.free
  | doLoop => exact hdone lays_loopCondition
  | scan => exact hdone lays_scanArguments
  | subScan => exact hdone lays_scanArguments
  | displayMenu => exact hdone lays_optionalArguments
  | subMenu => exact hdone lays_optionalArguments
  | constantTable => exact hdone lays_optionalArguments
  | dataTable =>
    exact hdone (lays_measured (lays_seq lays_instructionArguments fun _ => lays_pure trivial))

/-- What may follow the word that ends a block. -/
theorem lays_closing (form : BlockForm) (name? : Option (List Char)) :
    Lays fuel K blamed o (form.closing name?) Free := by
  cases form with
  | forLoop => exact lays_closingVariable name?
  | doLoop => exact lays_loopCondition
  | _ => exact lays_pure trivial

theorem lays_caseValue : Lays fuel K blamed o caseValue Free :=
  lays_seq lays_expression fun _ => lays_eatThen rfl lays_expression.free (lays_pure trivial)

theorem lays_caseSelector : Lays fuel K blamed o caseSelector Free := by
  refine lays_onLine fun o => ?_
  split
  · exact (lays_take rfl).free
  · refine lays_seq (lays_take rfl) fun _ => lays_ifAny ?_ ?_ lays_expression.free
    · intro k hk
      cases k <;> first | rfl | cases hk
    · exact fun k hk => lays_seq (lays_take hk) fun _ => lays_expression.free
  · exact lays_seq (lays_separated lays_caseValue) fun _ => lays_pure trivial

theorem lays_directiveCondition : Lays fuel K blamed o directiveCondition Free :=
  lays_seq lays_expression fun _ => lays_seq (lays_eat rfl) fun _ => lays_pure trivial

/-! ### Statements of one line -/

theorem lays_directiveUndefine : Lays fuel K blamed (some .ppUndef) directiveUndefine Free :=
  lays_node rfl nofun (Q := Free) (lays_seq (lays_take rfl) fun _ =>
    lays_seq lays_namedIdentifier fun _ => lays_lineEnd) fun _ _ _ => trivial

theorem lays_inclusion : Lays fuel K blamed (some .kwInclude) inclusion Free := by
  refine lays_node rfl nofun (Q := Free) (lays_seq (lays_take rfl) fun _ => ?_) fun _ _ _ => trivial
  refine lays_ifOnLine (lays_seq lays_expression fun _ => lays_lineEnd) (lays_report_bind rfl ?_)
  exact lays_seq (lays_errorNode (Q := Free) skips_takeLine (.inl rfl)) fun _ => lays_lineEnd

/-- The end of an instruction whose arguments parentheses may enclose. -/
theorem lays_enclosedEnd (enclosed : Bool) : Lays fuel K blamed o
    (do if enclosed then want .rParen
        lineEnd) Free := by
  cases enclosed with
  | false => exact lays_lineEnd
  | true => exact lays_seq (lays_want rfl) fun _ => lays_lineEnd

theorem lays_menuItem : Lays fuel K blamed (some .kwMenuItem) menuItem Free := by
  refine lays_node rfl nofun (Q := Free) (lays_seq (lays_take rfl) fun _ =>
    lays_seq (lays_eat rfl) fun enclosed => ?_) fun _ _ _ => trivial
  have hend {blamed : Bool} : Lays fuel .menuItem blamed none
      (do let _ ← eat .comma
          named .menuItemVariable nameReference
          if enclosed then want .rParen
          lineEnd) Free :=
    lays_seq (lays_eat rfl) fun _ => lays_seq lays_namedReference fun _ => lays_enclosedEnd enclosed
  exact lays_ifOnLine (lays_seq lays_expression fun _ => hend) (lays_report_bind rfl hend)

theorem lays_callTable : Lays fuel K blamed (some .kwCallTable) callTable Free :=
  lays_node rfl nofun (Q := Free) (lays_seq (lays_take rfl) fun _ => lays_seq (lays_eat rfl) fun enclosed =>
    lays_seq lays_namedIdentifier fun _ => lays_enclosedEnd enclosed) fun _ _ _ => trivial

theorem lays_assignmentStatement : Lays fuel K blamed (some .ident) assignmentStatement Free := by
  have hvalue {o : Option TokenKind} {blamed : Bool} :
      Lays fuel .assignment blamed o (do expression; lineEnd) Free :=
    lays_seq lays_expression fun _ => lays_lineEnd
  refine lays_node rfl nofun (Q := Free) (lays_seq (lays_nameReference (expressions fuel)) fun _ => ?_)
    fun _ _ _ => trivial
  refine lays_ifAny (fun k hk => ?_) (fun k hk => ?_) (lays_report_bind rfl hvalue)
  · cases k <;> first | rfl | cases hk
  · exact lays_seq (lays_take hk) fun _ => hvalue

theorem lays_instruction : Lays fuel K blamed (some .ident) instruction Free := by
  have hcall : LaysOperand fuel K blamed (some .ident)
      (do identifier; wrap .functionCall BlockForm.optionalArguments) := by
    intro s _ u hrun ho
    obtain ⟨_, t, ht, hrun⟩ := run_bind_iff.1 hrun
    exact laidOperand_call ho ht lays_optionalArguments (knows_none _) hrun
  rw [instruction, ← LawfulMonad.bind_assoc]
  exact lays_seq hcall.lays fun _ => lays_lineEnd

theorem lays_assignmentOrInstruction :
    Lays fuel K blamed (some .ident) assignmentOrInstruction Free := by
  refine lays_ask fun c => ?_
  split
  · exact lays_assignmentStatement
  · exact lays_instruction

theorem lays_returnStatement : Lays fuel K blamed (some .kwReturn) returnStatement Free := by
  refine lays_node rfl nofun (Q := Free) (lays_seq (lays_take rfl) fun _ => lays_onLine fun o => ?_)
    fun _ _ _ => trivial
  split
  · exact lays_seq lays_expression fun _ => lays_lineEnd
  · exact lays_lineEnd

theorem lays_exitStatement : Lays fuel K blamed (some .kwExit) exitStatement Free := by
  refine lays_node rfl nofun (Q := Free) (lays_seq (lays_take rfl) fun _ => ?_) fun _ _ _ => trivial
  refine lays_ifAny (fun k hk => ?_) (fun k hk => ?_) (lays_report_bind rfl lays_lineEnd)
  · cases k <;> first | rfl | cases hk
  · exact lays_seq (lays_take hk) fun _ => lays_lineEnd

theorem lays_callStatement : Lays fuel K blamed (some .kwCall) callStatement Free :=
  lays_node rfl nofun (Q := Free) (lays_seq (lays_take rfl) fun _ =>
    lays_seq lays_namedReference fun _ => lays_lineEnd) fun _ _ _ => trivial

theorem lays_unexpectedWord (k : TokenKind) : Lays fuel K blamed (some k) (unexpectedWord k) Free := by
  rw [unexpectedWord]
  split
  · next hk =>
    obtain rfl : k = .error := by simpa using hk
    exact lays_skipWords (.inr rfl)
  · exact lays_report_bind rfl (lays_skipWords (.inl rfl))

end Grammar

end CRBasic
