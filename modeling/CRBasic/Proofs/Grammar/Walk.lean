import CRBasic.Proofs.Grammar.Modes

/-!
# Lines, expressions and declarations by rules

What the rules for lines say of the shared parts of statements, of expressions and of declarations.
-/

namespace CRBasic

namespace Grammar

open Parsing Parsing.Script

/-! ### Single steps -/

section Steps

variable {J : Judgement} (h : StepRules J) {α : Type} {st : Stage} {m m' m'' : Mode} {l b : Bool}
  {k kind : TokenKind}
include h

theorem StepRules.pre {x : Script α} (hm : m'.Le m) (hx : J st m x m'') : J st m' x m'' :=
  h.weaken hm (.refl _) hx

theorem StepRules.post {x : Script α} (hm : m'.Le m'') (hx : J st m x m') : J st m x m'' :=
  h.weaken (.refl _) hm hx

/-- What is judged anywhere on the line is judged at a word that is seen. -/
theorem StepRules.unsee {x : Script α} (hx : J st (.live l b) x m) : J st (.seeing l b k) x m :=
  h.pre (.seen id id) hx

/-- A branch on the kind of the next word on the line. -/
theorem StepRules.ifOnLine {x y : Script α} (hx : J st (.seeing l b kind) x m)
    (hy : J st (.live l b) y m) :
    J st (.live l b) (do if (← Script.onLine) == some kind then x else y) m := by
  refine h.onLine hy fun k => ?_
  split
  · next hk =>
    obtain rfl : k = kind := by simpa using hk
    exact hx
  · exact h.unsee hy

/-- A branch on the end of a statement, once there has been a problem. -/
theorem StepRules.statementEnds {f : Bool → Script α} (hend : J st (.live l true) (f true) m)
    (hmore : ∀ k, J st (.seeing true true k) (f false) m) :
    J st (.live l true) (Grammar.statementEnds >>= f) m := by
  rw [Grammar.statementEnds, LawfulMonad.bind_assoc]
  exact h.onLine hend fun k => h.atStop (h.unsee hend) (hmore k)

theorem StepRules.takeLine : J st (.live true true) Grammar.takeLine (.live true true) := by
  refine h.bind (h.collect ?_) fun _ => h.pure ()
  simp only [LawfulMonad.bind_assoc, pure_bind]
  refine h.statementEnds (h.pure none) fun k => ?_
  exact h.bind (h.take_seeing (.inl rfl)) fun _ => h.pure (some ())

end Steps

section Lines

variable {J : Judgement} (h : LineRules J) {α β : Type} {st : Stage} {m m' m'' : Mode}
  {l l' b s : Bool} {k kind : TokenKind}
include h

/-! ### Single words -/

/-- What follows the try to take a word.  A word that may end a block is tried only where problems are
not passed over. -/
theorem walk_eatThen {f : Bool → Script α} (hk : l = true ∨ kind.closes = false)
    (htrue : J st (.live true b) (f true) m) (hfalse : J st (.live l b) (f false) m) :
    J st (.live l b) (eat kind >>= f) m := by
  rw [eat, LawfulMonad.bind_assoc]
  refine h.onLine hfalse fun k => ?_
  split
  · next hkind =>
    obtain rfl : k = kind := by simpa using hkind
    rw [LawfulMonad.bind_assoc]
    exact h.bind (h.take_seeing hk) fun _ => htrue
  · exact h.unsee hfalse

theorem walk_eat (hk : l = true ∨ kind.closes = false) :
    J st (.live l b) (eat kind) (.live l b) := by
  refine h.onLine (h.pure false) fun k => ?_
  split
  · next hkind =>
    obtain rfl : k = kind := by simpa using hkind
    exact h.bind (h.take_seeing hk) fun _ => h.post .loud (h.pure true)
  · exact h.unsee (h.pure false)

theorem walk_report {cause : Cause} (hcause : cause.isRoutine) :
    J st (.live l b) (report .here cause) (.live l b) :=
  h.post .blamed (h.report_live hcause)

theorem walk_expectThen {f : Bool → Script α} (hk : l = true ∨ kind.closes = false)
    (htrue : J st (.live true b) (f true) m) (hfalse : J st (.live l b) (f false) m) :
    J st (.live l b) (expect kind >>= f) m := by
  rw [expect, LawfulMonad.bind_assoc]
  have hmissing : J st (.live l b) (report .here (.missing kind) >>= fun _ => f false) m :=
    h.bind (walk_report h rfl) fun _ => hfalse
  exact walk_eatThen h hk htrue hmissing

theorem walk_want (hk : l = true ∨ kind.closes = false) :
    J st (.live l b) (want kind) (.live l b) := by
  have hexpect : J st (.live l b) (expect kind) (.live l b) :=
    walk_eatThen h hk (h.post .loud (h.pure true))
      (h.bind (walk_report h rfl) fun _ => h.pure false)
  exact h.bind hexpect fun _ => h.pure ()

theorem walk_named {part : Part} {body : Script Unit} (hl : l' → l)
    (hbody : J st (.seeing l b .ident) body (.live l' b)) :
    J st (.live l b) (named part body) (.live l' b) := by
  have hmissing : J st (.live l b) (report .here (.missingPart part)) (.live l b) :=
    walk_report h rfl
  exact h.ifOnLine hbody (h.post (.live hl id) hmissing)

/-- A word in a node of its own. -/
theorem walk_oneWord {kind : NodeKind} (hkind : kind.isRoutine) (hk : l = true ∨ k.closes = false) :
    J st (.seeing l b k) (oneWord kind) (.live true b) :=
  h.node hkind (h.take_seeing hk)

theorem walk_separated {item : Script α} (hitem : J st (.live true b) item (.live false b)) :
    J st (.live true b) (separated item) (.live false b) := by
  refine h.bind hitem fun a => h.bind (h.collect ?_) fun as => h.pure _
  refine walk_eatThen h (.inr rfl) ?_ (h.pure none)
  exact h.bind hitem fun b => h.pure _

/-! ### Ends of lines -/

theorem walk_skipWords : J st (.word s true k) skipWords (.live true true) := by
  refine h.node rfl (h.bind h.take_word fun _ => h.bind (h.collect ?_) fun _ => h.pure ())
  simp only [startsAnotherStatement, LawfulMonad.bind_assoc, pure_bind]
  refine h.statementEnds ?_ fun k => h.current_seeing ?_
  · exact h.idle (fun _ => ⟨true, rfl⟩) (fun o => by cases o <;> rfl) (h.pure none)
  · change J _ _ (if (!(false || (k.startsStatement && k != .ident))) = true then _ else _) _
    split
    · exact h.bind (h.take_seeing (.inl rfl)) fun _ => h.pure (some ())
    · exact h.unsee (h.pure none)

theorem walk_skipDeepStatement : J st (.word s b k) skipDeepStatement (.live true true) :=
  h.bind (h.report_word rfl) fun _ =>
    h.node rfl (h.bind h.take_word fun _ => h.takeLine)

end Lines

/-! ### Expressions -/

section Expressions

variable {J : Judgement} (h : LineRules J) {α β : Type} {st : Stage} {m m' m'' : Mode}
  {l l' b s : Bool} {k kind : TokenKind}
include h

/-- Names start with whatever word is next. -/
theorem walk_identifier (htake : J st.inside m take (.live l b)) :
    J st m identifier (.live l b) := by
  refine h.node rfl (h.bind htake fun _ => h.bind (h.collect ?_) fun _ => h.pure ())
  have hname : J st.inside (.live true b)
      (do if ← eat .ident then return some ()
          else
            report .here (.missingPart .nameAfterDot)
            return none) (.live l b) :=
    h.post (.live (fun _ => rfl) id)
      (walk_eatThen h (.inl rfl) (h.pure _) (h.bind (walk_report h rfl) fun _ => h.pure none))
  exact walk_eatThen h (.inr rfl) hname (h.pure none)

theorem walk_expression : J .inner (.live l b) expression (.live false b) := h.expression 0

/-- An operator that is seen, and the operand behind it. -/
theorem walk_operation {left right : Nat} (hk : k.infixPower? = some (left, right)) :
    J .inner (.seeing l b k) (do take; expressionFrom right) (.live false b) :=
  h.bind (h.take_seeing (.inr (TokenKind.closes_of_infixPower? hk))) fun _ => h.expression right

theorem walk_argument : J .measured (.live true b) argument (.live false b) := by
  have hvalue (first second : Option TokenKind) {start : Edge} : J .measured (.live true b)
      (do
        expression
        let stop ← behind
        return (⟨start, stop, first == some .ident && (second == some .comma || second == some .rParen)⟩
          : Argument)) (.live false b) :=
    h.bind (h.measured_of_inner (walk_expression h)) fun _ => h.behind fun _ => h.pure _
  refine h.here fun start => h.onLine ?_ fun k => ?_
  · exact h.idle nofun (fun _ => rfl) (hvalue none none)
  · exact h.second_seeing fun second => h.unsee (hvalue _ second)

theorem walk_argumentList : J .measured (.seeing true b .lParen) argumentList (.live false b) := by
  have hend (start : Edge) (items : List Argument) : J .measured (.live false b)
      (do want .rParen; let stop ← behind; return (⟨start, stop, items⟩ : Arguments))
      (.live false b) :=
    h.bind (walk_want h (.inr rfl)) fun _ => h.behind fun _ => h.pure _
  refine h.node rfl (h.here fun start => h.bind (h.take_seeing (.inl rfl)) fun _ => ?_)
  refine h.ifOnLine ?_ ?_
  · exact h.bind (h.pure []) fun items => h.unsee (h.pre .quiet (hend start items))
  · exact h.bind (walk_separated h (walk_argument h)) fun items => hend start items

theorem walk_arguments : J .inner (.seeing true b .lParen) arguments (.live false b) :=
  h.measured (h.bind (walk_argumentList h) fun _ => h.pure ())

theorem walk_nameReference (htake : J .inner m take (.live true b)) :
    J .inner m nameReference (.live false b) := by
  refine h.bind (walk_identifier h htake) fun _ => ?_
  exact h.ifOnLine (h.wrap (walk_arguments h)) (h.post .quiet (h.pure ()))

theorem walk_parenthesized {kind : NodeKind} {item : Script α} (hkind : kind.isRoutine)
    (hitem : J .inner (.live true b) item (.live false b)) :
    J .inner (.seeing l b .lParen) (parenthesized kind item) (.live false b) := by
  refine h.node hkind (h.bind (h.take_seeing (.inr rfl)) fun _ => ?_)
  have hclose : J .inner (.live false b) (want .rParen) (.live false b) := walk_want h (.inr rfl)
  refine h.onLine ?_ fun k => ?_
  · exact h.bind (walk_separated h hitem) fun _ => hclose
  · split
    · exact h.unsee (h.pre .quiet hclose)
    · exact h.unsee (h.bind (walk_separated h hitem) fun _ => hclose)

theorem walk_operand : J .inner (.live l b) operand (.live false b) := by
  have hword {k : TokenKind} {kind : NodeKind} (hkind : kind.isRoutine)
      (hk : l = true ∨ k.closes = false) : J .inner (.seeing l b k)
        (do oneWord kind; return true) (.live false b) :=
    h.bind (walk_oneWord h hkind hk) fun _ => h.post .quiet (h.pure true)
  have hnone : J .inner (.live l b)
      (do
        report .here (.missingPart .expression)
        if leavesOperand none || (← atStop) then return false
        else
          oneWord .errorNode
          return true) (.live false b) :=
    h.bind (walk_report h rfl) fun _ =>
      h.idle nofun (fun _ => rfl) (h.post .quiet (h.pure false))
  have hmissing (k : TokenKind) : J .inner (.seeing l b k)
      (do
        report .here (.missingPart .expression)
        if leavesOperand (some k) || (← atStop) then return false
        else
          oneWord .errorNode
          return true) (.live false b) := by
    have hleave {l : Bool} : J .inner (.seeing l true k) (return false) (.live false b) :=
      h.weaken (.seen id id) (.live nofun fun _ => rfl) (h.pure false)
    refine h.bind (h.report_seeing rfl) fun _ => h.atStop ?_ ?_
    · rw [Bool.or_true]
      exact hleave
    · rw [Bool.or_false]
      split
      · exact hleave
      · refine h.bind (walk_oneWord h rfl (.inl rfl)) fun _ => ?_
        exact h.post (.live nofun fun _ => rfl) (h.pure true)
  refine h.onLine hnone fun k => ?_
  split
  · next hk =>
    cases hk
    exact h.bind (h.number (h.take_seeing (.inr rfl))) fun _ => h.post .quiet (h.pure true)
  · next hk => cases hk; exact hword rfl (.inr rfl)
  · next hk => cases hk; exact hword rfl (.inr rfl)
  · next hk => cases hk; exact hword rfl (.inr rfl)
  · next hk => cases hk; exact hword rfl (.inr rfl)
  · next hk =>
    cases hk
    exact h.bind (walk_nameReference h (h.take_seeing (.inr rfl))) fun _ => h.pure true
  · next hk =>
    cases hk
    refine h.bind (h.node rfl (h.bind (h.take_seeing (.inr rfl)) fun _ => ?_)) fun _ => h.pure true
    exact h.bind (walk_expression h) fun _ => walk_want h (.inr rfl)
  · exact hmissing k

end Expressions

section Operations

variable {J : Judgement} (h : OperationRules J) {l b : Bool}
include h

theorem walk_operators (power : Nat) :
    J .inner (.live false b) (operators power) (.live false b) := by
  refine h.bind (h.collect ?_) fun _ => h.pure ()
  refine h.onLine (h.pure none) fun k => ?_
  rw [Option.bind_some]
  split
  · exact h.unsee (h.pure none)
  · next hpower =>
    split
    · exact h.unsee (h.pure none)
    · exact h.bind (h.binary hpower) fun _ => h.pure (some ())

omit h in
/-- An expression inside its nesting. -/
def expressionBody (power : Nat) : Script Unit := do
  match (← onLine).bind (·.prefixPower?) with
  | some right =>
    node .unaryExpr do
      take
      expressionFrom right
    operators power
  | none =>
    if ← operand then operators power

omit h in
theorem expressionRule_eq (power : Nat) : expressionRule power = (do
    if ← tooDeep then skipDeepExpression else within .nested (expressionBody power)) := rfl

theorem walk_expressionRule (power : Nat) :
    J .inner (.live l b) (expressionRule power) (.live false b) := by
  refine h.tooDeep fun deep => ?_
  split
  · exact h.skipDeepExpression
  · have hplain : J .inner (.live l b) (do if ← operand then operators power) (.live false b) := by
      refine h.bind (walk_operand h.toLineRules) fun c => ?_
      split
      · exact walk_operators h power
      · exact h.pure ()
    refine h.nested (h.onLine hplain fun k => ?_)
    rw [Option.bind_some]
    split
    · next hpower =>
      have htake : J .inner (.seeing l b k) take (.live true b) :=
        h.take_seeing (.inr (TokenKind.closes_of_prefixPower? hpower))
      exact h.bind (h.unary (h.bind htake fun _ => h.expression _)) fun _ => walk_operators h power
    · exact h.unsee hplain

end Operations

/-! ### Declarations -/

section Declarations

variable {J : Judgement} (h : LineRules J) {st : Stage} {l b s : Bool} {k : TokenKind}
include h

/-- The end of the line of a statement. -/
theorem walk_finish : J st (.live l b) lineEnd (.live true false) :=
  h.post (.live id nofun) h.lineEnd

theorem walk_typeReference : J .inner (.seeing l b .kwAs) typeReference (.live false b) := by
  refine h.node rfl (h.bind (h.take_seeing (.inr rfl)) fun _ => walk_named h nofun ?_)
  refine h.bind (h.take_seeing (.inr rfl)) fun _ => ?_
  exact walk_eatThen h (.inr rfl) (walk_expression h) (h.post .quiet (h.pure ()))

theorem walk_asType : J .inner (.live l b) typeAnnotation (.live false b) :=
  h.ifOnLine (walk_typeReference h) (h.post .quiet (h.pure ()))

theorem walk_declarator : J .inner (.live true b) declarator (.live false b) := by
  refine h.node rfl (walk_named h nofun ?_)
  refine h.bind (walk_identifier h (h.take_seeing (.inr rfl))) fun _ => ?_
  refine h.ifOnLine ?_ (walk_asType h)
  exact h.bind (walk_parenthesized h rfl (walk_expression h)) fun _ => walk_asType h

theorem walk_variableDeclaration :
    J .outer (.word s b k) variableDeclaration (.live true false) :=
  h.node rfl (h.bind h.take_word fun _ =>
    h.bind (walk_separated h (walk_declarator h)) fun _ => walk_finish h)

theorem walk_namedIdentifier {part : Part} :
    J .inner (.live l b) (named part identifier) (.live l b) :=
  walk_named h id (h.post .loud (walk_identifier h (h.take_seeing (.inr rfl))))

theorem walk_namedReference {part : Part} :
    J .inner (.live l b) (named part nameReference) (.live false b) :=
  walk_named h nofun (walk_nameReference h (h.take_seeing (.inr rfl)))

theorem walk_constantDeclaration :
    J .outer (.word s b k) constantDeclaration (.live true false) := by
  refine h.node rfl (h.bind h.take_word fun _ => h.bind (walk_namedIdentifier h) fun _ => ?_)
  refine h.bind (walk_asType h) fun _ => ?_
  exact walk_expectThen h (.inr rfl) (h.bind (walk_expression h) fun _ => walk_finish h)
    (walk_finish h)

theorem walk_aliasDeclaration : J .outer (.word s b k) aliasDeclaration (.live true false) := by
  refine h.node rfl (h.bind h.take_word fun _ => h.bind (walk_namedReference h) fun _ => ?_)
  exact walk_expectThen h (.inr rfl) (h.bind (walk_namedIdentifier h) fun _ => walk_finish h)
    (walk_finish h)

theorem walk_unitsDeclaration : J .outer (.word s b k) unitsDeclaration (.live true false) := by
  refine h.node rfl (h.bind h.take_word fun _ => h.bind (walk_namedReference h) fun _ => ?_)
  refine walk_expectThen h (.inr rfl) ?_ (walk_finish h)
  exact walk_eatThen h (.inr rfl) (walk_finish h) (h.bind (walk_report h rfl) fun _ => walk_finish h)

theorem walk_parameter : J .inner (.live true b) parameter (.live false b) := by
  refine h.node rfl (h.onLine ?_ fun k => ?_)
  · exact h.bind (walk_report h rfl) fun _ => h.post .quiet (h.pure ())
  · have hloud {x : Script Unit} (hx : J .inner (.live true true) x (.live true true)) :
        J .inner (.seeing true true k) x (.live false b) :=
      h.weaken (.seen id id) (.live nofun fun _ => rfl) hx
    split
    · next hk =>
      cases hk
      refine h.bind (walk_identifier h (h.take_seeing (.inr rfl))) fun _ => ?_
      refine walk_eatThen h (.inr rfl) ?_ (walk_asType h)
      exact h.bind (walk_want h (.inr rfl)) fun _ => walk_asType h
    · refine h.bind (h.report_seeing rfl) fun _ => ?_
      split
      · exact hloud (h.pure ())
      · exact hloud (h.pure ())
      · exact hloud (h.pure ())
      · next hk =>
        cases hk
        exact h.post (.live nofun fun _ => rfl) (walk_oneWord h rfl (.inl rfl))

theorem walk_parameterList : J .inner (.seeing l b .lParen) parameterList (.live false b) :=
  walk_parenthesized h rfl (walk_parameter h)

end Declarations

end Grammar

end CRBasic
