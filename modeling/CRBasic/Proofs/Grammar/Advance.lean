import CRBasic.Grammar.Statement
import CRBasic.Proofs.Parsing.Ends

/-!
# Scripts advance

`Advances` bounds from below how many words a script takes, and says that its run ends if the fuel
exceeds the number of words that are left by a given slack.  Rules are called only after a word has
been taken, and so are the rounds of every repetition: this is why no parse runs out of fuel.
-/

namespace CRBasic

namespace Grammar

open Parsing Parsing.Script

/-! ### Rules -/

section Rules

variable {call : Rule → State → Option State} {fuel : Nat} {α β : Type} {word : Bool}
  {slack : Nat}

/-- From a state where fuel exceeds the words left by more than `slack` (and where a word is left,
if `word` holds) the run of a script ends and has taken as many words as `taken` says. -/
def Advances (call : Rule → State → Option State) (fuel : Nat) (word : Bool) (slack : Nat)
    (taken : α → Nat) (x : Script α) : Prop :=
  ∀ s : State, (word → s.rest ≠ []) → s.rest.length + slack < fuel →
    Ends call fuel x s fun a t => t.rest.length + taken a ≤ s.rest.length

theorem Advances.mono {word' : Bool} {slack' : Nat} {m m' : α → Nat} {x : Script α}
    (h : Advances call fuel word slack m x) (hword : word → word') (hslack : slack ≤ slack')
    (hm : ∀ a, m' a ≤ m a) : Advances call fuel word' slack' m' x := by
  intro s hs hfuel
  refine (h s (fun hw => hs (hword hw)) (by omega)).mono fun a t ht => ?_
  have := hm a
  omega

theorem advances_pure {m : α → Nat} {a : α} (h : m a = 0) :
    Advances call fuel word slack m (pure a) := by
  intro s _ _
  simp [h]

/-- Words that the first script has taken are slack for the second one. -/
theorem advances_bind {m : α → Nat} {n : β → Nat} {x : Script α} {f : α → Script β}
    (hx : Advances call fuel word slack m x)
    (hf : ∀ a, Advances call fuel false (slack + m a) (fun b => n b - m a) (f a)) :
    Advances call fuel word slack n (x >>= f) := by
  intro s hs hfuel
  rw [ends_bind]
  refine (hx s hs hfuel).mono fun a t ht => ?_
  refine (hf a t (by simp) (by omega)).mono fun b u hu => ?_
  dsimp only at hu
  omega

theorem advances_ask {m : β → Nat} {q : Query α} {f : α → Script β}
    (h : ∀ a, Advances call fuel word slack m (f a)) :
    Advances call fuel word slack m (Script.ask q .done >>= f) := by
  intro s hs hfuel
  rw [ends_bind, ends_ask]
  exact h _ s hs hfuel

theorem ne_nil_of_onLine {s : State} {k : TokenKind} (h : s.onLine = some k) : s.rest ≠ [] := by
  intro hs
  simp [Reading.onLine, hs] at h

theorem ne_nil_of_current {s : State} {k : TokenKind} (h : s.current = some k) : s.rest ≠ [] := by
  intro hs
  simp [Reading.current, hs] at h

/-- If there is a kind on the line, there is a word. -/
theorem advances_onLine {m : β → Nat} {f : Option TokenKind → Script β}
    (hnone : Advances call fuel word slack m (f none))
    (hsome : ∀ k, Advances call fuel true slack m (f (some k))) :
    Advances call fuel word slack m (onLine >>= f) := by
  intro s hs hfuel
  rw [ends_bind, onLine, ends_ask]
  change Ends call fuel (f s.onLine) s _
  cases h : s.onLine with
  | none => exact hnone s hs hfuel
  | some k => exact hsome k s (fun _ => ne_nil_of_onLine h) hfuel

/-- If there is a next kind, there is a word. -/
theorem advances_current {m : β → Nat} {f : Option TokenKind → Script β}
    (hnone : Advances call fuel word slack m (f none))
    (hsome : ∀ k, Advances call fuel true slack m (f (some k))) :
    Advances call fuel word slack m (current >>= f) := by
  intro s hs hfuel
  rw [ends_bind, current, ends_ask]
  change Ends call fuel (f s.current) s _
  cases h : s.current with
  | none => exact hnone s hs hfuel
  | some k => exact hsome k s (fun _ => ne_nil_of_current h) hfuel

theorem advances_take : Advances call fuel true slack (fun _ => 1) take := by
  intro s hs _
  rw [take, ends_act]
  obtain ⟨w, ws, h⟩ := List.exists_cons_of_ne_nil (hs rfl)
  change (State.take s).rest.length + 1 ≤ _
  simp [State.take, h]

theorem rest_perform {a : Action} (ha : a ≠ .take) (s : State) : (s.perform a).rest = s.rest := by
  cases a with
  | take => exact absurd rfl ha
  | report place cause => exact s.toReading.rest_report place cause
  | silence => rfl
  | listen => rfl

theorem advances_act (a : Action) :
    Advances call fuel word slack (fun _ => 0) (Script.act a .done) := by
  intro s _ _
  rw [ends_act]
  change (s.perform a).rest.length + 0 ≤ s.rest.length
  by_cases ha : a = .take
  · subst ha
    simp only [State.perform, State.take]
    split <;> simp_all
  · exact Nat.le_of_eq (congrArg List.length (rest_perform ha s))

/-- An action other than taking a word changes nothing for what follows. -/
theorem advances_act_bind {m : β → Nat} {a : Action} (ha : a ≠ .take) {f : Unit → Script β}
    (h : Advances call fuel word slack m (f ())) :
    Advances call fuel word slack m (Script.act a .done >>= f) := by
  intro s hs hfuel
  rw [ends_bind, ends_act]
  change Ends call fuel (f ()) (s.perform a) _
  rw [← rest_perform ha s] at hs hfuel ⊢
  exact h _ hs hfuel

theorem rest_begin (s : State) (scope : Scope) : (Machine.begin s scope).2.rest = s.rest := by
  change (s.enter scope).rest = s.rest
  cases scope with
  | wrap kind =>
    simp only [State.enter, State.openAround]
    split <;> rfl
  | _ => rfl

theorem rest_leave (s : State) (i : Nat) (scope : Scope) :
    (Machine.leave s i scope).rest = s.rest := by
  change (s.leave i scope).rest = s.rest
  cases scope <;> rfl

theorem advances_within {m : α → Nat} (scope : Scope) {x : Script α}
    (h : Advances call fuel word slack m x) :
    Advances call fuel word slack m (within scope x) := by
  intro s hs hfuel
  rw [ends_within]
  rw [← rest_begin s scope] at hs hfuel
  refine (h _ hs hfuel).mono fun a t ht => ?_
  rw [rest_leave]
  rwa [rest_begin] at ht

theorem advances_node {m : α → Nat} (kind : NodeKind) {x : Script α}
    (h : Advances call fuel word slack m x) : Advances call fuel word slack m (node kind x) :=
  advances_within _ h

theorem advances_wrap {m : α → Nat} (kind : NodeKind) {x : Script α}
    (h : Advances call fuel word slack m x) : Advances call fuel word slack m (wrap kind x) :=
  advances_within _ h

/-- A repetition ends if every round takes a word. -/
theorem advances_collect {item : Script (Option β)}
    (h : Advances call fuel false slack (fun r => r.toList.length) item) :
    Advances call fuel word slack (fun _ => 0) (collect item) := by
  intro s _ hfuel
  refine ends_collect (I := fun t : State => t.rest.length ≤ s.rest.length)
    (fun t : State => t.rest.length) (fun t ht => ?_) (Nat.le_refl _) (by omega)
  refine (h t (by simp) (by omega)).mono fun r u hu => ⟨fun hr => ?_, fun hr => ?_⟩
  · obtain ⟨b, rfl⟩ := Option.isSome_iff_exists.1 hr
    simp only [Option.toList_some, List.length_singleton] at hu
    exact ⟨by omega, by omega⟩
  · omega

/-- A test that changes nothing, and holds only if a word is left. -/
def Sees (call : Rule → State → Option State) (fuel : Nat) (test : Script Bool) : Prop :=
  ∀ s : State, Ends call fuel test s fun b t => t = s ∧ (b → s.rest ≠ [])

theorem advances_whileM {test : Script Bool} {body : Script Unit} (htest : Sees call fuel test)
    (hbody : Advances call fuel true slack (fun _ => 1) body) :
    Advances call fuel word slack (fun _ => 0) (whileM test body) := by
  refine advances_bind (m := fun _ => 0) (advances_collect fun s _ hfuel => ?_)
    fun _ => advances_pure rfl
  rw [ends_bind]
  refine (htest s).mono fun b t => ?_
  rintro ⟨rfl, hb⟩
  cases b with
  | false => simp
  | true =>
    simp only [if_true, ends_bind]
    refine (hbody t (fun _ => hb rfl) hfuel).mono fun u v hv => ?_
    simpa using hv

theorem Advances.zero {m : α → Nat} {x : Script α} (h : Advances call fuel word slack m x) :
    Advances call fuel word slack (fun _ => 0) x :=
  h.mono id (Nat.le_refl _) fun _ => Nat.zero_le _

/-- The rules, called where a word has been taken, advance.  A statement takes a word. -/
structure RulesAdvance (call : Rule → State → Option State) (fuel : Nat) : Prop where
  expression (power : Nat) {word : Bool} {slack : Nat} :
    Advances call fuel word (slack + 1) (fun _ => 0) (expressionFrom power)
  statement {slack : Nat} : Advances call fuel true (slack + 1) (fun _ => 1) statement

end Rules

/-! ### Lines -/

section Lines

variable {call : Rule → State → Option State} {fuel : Nat} {α : Type} {word : Bool} {slack : Nat}

theorem advances_report (place : Place) (cause : Cause) :
    Advances call fuel word slack (fun _ => 0) (report place cause) :=
  advances_act _

theorem advances_eat (kind : TokenKind) :
    Advances call fuel word slack Bool.toNat (eat kind) := by
  refine advances_onLine (advances_pure rfl) fun k => ?_
  split
  · exact advances_bind advances_take fun _ => advances_pure rfl
  · exact advances_pure rfl

/-- A branch on whether a word is taken. -/
theorem advances_ifEat {kind : TokenKind} {n : α → Nat} {x y : Script α}
    (hx : Advances call fuel false (slack + 1) (fun a => n a - 1) x)
    (hy : Advances call fuel false slack n y) :
    Advances call fuel word slack n (do if ← eat kind then x else y) := by
  refine advances_bind (advances_eat kind) fun b => ?_
  cases b with
  | false => exact hy
  | true => exact hx

/-- A branch on the kind of the next word on the line. -/
theorem advances_ifOnLine {kind : TokenKind} {n : α → Nat} {x y : Script α}
    (hx : Advances call fuel true slack n x) (hy : Advances call fuel word slack n y) :
    Advances call fuel word slack n (do if (← onLine) == some kind then x else y) := by
  refine advances_onLine hy fun k => ?_
  split
  · exact hx
  · exact hy.mono (fun _ => rfl) (Nat.le_refl _) fun _ => Nat.le_refl _

theorem advances_expect (kind : TokenKind) :
    Advances call fuel word slack Bool.toNat (expect kind) :=
  advances_ifEat (advances_pure rfl) (advances_bind (advances_report _ _) fun _ => advances_pure rfl)

theorem advances_want (kind : TokenKind) :
    Advances call fuel word slack (fun _ => 0) (want kind) :=
  advances_bind (advances_expect kind) fun _ => advances_pure (Nat.zero_sub _)

theorem advances_named {part : Part} {body : Script Unit}
    (h : Advances call fuel true slack (fun _ => 0) body) :
    Advances call fuel word slack (fun _ => 0) (named part body) :=
  advances_ifOnLine h (advances_report _ _)

theorem advances_oneWord (kind : NodeKind) :
    Advances call fuel true slack (fun _ => 1) (oneWord kind) :=
  advances_node kind advances_take

theorem advances_separated {n : List α → Nat} {item : Script α}
    (hn : ∀ bs, n bs = 0)
    (h : ∀ {word}, Advances call fuel word (slack + 1) (fun _ => 0) item) :
    Advances call fuel word (slack + 1) n (separated item) := by
  refine advances_bind h fun a => ?_
  refine advances_bind (m := fun _ => 0) (advances_collect ?_) fun bs => advances_pure (by simp [hn])
  exact advances_ifEat (advances_bind (h.mono id (Nat.le_succ _) fun _ => Nat.le_refl _)
    fun b => advances_pure rfl) (advances_pure rfl)

/-- If the statement does not end, a word is left. -/
theorem ends_statementEnds (s : State) :
    Ends call fuel statementEnds s fun b t => t = s ∧ (b = false → s.rest ≠ []) := by
  rw [statementEnds, ends_bind, onLine, ends_ask]
  change Ends call fuel (if s.onLine.isNone = true then pure true else atStop) s _
  cases h : s.onLine with
  | none => simp
  | some k =>
    simp only [Option.isNone_some, Bool.false_eq_true, if_false]
    rw [atStop, ends_ask]
    exact ⟨rfl, fun _ => ne_nil_of_onLine h⟩

theorem ends_startsAnotherStatement (s : State) :
    Ends call fuel startsAnotherStatement s fun _ t => t = s := by
  have hanswer : Machine.answer s Query.current = s.current := rfl
  rw [startsAnotherStatement, ends_bind, current, ends_ask, hanswer]
  split <;> simp

theorem advances_takeLine : Advances call fuel word slack (fun _ => 0) takeLine := by
  refine advances_whileM (fun s => ?_) advances_take
  rw [ends_bind]
  refine (ends_statementEnds s).mono fun b t ht => ?_
  simpa using ht

theorem advances_skipWords : Advances call fuel true slack (fun _ => 1) skipWords := by
  refine advances_node _ (advances_bind advances_take fun _ => ?_)
  refine advances_whileM (fun s => ?_) advances_take
  rw [ends_bind]
  refine (ends_statementEnds s).mono ?_
  rintro b t ⟨rfl, hb⟩
  rw [ends_bind]
  refine (ends_startsAnotherStatement t).mono ?_
  rintro c u rfl
  rw [ends_pure]
  refine ⟨rfl, fun h => hb ?_⟩
  cases b with
  | false => rfl
  | true => simp at h

theorem advances_lineEnd : Advances call fuel word slack (fun _ => 0) lineEnd := by
  have hskip {word} {slack : Nat} : Advances call fuel word slack (fun _ => 0)
      (node .errorNode takeLine >>= fun _ => listen) :=
    advances_bind (advances_node _ advances_takeLine) fun _ => advances_act _
  intro s hs hfuel
  rw [lineEnd, ends_bind]
  refine (ends_statementEnds s).mono ?_
  rintro b t ⟨rfl, -⟩
  cases b with
  | true => exact advances_act .listen t hs hfuel
  | false =>
    refine advances_current (m := fun _ => 0) hskip (fun k => ?_) t hs hfuel
    dsimp only
    split
    · exact hskip
    · exact hskip
    · exact advances_bind (advances_report _ _) fun _ => hskip

theorem advances_skipDeepStatement :
    Advances call fuel true slack (fun _ => 1) skipDeepStatement := by
  refine advances_act_bind (by simp) (advances_node _ (advances_bind advances_take fun _ => ?_))
  exact advances_takeLine

theorem advances_skipDeepExpression :
    Advances call fuel word slack (fun _ => 0) skipDeepExpression := by
  refine advances_act_bind (by simp) (advances_node _ (advances_act_bind (by simp) ?_))
  exact advances_takeLine

theorem advances_terminator (kind opener : TokenKind) :
    Advances call fuel word slack Bool.toNat (terminator kind opener) := by
  have hmissing {word} : Advances call fuel word slack Bool.toNat
      (report .word (.unclosedBlock kind opener) >>= fun _ => pure false) :=
    advances_act_bind (by simp) (advances_pure rfl)
  refine advances_current hmissing fun k => ?_
  split
  · exact advances_bind advances_take fun _ => advances_pure rfl
  · exact hmissing

/-- A branch on whether a block is ended. -/
theorem advances_ifTerminator {kind opener : TokenKind} {x : Script Unit}
    (hx : Advances call fuel false (slack + 1) (fun _ => 0) x) :
    Advances call fuel word slack (fun _ => 0) (do if ← terminator kind opener then x) := by
  refine advances_bind (advances_terminator kind opener) fun b => ?_
  cases b with
  | false => exact advances_pure rfl
  | true => exact hx

theorem advances_blockEnd (kind opener : TokenKind) :
    Advances call fuel word slack (fun _ => 0) (blockEnd kind opener) :=
  advances_ifTerminator advances_lineEnd

variable (hr : RulesAdvance call fuel)
include hr

theorem advances_blockBody (stops : List TokenKind) :
    Advances call fuel word (slack + 1) (fun _ => 0) (blockBody stops) := by
  refine advances_node _ (advances_within _ (advances_within _ (advances_whileM ?_ hr.statement)))
  intro s
  rw [ends_bind, current, ends_ask, ends_bind, atStop, ends_ask, ends_pure]
  refine ⟨rfl, fun h => ?_⟩
  rw [Bool.and_eq_true] at h
  obtain ⟨k, hk⟩ := Option.isSome_iff_exists.1 h.1
  exact ne_nil_of_current hk

theorem advances_inlineBody (stops : List TokenKind) :
    Advances call fuel word (slack + 1) (fun _ => 0) (inlineBody stops) := by
  refine advances_node _ (advances_within _ (advances_within _ ?_))
  intro s hs hfuel
  rw [ends_bind]
  refine (ends_statementEnds s).mono ?_
  rintro b t ⟨rfl, hb⟩
  cases b with
  | true => exact advances_pure (m := fun _ => 0) rfl t hs hfuel
  | false => exact hr.statement.zero t (fun _ => hb rfl) hfuel

theorem advances_blockTail (opener kind : TokenKind) :
    Advances call fuel word (slack + 1) (fun _ => 0) (blockTail opener kind) :=
  advances_bind advances_lineEnd fun _ =>
    advances_bind (advances_blockBody hr _) fun _ => advances_blockEnd _ _

end Lines

/-! ### Expressions -/

section Expressions

variable {call : Rule → State → Option State} {fuel : Nat} {word : Bool} {slack : Nat}

theorem advances_identifier : Advances call fuel true slack (fun _ => 1) identifier := by
  refine advances_node _ (advances_bind advances_take fun _ => ?_)
  refine advances_bind (m := fun _ => 0) (advances_collect ?_) fun _ => advances_pure rfl
  refine advances_ifEat (advances_ifEat (advances_pure rfl) ?_) (advances_pure rfl)
  exact advances_act_bind (by simp) (advances_pure rfl)

variable (hr : RulesAdvance call fuel)
include hr

theorem advances_expression : Advances call fuel word (slack + 1) (fun _ => 0) expression :=
  hr.expression 0

theorem advances_argument : Advances call fuel word (slack + 1) (fun _ => 0) argument :=
  advances_ask fun _ => advances_ask fun _ => advances_ask fun _ =>
    advances_bind (advances_expression hr) fun _ => advances_ask fun _ => advances_pure rfl

theorem advances_argumentList : Advances call fuel true slack (fun _ => 1) argumentList := by
  refine advances_node _ (advances_ask fun start => advances_bind advances_take fun _ => ?_)
  have hend {word} (items : List Argument) : Advances call fuel word (slack + 1) (fun _ => 0)
      (do want .rParen; let stop ← behind; return (⟨start, stop, items⟩ : Arguments)) :=
    advances_bind (advances_want _) fun _ => advances_ask fun _ => advances_pure rfl
  exact advances_ifOnLine (advances_bind (m := fun _ => 0) (advances_pure rfl) fun _ => hend _)
    (advances_bind (advances_separated (fun _ => rfl) (advances_argument hr)) fun _ => hend _)

theorem advances_arguments : Advances call fuel true slack (fun _ => 1) arguments :=
  advances_within _ (advances_bind (advances_argumentList hr) fun _ => advances_pure rfl)

theorem advances_nameReference : Advances call fuel true slack (fun _ => 1) nameReference := by
  refine advances_bind advances_identifier fun _ => ?_
  exact advances_ifOnLine (advances_wrap _ (advances_arguments hr).zero) (advances_pure rfl)

theorem advances_operators (power : Nat) :
    Advances call fuel word slack (fun _ => 0) (operators power) := by
  refine advances_bind (m := fun _ => 0) (advances_collect ?_) fun _ => advances_pure rfl
  refine advances_onLine (advances_pure rfl) fun k => ?_
  rw [Option.bind_some]
  split
  · exact advances_pure rfl
  · split
    · exact advances_pure rfl
    · refine advances_bind (m := fun _ => 1) (advances_wrap _ ?_) fun _ => advances_pure rfl
      exact advances_bind advances_take fun _ => hr.expression _

/-- An operand takes a word, if there is an operand. -/
theorem advances_operand : Advances call fuel word slack Bool.toNat operand := by
  have hword {word} (kind : NodeKind) (hw : word = true) :
      Advances call fuel word slack Bool.toNat (do oneWord kind; return true) := by
    subst hw
    exact advances_bind (advances_oneWord _) fun _ => advances_pure rfl
  have hmissing {word} (found : Option TokenKind) (hw : found ≠ none → word = true) :
      Advances call fuel word slack Bool.toNat (do
        report .here (.missingPart .expression)
        if leavesOperand found || (← atStop) then return false
        else
          oneWord .errorNode
          return true) := by
    refine advances_act_bind (by simp) (advances_ask fun b => ?_)
    split
    · exact advances_pure rfl
    · next h =>
      refine hword _ (hw ?_)
      rintro rfl
      simp [leavesOperand] at h
  refine advances_onLine (hmissing none (by simp)) fun k => ?_
  split
  · exact hword _ rfl
  · exact hword _ rfl
  · exact hword _ rfl
  · exact hword _ rfl
  · exact hword _ rfl
  · exact advances_bind (advances_nameReference hr) fun _ => advances_pure rfl
  · refine advances_bind (m := fun _ => 1) (advances_node _ ?_) fun _ => advances_pure rfl
    exact advances_bind advances_take fun _ =>
      advances_bind (advances_expression hr) fun _ => advances_want _
  · exact hmissing _ fun _ => rfl

theorem advances_expressionRule (power : Nat) :
    Advances call fuel word slack (fun _ => 0) (expressionRule power) := by
  have hnested {word} : Advances call fuel word slack (fun _ => 0)
      (do if ← operand then operators power) := by
    refine advances_bind (advances_operand hr) fun b => ?_
    split
    · exact (advances_operators hr power).mono id (Nat.le_add_right _ _) fun _ => by simp
    · exact advances_pure (Nat.zero_sub _)
  refine advances_ask fun deep => ?_
  split
  · exact advances_skipDeepExpression
  · refine advances_within _ (advances_onLine hnested fun k => ?_)
    rw [Option.bind_some]
    split
    · refine advances_bind (m := fun _ => 1) (advances_node _ ?_) fun _ => advances_operators hr power
      exact advances_bind advances_take fun _ => hr.expression _
    · exact hnested

end Expressions

/-! ### Declarations and directives -/

section Declarations

variable {call : Rule → State → Option State} {fuel : Nat} {α : Type} {word : Bool} {slack : Nat}
  (hr : RulesAdvance call fuel)
include hr

theorem advances_typeReference : Advances call fuel true slack (fun _ => 1) typeReference :=
  advances_node _ (advances_bind advances_take fun _ => advances_named
    (advances_bind advances_take fun _ =>
      advances_ifEat (advances_expression hr) (advances_pure rfl)))

theorem advances_asType : Advances call fuel word slack (fun _ => 0) typeAnnotation :=
  advances_ifOnLine (advances_typeReference hr).zero (advances_pure rfl)

omit hr in
theorem advances_parenthesized {kind : NodeKind} {item : Script α}
    (h : ∀ {word}, Advances call fuel word (slack + 1) (fun _ => 0) item) :
    Advances call fuel true slack (fun _ => 1) (parenthesized kind item) := by
  refine advances_node _ (advances_bind advances_take fun _ => ?_)
  exact advances_ifOnLine (advances_want _)
    (advances_bind (advances_separated (fun _ => rfl) h) fun _ => advances_want _)

theorem advances_declarator : Advances call fuel word slack (fun _ => 0) declarator := by
  refine advances_node _ (advances_named (advances_bind advances_identifier fun _ => ?_))
  exact advances_ifOnLine (advances_bind (advances_parenthesized (advances_expression hr)).zero
    fun _ => advances_asType hr) (advances_asType hr)

theorem advances_variableDeclaration :
    Advances call fuel true slack (fun _ => 1) variableDeclaration :=
  advances_node _ (advances_bind advances_take fun _ =>
    advances_bind (advances_separated (fun _ => rfl) (advances_declarator hr)) fun _ =>
      advances_lineEnd)

theorem advances_constantDeclaration :
    Advances call fuel true slack (fun _ => 1) constantDeclaration := by
  refine advances_node _ (advances_bind advances_take fun _ => ?_)
  refine advances_bind (advances_named advances_identifier.zero) fun _ => ?_
  refine advances_bind (advances_asType hr) fun _ => ?_
  refine advances_bind (advances_expect _) fun b => ?_
  cases b with
  | false => exact advances_lineEnd
  | true => exact advances_bind (advances_expression hr) fun _ => advances_lineEnd

theorem advances_constantTable : Advances call fuel true slack (fun _ => 1) constantTable := by
  refine advances_node _ (advances_bind advances_take fun _ => ?_)
  exact advances_ifOnLine
    (advances_bind (advances_arguments hr).zero fun _ => advances_blockTail hr _ _)
    (advances_blockTail hr _ _)

theorem advances_aliasDeclaration :
    Advances call fuel true slack (fun _ => 1) aliasDeclaration := by
  refine advances_node _ (advances_bind advances_take fun _ => ?_)
  refine advances_bind (advances_named (advances_nameReference hr).zero) fun _ => ?_
  refine advances_bind (advances_expect _) fun b => ?_
  cases b with
  | false => exact advances_lineEnd
  | true => exact advances_bind (advances_named advances_identifier.zero) fun _ => advances_lineEnd

theorem advances_unitsDeclaration :
    Advances call fuel true slack (fun _ => 1) unitsDeclaration := by
  refine advances_node _ (advances_bind advances_take fun _ => ?_)
  refine advances_bind (advances_named (advances_nameReference hr).zero) fun _ => ?_
  refine advances_bind (advances_expect _) fun b => ?_
  cases b with
  | false => exact advances_lineEnd
  | true =>
    refine advances_bind (advances_eat _) fun b => ?_
    cases b with
    | false => exact advances_bind (advances_report _ _) fun _ => advances_lineEnd
    | true => exact advances_lineEnd

theorem advances_parameter : Advances call fuel word slack (fun _ => 0) parameter := by
  refine advances_node _ (advances_onLine ?_ fun k => ?_)
  · exact advances_act_bind (by simp) (advances_pure rfl)
  · dsimp only
    split
    · refine (advances_bind advances_identifier fun _ => ?_ :
        Advances call fuel true slack (fun _ => 1) _).zero
      exact advances_ifEat
        (advances_bind (advances_want _) fun _ => advances_asType hr)
        (advances_asType hr)
    · refine advances_act_bind (by simp) ?_
      split
      · exact advances_pure rfl
      · exact advances_pure rfl
      · exact advances_pure rfl
      · exact (advances_oneWord _).zero

theorem advances_parameterList : Advances call fuel true slack (fun _ => 1) parameterList :=
  advances_parenthesized (advances_parameter hr)

theorem advances_directiveCondition :
    Advances call fuel word (slack + 1) (fun _ => 0) directiveCondition :=
  advances_bind (advances_expression hr) fun _ =>
    advances_bind (advances_eat _) fun _ => advances_pure (Nat.zero_sub _)

theorem advances_directiveElseIf :
    Advances call fuel word slack (fun r => r.toList.length) directiveElseIf := by
  refine advances_current (advances_pure rfl) fun k => ?_
  split
  · refine advances_bind (m := fun _ => 1) (advances_node _ ?_) fun _ => advances_pure rfl
    exact advances_bind advances_take fun _ => advances_bind (advances_directiveCondition hr)
      fun _ => advances_bind advances_lineEnd fun _ => advances_blockBody hr _
  · exact advances_pure rfl

/-- The branch for all other cases, and the end of its block. -/
theorem advances_lastBranch (first : TokenKind) (kind : NodeKind) (stops : List TokenKind)
    (closer opener : TokenKind) :
    Advances call fuel word (slack + 1) (fun _ => 0) (do
      if (← current) == some first then
        node kind do
          take
          lineEnd
          blockBody stops
      blockEnd closer opener) := by
  refine advances_current (advances_blockEnd _ _) fun k => ?_
  split
  · refine advances_bind (m := fun _ => 1) (advances_node _ ?_) fun _ => advances_blockEnd _ _
    exact advances_bind advances_take fun _ => advances_bind advances_lineEnd
      fun _ => advances_blockBody hr _
  · exact advances_blockEnd _ _

theorem advances_directiveBranches (opener : TokenKind) :
    Advances call fuel word (slack + 1) (fun _ => 0) (directiveBranches opener) := by
  refine advances_bind advances_lineEnd fun _ => advances_bind (advances_blockBody hr _) fun _ => ?_
  refine advances_bind (m := fun _ => 0) (advances_collect (advances_directiveElseIf hr)) fun _ => ?_
  exact advances_lastBranch hr _ _ _ _ _

theorem advances_directiveIf : Advances call fuel true slack (fun _ => 1) directiveIf :=
  advances_node _ (advances_bind advances_take fun _ =>
    advances_bind (advances_directiveCondition hr) fun _ => advances_directiveBranches hr _)

theorem advances_directiveIfDefined :
    Advances call fuel true slack (fun _ => 1) directiveIfDefined :=
  advances_node _ (advances_bind advances_take fun _ =>
    advances_bind (advances_named advances_identifier.zero) fun _ => advances_directiveBranches hr _)

omit hr in
theorem advances_directiveUndefine :
    Advances call fuel true slack (fun _ => 1) directiveUndefine :=
  advances_node _ (advances_bind advances_take fun _ =>
    advances_bind (advances_named advances_identifier.zero) fun _ => advances_lineEnd)

theorem advances_inclusion : Advances call fuel true slack (fun _ => 1) inclusion := by
  refine advances_node _ (advances_bind advances_take fun _ => ?_)
  exact advances_ifOnLine (advances_bind (advances_expression hr) fun _ => advances_lineEnd)
    (advances_act_bind (by simp)
      (advances_bind (advances_node _ advances_takeLine) fun _ => advances_lineEnd))

end Declarations

end Grammar

end CRBasic
