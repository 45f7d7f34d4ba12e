import CRBasic.Grammar.Statement

/-!
# Budgets

A budget gives each kind of node a cost.  The height of a tree is the largest sum of costs along a path
from its root, where the step from an infix operation to its left side is free.  A budget also says how
high the parts are that a call of a rule builds, by the number of levels that are left before the
nesting limit.  A script is bounded by a budget (`Script.Bounded`) if every node that it builds is as
high as it may be, once the calls keep to the budget.

Whether a script is bounded can be read off it, whatever the text.  This module has the rules for each
step and goes through lines and expressions; the next one goes through statements.
-/

namespace CRBasic

/-- Kinds of node that nest: the statements of a block, parentheses and signs. -/
def NodeKind.nests : NodeKind → Bool
  | .stmtList | .parenExpr | .unaryExpr => true
  | _ => false

namespace Parsing

/-- What scripts may do, and how high the nodes are that they build. -/
structure Budget where
  /-- Whether problems may be passed over. -/
  silence : Bool
  /-- Whether a one-line `If` may depend on the options. -/
  oneLineIf : Bool
  /-- The cost of a node that nests. -/
  nesting : Nat
  /-- The cost of an infix operation. -/
  operation : Nat
  /-- The cost of any other node. -/
  other : Nat
  /-- How high an expression is, where so many levels are left. -/
  expression : Nat → Nat
  /-- How high a statement is, where so many levels are left. -/
  statement : Nat → Nat

namespace Budget

variable (b : Budget)

/-- The cost of a node. -/
def cost (kind : NodeKind) : Nat :=
  if kind.nests then b.nesting else if kind = .binaryExpr then b.operation else b.other

/-- The cost of the step from a node to the part that it was put around: an infix operation is put
around its left side. -/
def leftCost (kind : NodeKind) : Nat := if kind = .binaryExpr then 0 else b.cost kind

/-- How high the parts are that a call of a rule puts into the open node. -/
def call : Rule → Nat → Nat
  | .statement => b.statement
  | .expression _ => b.expression

/-- The questions that may be asked.  The nesting limit is no matter of single steps: each rule asks
for it at its start. -/
def answers : {α : Type} → Query α → Bool
  | _, .tooDeep => false
  | _, .singleLineIf => b.oneLineIf
  | _, _ => true

/-- The actions that may be taken. -/
def permits : Action → Bool
  | .silence => b.silence
  | _ => true

end Budget

namespace Script

/-- Where `k` levels are left, the script puts parts of a height of at most `n` into the open node.  The
last part there is at most as high as `m` when the script starts, which matters to a node around it. -/
def Bounded (b : Budget) : {α : Type} → Script α → (k n m : Nat) → Prop
  | _, .done _, _, _, _ => True
  | _, .ask q next, k, n, m => b.answers q ∧ ∀ a, (next a).Bounded b k n m
  | _, .act a next, k, n, m => b.permits a ∧ (next ()).Bounded b k n m
  | _, .during (.node kind) body next, k, n, _ =>
    ∃ i, b.cost kind + i ≤ n ∧ body.Bounded b k i 0 ∧
      ∀ a, (next a).Bounded b k n (b.cost kind + i)
  | _, .during (.wrap kind) body next, k, n, m =>
    ∃ i h, b.leftCost kind + m ≤ h ∧ b.cost kind + i ≤ h ∧ h ≤ n ∧ body.Bounded b k i 0 ∧
      ∀ a, (next a).Bounded b k n h
  | _, .during .nested body next, k, n, _ =>
    ∃ j, k = j + 1 ∧ body.Bounded b j n n ∧ ∀ a, (next a).Bounded b k n n
  | _, .during _ body next, k, n, _ => body.Bounded b k n n ∧ ∀ a, (next a).Bounded b k n n
  | _, .many item next, k, n, _ => item.Bounded b k n n ∧ ∀ as, (next as).Bounded b k n n
  | _, .call rule next, k, n, _ => b.call rule k ≤ n ∧ (next ()).Bounded b k n n

/-! ### Rules -/

variable {α β : Type} {b : Budget} {k n m m' i : Nat} {x : Script α} {f : α → Script β}
  {kind : NodeKind}

theorem Bounded.last_le (h : x.Bounded b k n m) (hm : m' ≤ m) : x.Bounded b k n m' := by
  induction x generalizing m m' with
  | done a => trivial
  | ask q next ih => exact ⟨h.1, fun a => ih a (h.2 a) hm⟩
  | act a next ih => exact ⟨h.1, ih () h.2 hm⟩
  | during scope body next _ _ =>
    cases scope with
    | wrap kind =>
      obtain ⟨i, height, hleft, hrest⟩ := h
      exact ⟨i, height, by omega, hrest⟩
    | _ => exact h
  | many item next _ _ => exact h
  | call rule next _ => exact h

/-- The last part may be lower than `n` in between, so the induction is for any bound on it. -/
theorem Bounded.bind_of_le (hx : x.Bounded b k n m) (hm : m ≤ n)
    (hf : ∀ a, (f a).Bounded b k n n) : (x >>= f).Bounded b k n m := by
  change (x.bind f).Bounded b k n m
  induction x generalizing m with
  | done a => exact (hf a).last_le hm
  | ask q next ih => exact ⟨hx.1, fun a => ih a (hx.2 a) hm hf⟩
  | act a next ih => exact ⟨hx.1, ih () hx.2 hm hf⟩
  | during scope body next _ ih =>
    cases scope with
    | node kind =>
      obtain ⟨i, hi, hbody, hnext⟩ := hx
      exact ⟨i, hi, hbody, fun a => ih a (hnext a) hi hf⟩
    | wrap kind =>
      obtain ⟨i, height, hleft, hi, hn, hbody, hnext⟩ := hx
      exact ⟨i, height, hleft, hi, hn, hbody, fun a => ih a (hnext a) hn hf⟩
    | nested =>
      obtain ⟨j, hj, hbody, hnext⟩ := hx
      exact ⟨j, hj, hbody, fun a => ih a (hnext a) (Nat.le_refl n) hf⟩
    | stopAt kinds => exact ⟨hx.1, fun a => ih a (hx.2 a) (Nat.le_refl n) hf⟩
    | measured => exact ⟨hx.1, fun a => ih a (hx.2 a) (Nat.le_refl n) hf⟩
  | many item next _ ih => exact ⟨hx.1, fun as => ih as (hx.2 as) (Nat.le_refl n) hf⟩
  | call rule next ih => exact ⟨hx.1, ih () hx.2 (Nat.le_refl n) hf⟩

theorem Bounded.bind (hx : x.Bounded b k n n) (hf : ∀ a, (f a).Bounded b k n n) :
    (x >>= f).Bounded b k n n := hx.bind_of_le (Nat.le_refl n) hf

theorem bounded_ask {q : Query α} (hq : b.answers q = true) (hf : ∀ a, (f a).Bounded b k n m) :
    (Script.ask q .done >>= f).Bounded b k n m := ⟨hq, hf⟩

theorem bounded_act {a : Action} {f : Unit → Script β} (ha : b.permits a = true)
    (hf : (f ()).Bounded b k n m) : (Script.act a .done >>= f).Bounded b k n m := ⟨ha, hf⟩

theorem bounded_take : take.Bounded b k n m := ⟨rfl, trivial⟩

theorem bounded_report {place : Place} {cause : Cause} : (report place cause).Bounded b k n m :=
  ⟨rfl, trivial⟩

/-- A node without a special cost. -/
theorem bounded_node (hkind : b.cost kind = b.other) (hi : b.other + i ≤ n)
    (h : x.Bounded b k i i) : (node kind x).Bounded b k n m :=
  ⟨i, hkind ▸ hi, h.last_le (Nat.zero_le i), fun _ => trivial⟩

/-- A node that nests. -/
theorem bounded_nest (hkind : kind.nests = true) (hi : b.nesting + i ≤ n)
    (h : x.Bounded b k i i) : (node kind x).Bounded b k n m := by
  refine ⟨i, ?_, h.last_le (Nat.zero_le i), fun _ => trivial⟩
  rw [Budget.cost, if_pos hkind]
  exact hi

theorem bounded_nested (h : x.Bounded b k n n) : (within .nested x).Bounded b (k + 1) n m :=
  ⟨k, rfl, h, fun _ => trivial⟩

theorem bounded_stopAt {kinds : List TokenKind} (h : x.Bounded b k n n) :
    (within (.stopAt kinds) x).Bounded b k n m := ⟨h, fun _ => trivial⟩

theorem bounded_measured (h : x.Bounded b k n n) : (within .measured x).Bounded b k n m :=
  ⟨h, fun _ => trivial⟩

theorem bounded_collect {item : Script (Option α)} (h : item.Bounded b k n n) :
    (collect item).Bounded b k n m := ⟨h, fun _ => trivial⟩

theorem bounded_expressionFrom (power : Nat) (h : b.expression k ≤ n) :
    (expressionFrom power).Bounded b k n m := ⟨h, trivial⟩

theorem bounded_statement (h : b.statement k ≤ n) : statement.Bounded b k n m := ⟨h, trivial⟩

theorem bounded_whileM {test : Script Bool} {body : Script Unit} (htest : test.Bounded b k n n)
    (hbody : body.Bounded b k n n) : (whileM test body).Bounded b k n n := by
  refine Bounded.bind (bounded_collect (htest.bind fun go => ?_)) fun _ => trivial
  split
  · exact hbody.bind fun _ => trivial
  · trivial

end Script

end Parsing

namespace Grammar

open Parsing Parsing.Script

variable {α : Type} {b : Budget} {k n : Nat}

/-! ### Lines -/

theorem bounded_ifOnLine {kind : TokenKind} {x y : Script α} (hx : x.Bounded b k n n)
    (hy : y.Bounded b k n n) : (do if (← onLine) == some kind then x else y).Bounded b k n n := by
  apply bounded_ask rfl
  intro found
  split
  · exact hx
  · exact hy

theorem bounded_eat (kind : TokenKind) : (eat kind).Bounded b k n n :=
  bounded_ifOnLine (bounded_act rfl trivial) trivial

/-- A branch on whether a word is there. -/
theorem bounded_eatThen {kind : TokenKind} {x y : Script α} (hx : x.Bounded b k n n)
    (hy : y.Bounded b k n n) : (do if ← eat kind then x else y).Bounded b k n n := by
  refine (bounded_eat kind).bind fun found => ?_
  split
  · exact hx
  · exact hy

theorem bounded_expect (kind : TokenKind) : (expect kind).Bounded b k n n :=
  bounded_eatThen trivial (bounded_report.bind fun _ => trivial)

theorem bounded_expectThen {kind : TokenKind} {x y : Script α} (hx : x.Bounded b k n n)
    (hy : y.Bounded b k n n) : (do if ← expect kind then x else y).Bounded b k n n := by
  refine (bounded_expect kind).bind fun found => ?_
  split
  · exact hx
  · exact hy

theorem bounded_want (kind : TokenKind) : (want kind).Bounded b k n n :=
  (bounded_expect kind).bind fun _ => trivial

theorem bounded_named {part : Part} {x : Script Unit} (hx : x.Bounded b k n n) :
    (named part x).Bounded b k n n := bounded_ifOnLine hx bounded_report

theorem bounded_separated {item : Script α} (h : item.Bounded b k n n) :
    (separated item).Bounded b k n n := by
  refine h.bind fun first => Bounded.bind (bounded_collect ?_) fun more => trivial
  exact bounded_eatThen (h.bind fun next => trivial) trivial

theorem bounded_statementEnds : statementEnds.Bounded b k n n := by
  apply bounded_ask rfl
  intro found
  split
  · trivial
  · exact ⟨rfl, fun _ => trivial⟩

theorem bounded_takeLine : takeLine.Bounded b k n n :=
  bounded_whileM (bounded_statementEnds.bind fun _ => trivial) bounded_take

theorem bounded_oneWord {kind : NodeKind} (hkind : b.cost kind = b.other) (hn : b.other ≤ n) :
    (oneWord kind).Bounded b k n n :=
  bounded_node hkind (i := 0) hn bounded_take

theorem bounded_errorLine (hn : b.other ≤ n) : (node .errorNode takeLine).Bounded b k n n :=
  bounded_node rfl (i := 0) hn bounded_takeLine

theorem bounded_lineEnd (hn : b.other ≤ n) : lineEnd.Bounded b k n n := by
  have hlisten : listen.Bounded b k n n := ⟨rfl, trivial⟩
  refine bounded_statementEnds.bind fun ends => ?_
  cases ends with
  | true => exact hlisten
  | false =>
    have hskip : (do node .errorNode takeLine; listen : Script Unit).Bounded b k n n :=
      (bounded_errorLine hn).bind fun _ => hlisten
    refine bounded_ask rfl fun found => ?_
    split
    · exact hskip
    · exact hskip
    · exact bounded_report.bind fun _ => hskip

theorem bounded_startsAnotherStatement : startsAnotherStatement.Bounded b k n n := by
  apply bounded_ask rfl
  intro found
  cases found <;> trivial

theorem bounded_skipWords (hn : b.other ≤ n) : skipWords.Bounded b k n n := by
  refine bounded_node rfl (i := 0) hn (bounded_take.bind fun _ => bounded_whileM ?_ bounded_take)
  refine bounded_statementEnds.bind fun ends => ?_
  exact bounded_startsAnotherStatement.bind fun starts => trivial

theorem bounded_skipDeepStatement (hn : b.other ≤ n) : skipDeepStatement.Bounded b k n n := by
  refine bounded_report.bind fun _ => bounded_node rfl (i := 0) hn ?_
  exact bounded_take.bind fun _ => bounded_takeLine

theorem bounded_skipDeepExpression (hb : b.silence = true) (hn : b.other ≤ n) :
    skipDeepExpression.Bounded b k n n := by
  refine bounded_report.bind fun _ => bounded_node rfl (i := 0) hn ?_
  exact bounded_act hb bounded_takeLine

/-! ### Blocks -/

theorem bounded_blockBody {stops : List TokenKind} (hn : b.nesting + b.statement k ≤ n) :
    (blockBody stops).Bounded b (k + 1) n n := by
  refine bounded_nest rfl hn (bounded_stopAt (bounded_nested (bounded_whileM ?_ ?_)))
  · exact bounded_ask rfl fun found => bounded_ask rfl fun stop => trivial
  · exact bounded_statement (Nat.le_refl _)

theorem bounded_inlineBody {stops : List TokenKind} (hn : b.nesting + b.statement k ≤ n) :
    (inlineBody stops).Bounded b (k + 1) n n := by
  refine bounded_nest rfl hn (bounded_stopAt (bounded_nested ?_))
  refine bounded_statementEnds.bind fun ends => ?_
  split
  · trivial
  · exact bounded_statement (Nat.le_refl _)

theorem bounded_terminator (kind opener : TokenKind) : (terminator kind opener).Bounded b k n n := by
  apply bounded_ask rfl
  intro found
  split
  · exact bounded_act rfl trivial
  · exact bounded_act rfl trivial

theorem bounded_terminatorThen {kind opener : TokenKind} {x : Script Unit}
    (hx : x.Bounded b k n n) : (do if ← terminator kind opener then x).Bounded b k n n := by
  refine (bounded_terminator kind opener).bind fun found => ?_
  split
  · exact hx
  · trivial

theorem bounded_blockEnd {kind opener : TokenKind} (hn : b.other ≤ n) :
    (blockEnd kind opener).Bounded b k n n := bounded_terminatorThen (bounded_lineEnd hn)

theorem bounded_blockTail {opener kind : TokenKind} (hn : b.other ≤ n)
    (hbody : b.nesting + b.statement k ≤ n) : (blockTail opener kind).Bounded b (k + 1) n n :=
  (bounded_lineEnd hn).bind fun _ =>
    (bounded_blockBody hbody).bind fun _ => bounded_blockEnd hn

/-! ### Expressions -/

theorem bounded_identifier (hn : b.other ≤ n) : identifier.Bounded b k n n := by
  refine bounded_node rfl (i := 0) hn (bounded_take.bind fun _ => ?_)
  refine Bounded.bind (bounded_collect ?_) fun _ => trivial
  refine bounded_eatThen (bounded_eatThen trivial ?_) trivial
  exact bounded_report.bind fun _ => trivial

theorem bounded_expression (hn : b.expression k ≤ n) : expression.Bounded b k n n :=
  bounded_expressionFrom 0 hn

theorem bounded_argument (hn : b.expression k ≤ n) : argument.Bounded b k n n := by
  refine bounded_ask rfl fun start => bounded_ask rfl fun first => bounded_ask rfl fun second => ?_
  exact (bounded_expression hn).bind fun _ => bounded_ask rfl fun stop => trivial

theorem bounded_argumentList (hn : b.other + b.expression k ≤ n) :
    argumentList.Bounded b k n n := by
  refine bounded_node rfl hn (bounded_ask rfl fun start => bounded_act rfl ?_)
  have hend {items : List Argument} {start : Edge} :
      (do want .rParen; let stop ← behind; return (⟨start, stop, items⟩ : Arguments)).Bounded b k
        (b.expression k) (b.expression k) :=
    (bounded_want .rParen).bind fun _ => bounded_ask rfl fun stop => trivial
  apply bounded_ifOnLine
  · exact Bounded.bind trivial fun items => hend
  · exact (bounded_separated (bounded_argument (Nat.le_refl _))).bind fun items => hend

theorem bounded_arguments (hn : b.other + b.expression k ≤ n) : arguments.Bounded b k n n :=
  bounded_measured ((bounded_argumentList hn).bind fun _ => trivial)

/-- What is put around a name with arguments is as high as the arguments are. -/
theorem bounded_call {x : Script Unit} (hn : 2 * b.other + b.expression k ≤ n)
    (hx : x.Bounded b k (b.other + b.expression k) (b.other + b.expression k)) :
    (wrap .functionCall x).Bounded b k n b.other := by
  have hcost : b.cost .functionCall = b.other := rfl
  have hleft : b.leftCost .functionCall = b.other := rfl
  refine ⟨b.other + b.expression k, n, ?_, ?_, Nat.le_refl n, hx.last_le (Nat.zero_le _),
    fun _ => trivial⟩
  · omega
  · omega

/-- After a name the last part is the name, as low as a node may be. -/
theorem bounded_afterIdentifier {f : Unit → Script α} (hn : b.other ≤ n)
    (hf : ∀ u, (f u).Bounded b k n b.other) : (identifier >>= f).Bounded b k n n := by
  obtain ⟨i, hi, hbody, -⟩ := bounded_identifier (k := k) (Nat.le_refl b.other)
  obtain rfl : i = 0 := by
    change b.other + i ≤ b.other at hi
    omega
  exact ⟨0, hn, hbody, hf⟩

theorem bounded_nameReference (hn : 2 * b.other + b.expression k ≤ n) :
    nameReference.Bounded b k n n := by
  refine bounded_afterIdentifier (by omega) fun _ => bounded_ask rfl fun found => ?_
  split
  · exact bounded_call hn (bounded_arguments (Nat.le_refl _))
  · trivial

theorem bounded_parenthesized {kind : NodeKind} {item : Script α} {i : Nat}
    (hkind : b.cost kind = b.other) (hn : b.other + i ≤ n) (h : item.Bounded b k i i) :
    (parenthesized kind item).Bounded b k n n := by
  refine bounded_node hkind hn (bounded_take.bind fun _ => bounded_ask rfl fun found => ?_)
  have hclose : (want .rParen).Bounded b k i i := bounded_want .rParen
  split
  · exact hclose
  · exact (bounded_separated h).bind fun _ => hclose

section

variable (hname : 2 * b.other + b.expression k ≤ n) (hnest : b.nesting + b.expression k ≤ n)
  (hoperation : b.operation + b.expression k ≤ n)
include hname hnest

theorem bounded_operand : operand.Bounded b k n n := by
  have hother : b.other ≤ n := by omega
  have hword {kind : NodeKind} (hkind : b.cost kind = b.other) :
      (do oneWord kind; return true).Bounded b k n n :=
    (bounded_oneWord hkind hother).bind fun _ => trivial
  apply bounded_ask rfl
  intro found
  split
  · exact hword rfl
  · exact hword rfl
  · exact hword rfl
  · exact hword rfl
  · exact hword rfl
  · exact (bounded_nameReference hname).bind fun _ => trivial
  · have hparen : (do take; expression; want .rParen : Script Unit).Bounded b k (b.expression k)
        (b.expression k) :=
      bounded_act rfl ((bounded_expression (Nat.le_refl _)).bind fun _ => bounded_want .rParen)
    exact (bounded_nest rfl hnest hparen).bind fun _ => trivial
  · refine bounded_act rfl (bounded_ask rfl fun stop => ?_)
    split
    · trivial
    · exact hword rfl

omit hname hnest in
include hoperation in
/-- The step to the left side of an infix operation is free, so operations on the left do not add up. -/
theorem bounded_operators (power : Nat) : (operators power).Bounded b k n n := by
  refine Bounded.bind (bounded_collect (bounded_ask rfl fun found => ?_)) fun _ => trivial
  split
  · trivial
  · next right _ =>
    split
    · trivial
    · have hright : (do take; expressionFrom right : Script Unit).Bounded b k (b.expression k) 0 :=
        bounded_act rfl (bounded_expressionFrom right (Nat.le_refl _))
      have hleft : b.leftCost .binaryExpr + n ≤ n := Nat.le_of_eq (Nat.zero_add n)
      exact ⟨b.expression k, n, hleft, hoperation, Nat.le_refl n, hright, fun _ => trivial⟩

include hoperation in
/-- An expression where it may nest one level deeper. -/
theorem bounded_deeperExpression (power : Nat) : (within .nested (do
      match (← onLine).bind (·.prefixPower?) with
      | some right =>
        node .unaryExpr do
          take
          expressionFrom right
        operators power
      | none =>
        if ← operand then operators power)).Bounded b (k + 1) n n := by
  have hoperators := bounded_operators hoperation power
  apply bounded_nested
  apply bounded_ask rfl
  intro found
  split
  · next right _ =>
    have hright : (do take; expressionFrom right : Script Unit).Bounded b k (b.expression k)
        (b.expression k) := bounded_act rfl (bounded_expressionFrom right (Nat.le_refl _))
    exact (bounded_nest rfl hnest hright).bind fun _ => hoperators
  · refine (bounded_operand hname hnest).bind fun found => ?_
    split
    · exact hoperators
    · trivial

end

end Grammar

end CRBasic
