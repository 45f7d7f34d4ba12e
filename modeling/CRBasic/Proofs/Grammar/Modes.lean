import CRBasic.Grammar.Statement

/-!
# Modes of a statement

What holds between two steps of a statement is one of a few modes.  A judgement says of a script that
it leads from one mode to another; rules for the single steps, for lines and for blocks are all that
it takes to carry a judgement through the grammar.  The modules after this one do so once for every
judgement.
-/

namespace CRBasic

/-- Kinds of node that are no operation of an expression. -/
def NodeKind.isPlain : NodeKind → Bool
  | .binaryExpr | .unaryExpr => false
  | _ => true

/-- Kinds of node of which a rule may say no more than that they hold what their script puts. -/
def NodeKind.isRoutine : NodeKind → Bool
  | .forLoop | .ifStmt | .scanStmt | .subScanStmt | .numberLiteral => false
  | kind => kind.isPlain

theorem NodeKind.isPlain_of_isRoutine {kind : NodeKind} (h : kind.isRoutine) : kind.isPlain := by
  cases kind <;> first | rfl | cases h

/-- Grammatical problems of which a rule may say no more than where they are. -/
def Cause.isRoutine : Cause → Bool
  | .loopVariableMismatch _ _ | .scanUnitsNotName => false
  | cause => cause.kind == .grammatical

theorem Cause.kind_of_isRoutine {cause : Cause} (h : cause.isRoutine) : cause.kind = .grammatical := by
  cases cause <;> first | rfl | cases h

/-- Kinds that may end the statements of a block. -/
def TokenKind.closes : TokenKind → Bool
  | .kwEndProg | .kwEndFunction | .kwEndSub | .kwElseIf | .kwElse | .kwEndIf | .kwNext | .kwWend
  | .kwLoop | .kwCase | .kwEndSelect | .kwNextScan | .kwNextSubScan | .kwEndSequence | .kwEndMenu
  | .kwEndSubMenu | .kwEndTable | .kwEndConstTable | .ppElseIf | .ppElse | .ppEndIf => true
  | _ => false

theorem TokenKind.closes_of_prefixPower? {k : TokenKind} {power : Nat}
    (h : k.prefixPower? = some power) : k.closes = false := by
  cases k <;> first | rfl | cases h

theorem TokenKind.closes_of_infixPower? {k : TokenKind} {powers : Nat × Nat}
    (h : k.infixPower? = some powers) : k.closes = false := by
  cases k <;> first | rfl | cases h

/-- Whether a question is about the next word on whatever line it stands. -/
def Parsing.Query.isAnyLine {α : Type} : Query α → Bool
  | .current => true
  | _ => false

namespace Grammar

open Parsing Parsing.Script

/-- Where a script runs. -/
inductive Stage where
  /-- Among the statements of a block or of the text. -/
  | outer
  /-- Inside a node of a statement. -/
  | inner
  /-- Inside a node of a statement, in a measured stretch. -/
  | measured
  deriving DecidableEq

/-- Where the parts of a node are read. -/
def Stage.inside : Stage → Stage
  | .outer => .inner
  | .inner => .inner
  | .measured => .measured

/-- What is known between two steps.  A mode is loud if problems are not passed over, and blamed if a
problem has been found. -/
inductive Mode where
  /-- A word of the given kind is next, on whatever line; loud. -/
  | word (started blamed : Bool) (kind : TokenKind)
  /-- A word of the first kind is next, and one of the second follows on its line; loud. -/
  | pair (kind second : TokenKind)
  /-- A word of the statement has been taken. -/
  | live (loud blamed : Bool)
  /-- A word of the given kind is next on the line. -/
  | seeing (loud blamed : Bool) (kind : TokenKind)
  /-- The body of a block has ended; loud. -/
  | body

namespace Mode

variable {l s b : Bool} {k k' : TokenKind}

theorem live_ne_body : live l b ≠ body := by simp

theorem seeing_ne_body : seeing l b k ≠ body := by simp

theorem word_ne_body : word s b k ≠ body := by simp

theorem pair_ne_body : pair k k' ≠ body := by simp

end Mode

/-- The first mode says at least as much as the second. -/
inductive Mode.Le : Mode → Mode → Prop where
  | refl (m : Mode) : Le m m
  | word {s b s' b' : Bool} {k : TokenKind} (hs : s' → s) (hb : b' → b) :
      Le (.word s b k) (.word s' b' k)
  | live {l b l' b' : Bool} (hl : l' → l) (hb : b' → b) : Le (.live l b) (.live l' b')
  | seeing {l b l' b' : Bool} {k : TokenKind} (hl : l' → l) (hb : b' → b) :
      Le (.seeing l b k) (.seeing l' b' k)
  | seen {l b l' b' : Bool} {k : TokenKind} (hl : l' → l) (hb : b' → b) :
      Le (.seeing l b k) (.live l' b')
  | body {b : Bool} : Le (.live true b) .body
  | bodyWord {b : Bool} {k : TokenKind} : Le (.word true b k) .body
  | bodyPair {k k' : TokenKind} : Le (.pair k k') .body

namespace Mode.Le

variable {l b : Bool}

theorem loud : Le (Mode.live true b) (Mode.live l b) := .live (fun _ => rfl) id

theorem quiet : Le (Mode.live l b) (Mode.live false b) := .live nofun id

theorem blamed : Le (Mode.live l true) (Mode.live l b) := .live id fun _ => rfl

end Mode.Le

/-- What a mode says of the words that are left. -/
def Mode.Sees : Mode → Reading → Prop
  | .word _ _ k, s => s.current = some k
  | .pair k k', s => s.current = some k ∧ s.secondOnLine = some k'
  | .seeing _ _ k, s => s.onLine = some k
  | .live _ _, _ | .body, _ => True

theorem Mode.Le.sees {m m' : Mode} {s : Reading} (h : m.Le m') (hs : m.Sees s) : m'.Sees s := by
  cases h <;> first | exact hs | trivial

theorem Mode.Sees.of_rest {m : Mode} {s t : Reading} (h : m.Sees s) (hrest : t.rest = s.rest) :
    m.Sees t := by
  cases m <;> simp_all [Mode.Sees, Reading.current, Reading.onLine, Reading.secondOnLine]

/-- A way to judge scripts: at a stage, from a mode to a mode. -/
abbrev Judgement := ∀ {α : Type}, Stage → Mode → Script α → Mode → Prop

section Rules

variable (J : Judgement)

/-- Rules for single steps, one after the other. -/
structure StepRules : Prop where
  pure {α : Type} {st : Stage} {m : Mode} (a : α) : J st m (pure a) m
  bind {α β : Type} {st : Stage} {m m' m'' : Mode} {x : Script α} {f : α → Script β}
    (hx : J st m x m') (hf : ∀ a, J st m' (f a) m'') : J st m (x >>= f) m''
  weaken {α : Type} {st : Stage} {m₁ m₂ m₃ m₄ : Mode} {x : Script α} (hpre : m₁.Le m₂)
    (hpost : m₃.Le m₄) (h : J st m₂ x m₃) : J st m₁ x m₄
  /-- A question whose answer makes no difference.  About the next word on whatever line it is only asked
  where problems are not passed over. -/
  idle {α β : Type} {st : Stage} {m m' : Mode} {q : Query α} {f : α → Script β} {x : Script β}
    (hq : q.isAnyLine → ∃ b, m = .live true b) (hf : ∀ a, f a = x) (h : J st m x m') :
    J st m (.ask q .done >>= f) m'
  onLine {α : Type} {st : Stage} {l b : Bool} {m : Mode} {f : Option TokenKind → Script α}
    (hnone : J st (.live l b) (f none) m) (hsome : ∀ k, J st (.seeing l b k) (f (some k)) m) :
    J st (.live l b) (Script.onLine >>= f) m
  onLine_seeing {α : Type} {st : Stage} {l b : Bool} {k : TokenKind} {m : Mode}
    {f : Option TokenKind → Script α} (h : J st (.seeing l b k) (f (some k)) m) :
    J st (.seeing l b k) (Script.onLine >>= f) m
  current_seeing {α : Type} {st : Stage} {b : Bool} {k : TokenKind} {m : Mode}
    {f : Option TokenKind → Script α} (h : J st (.seeing true b k) (f (some k)) m) :
    J st (.seeing true b k) (Script.current >>= f) m
  current_word {α : Type} {st : Stage} {s b : Bool} {k : TokenKind} {m : Mode}
    {f : Option TokenKind → Script α} (h : J st (.word s b k) (f (some k)) m) :
    J st (.word s b k) (Script.current >>= f) m
  second_seeing {α : Type} {st : Stage} {l b : Bool} {k : TokenKind} {m : Mode}
    {f : Option TokenKind → Script α} (h : ∀ o, J st (.seeing l b k) (f o) m) :
    J st (.seeing l b k) (secondOnLine >>= f) m
  second_word {α : Type} {st : Stage} {b : Bool} {k : TokenKind} {m : Mode}
    {f : Option TokenKind → Script α} (hnone : J st (.word true b k) (f none) m)
    (hsome : ∀ k', J st (.pair k k') (f (some k')) m) :
    J st (.word true b k) (secondOnLine >>= f) m
  /-- A word that ends no open block shows that problems are not passed over. -/
  atStop {α : Type} {st : Stage} {l : Bool} {k : TokenKind} {m : Mode} {f : Bool → Script α}
    (htrue : J st (.seeing l true k) (f true) m) (hfalse : J st (.seeing true true k) (f false) m) :
    J st (.seeing l true k) (Script.atStop >>= f) m
  tooDeep {α : Type} {st : Stage} {m m' : Mode} {f : Bool → Script α} (h : ∀ d, J st m (f d) m') :
    J st m (Script.tooDeep >>= f) m'
  take_word {st : Stage} {s b : Bool} {k : TokenKind} : J st (.word s b k) take (.live true b)
  take_pair {st : Stage} {k k' : TokenKind} : J st (.pair k k') take (.seeing true false k')
  take_seeing {st : Stage} {l b : Bool} {k : TokenKind} (hk : l = true ∨ k.closes = false) :
    J st (.seeing l b k) take (.live true b)
  report_live {st : Stage} {l b : Bool} {cause : Cause}
    (hcause : cause.isRoutine) :
    J st (.live l b) (report .here cause) (.live l true)
  report_seeing {st : Stage} {l b : Bool} {k : TokenKind} {cause : Cause}
    (hcause : cause.isRoutine) :
    J st (.seeing l b k) (report .here cause) (.seeing l true k)
  report_word {st : Stage} {s b : Bool} {k : TokenKind} {cause : Cause}
    (hcause : cause.isRoutine) :
    J st (.word s b k) (report .word cause) (.word s true k)
  listen_live {st : Stage} {l b : Bool} : J st (.live l b) listen (.live true b)
  listen_word {st : Stage} {s b : Bool} {k : TokenKind} :
    J st (.word s b k) listen (.word s b k)
  collect {β : Type} {st : Stage} {m : Mode} {item : Script (Option β)} (h : J st m item m) :
    J st m (Script.collect item) m

/-- Rules for what stands on one line. -/
structure LineRules : Prop extends StepRules J where
  measured_of_inner {α : Type} {m m' : Mode} {x : Script α} (h : J .inner m x m') :
    J .measured m x m'
  here {α : Type} {m m' : Mode} {f : Edge → Script α} (h : ∀ e, J .measured m (f e) m') :
    J .measured m (Script.here >>= f) m'
  behind {α : Type} {m m' : Mode} {f : Edge → Script α} (h : ∀ e, J .measured m (f e) m') :
    J .measured m (Script.behind >>= f) m'
  node {α : Type} {st : Stage} {m m' : Mode} {kind : NodeKind} {x : Script α}
    (hkind : kind.isRoutine) (h : J st.inside m x m') : J st m (Script.node kind x) m'
  /-- A number in a node of its own. -/
  number {l b : Bool} (h : J .inner (.seeing l b .number) take (.live true b)) :
    J .inner (.seeing l b .number) (oneWord .numberLiteral) (.live true b)
  wrap {α : Type} {m m' : Mode} {x : Script α} (h : J .inner m x m') :
    J .inner m (Script.wrap .functionCall x) m'
  /-- A node and another one around it. -/
  wrapped {α β : Type} {m m' m'' : Mode} {kind : NodeKind} {x : Script α} {y : Script β}
    (hx : J .outer m (Script.node kind x) m') (hy : J .inner m' y m'') :
    J .outer m (Script.node kind x >>= fun _ => Script.wrap .functionCall y) m''
  nested {α : Type} {st : Stage} {m m' : Mode} {x : Script α} (h : J st m x m') :
    J st m (within .nested x) m'
  measured {α : Type} {m m' : Mode} {x : Script α} (h : J .measured m x m') :
    J .inner m (within .measured x) m'
  /-- A word in error has been found by the lexer. -/
  error {α : Type} {st : Stage} {s b : Bool} {m : Mode} {x : Script α}
    (h : J st (.word s true .error) x m) : J st (.word s b .error) x m
  expression {l b : Bool} (power : Nat) :
    J .inner (.live l b) (expressionFrom power) (.live false b)
  lineEnd {st : Stage} {l b : Bool} : J st (.live l b) Grammar.lineEnd (.live true b)

/-- Rules for what may depend on the text of a word. -/
structure TextRules : Prop extends LineRules J where
  text {α : Type} {st : Stage} {l b : Bool} {k : TokenKind} {m : Mode} {f : List Char → Script α}
    (h : ∀ cs, J st (.seeing l b k) (f cs) m) : J st (.seeing l b k) (Script.text >>= f) m

/-- Rules for operations, and for what is skipped where the nesting is too deep. -/
structure OperationRules : Prop extends LineRules J where
  unary {α : Type} {m m' : Mode} {x : Script α} (h : J .inner m x m') :
    J .inner m (Script.node .unaryExpr x) m'
  /-- An infix operator that is seen, and the operand behind it. -/
  binary {b : Bool} {k : TokenKind} {left right : Nat} (hk : k.infixPower? = some (left, right)) :
    J .inner (.seeing false b k) (Script.wrap .binaryExpr (do take; expressionFrom right))
      (.live false b)
  skipDeepExpression {l b : Bool} :
    J .inner (.live l b) Grammar.skipDeepExpression (.live false b)

/-- Rules for what goes over several lines, and for problems between edges. -/
structure BlockRules : Prop extends LineRules J where
  statement {s b : Bool} {k : TokenKind} : J .outer (.word s b k) Script.statement (.live true false)
  blockBody {b : Bool} {stops : List TokenKind} (h : ∀ k ∈ stops, k.closes) :
    J .inner (.live true b) (Grammar.blockBody stops) .body
  current_body {α : Type} {st : Stage} {m : Mode} {f : Option TokenKind → Script α}
    (hnone : J st .body (f none) m) (hsome : ∀ k, J st (.word true false k) (f (some k)) m) :
    J st .body (Script.current >>= f) m
  terminator (kind opener : TokenKind) :
    J .inner .body (Grammar.terminator kind opener) (.live true false)
  /-- A problem at a word that ends no open block. -/
  unlessAtStop {α : Type} {st : Stage} {k : TokenKind} {m : Mode} {cause : Cause} {x y : Script α}
    (hcause : cause.isRoutine) (hx : J st (.word true false k) x m)
    (hy : J st (.word true true k) y m) :
    J st (.word true false k)
      (do if ← Script.atStop then x else report .word cause >>= fun _ => y) m
  scanArguments {b : Bool} (instruction : TokenKind) (least most : Nat) :
    J .inner (.live true b) (Grammar.scanArguments instruction least most) (.live false b)
  tableArguments {b : Bool} (instruction : TokenKind) (least most : Nat) :
    J .inner (.live true b)
      (within .measured do let _ ← instructionArguments instruction least most) (.live false b)
  closingVariable {b : Bool} (name? : Option (List Char)) :
    J .inner (.live true b) (Grammar.closingVariable name?) (.live false b)

/-- Rules for the two choices that look ahead, for the loops whose variable is named twice, and for the
scans whose units are named. -/
structure StatementRules : Prop extends BlockRules J where
  forLoop {s b : Bool} : J .outer (.word s b .kwFor) Grammar.forLoop (.live true false)
  scanStatement {s b : Bool} : J .outer (.word s b .kwScan) Grammar.scanStatement (.live true false)
  subScanStatement {s b : Bool} :
    J .outer (.word s b .kwSubScan) Grammar.subScanStatement (.live true false)
  ifStatement {s b : Bool} : J .outer (.word s b .kwIf) Grammar.ifStatement (.live true false)
  assignmentOrInstruction {s b : Bool} :
    J .outer (.word s b .ident) Grammar.assignmentOrInstruction (.live true false)

end Rules

end Grammar

end CRBasic
