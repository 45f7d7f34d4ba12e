import CRBasic.Parsing.Script
import CRBasic.Proofs.Lexer.Case

/-!
# Parses of texts in lower case

A parse looks at the kinds of words.  So a step on words in lower case is the step in lower case
(`perform_lowered`, `begin_lowered`, `leave_lowered`), and all questions but one have the same answer
(`answer_lowered`).
-/

namespace CRBasic

namespace Word

/-- A word in lower case. -/
def lowered (w : Word) : Word := ⟨w.kind, CRBasic.lowered w.text, w.startsLine⟩

theorem ofLexemes_lowered (startsLine : Bool) (xs : List Lexeme) :
    ofLexemes startsLine (xs.map Lexeme.lowered) = (ofLexemes startsLine xs).map lowered := by
  induction xs generalizing startsLine with
  | nil => rfl
  | cons x xs ih =>
    have hkind : x.lowered.kind = x.kind := rfl
    simp only [List.map_cons, ofLexemes, hkind, ih]
    split <;> rfl

theorem line_lowered (ws : List Word) : line (ws.map lowered) = (line ws).map lowered := by
  cases ws with
  | nil => rfl
  | cons w ws =>
    rw [List.map_cons, line, line, List.takeWhile_map, List.map_cons]
    rfl

theorem assignsBefore_lowered (isStop : TokenKind → Bool) (depth : Nat) (ws : List Word) :
    assignsBefore isStop depth (ws.map lowered) = assignsBefore isStop depth ws := by
  induction ws generalizing depth with
  | nil => rfl
  | cons w ws ih =>
    have hkind : w.lowered.kind = w.kind := rfl
    simp only [List.map_cons, assignsBefore, hkind, ih]

end Word

/-- A cause with its names in lower case. -/
def Cause.lowered : Cause → Cause
  | .loopVariableMismatch expected found =>
    .loopVariableMismatch (CRBasic.lowered expected) (CRBasic.lowered found)
  | cause => cause

/-- A report with its names in lower case. -/
def Report.lowered (r : Report) : Report := ⟨r.cause.lowered, r.start, r.stop⟩

namespace Parsing

/-- An action that reports names in lower case. -/
def Action.lowered : Action → Action
  | .report place cause => .report place cause.lowered
  | a => a

/-- Whether a question is for the text of a word. -/
def Query.isText : {α : Type} → Query α → Bool
  | _, .text => true
  | _, _ => false

namespace Reading

/-- What is read and found, with all words and names in lower case. -/
def lowered (s : Reading) : Reading :=
  { s with rest := s.rest.map Word.lowered, reports := s.reports.map Report.lowered }

theorem current_lowered (s : Reading) : s.lowered.current = s.current := by
  rw [current, current, lowered, List.head?_map, Option.map_map]
  rfl

theorem onLine_lowered (s : Reading) : s.lowered.onLine = s.onLine := by
  unfold onLine lowered
  cases s.rest <;> rfl

theorem secondOnLine_lowered (s : Reading) : s.lowered.secondOnLine = s.secondOnLine := by
  unfold secondOnLine lowered
  match s.rest with
  | [] => rfl
  | [_] => rfl
  | _ :: _ :: _ => rfl

theorem text_lowered (s : Reading) : s.lowered.text = CRBasic.lowered s.text := by
  unfold text lowered
  cases s.rest <;> rfl

theorem atAssignment_lowered (s : Reading) : s.lowered.atAssignment = s.atAssignment := by
  rw [atAssignment, lowered, Word.line_lowered, Word.assignsBefore_lowered]
  rfl

theorem answer_lowered (s : Reading) {α : Type} {q : Query α} (hq : q.isText = false) :
    s.lowered.answer q = s.answer q := by
  cases q with
  | current => exact s.current_lowered
  | onLine => exact s.onLine_lowered
  | secondOnLine => exact s.secondOnLine_lowered
  | text => cases hq
  | atStop => exact congrArg (Option.any s.isStop) s.current_lowered
  | atAssignment => exact s.atAssignment_lowered
  | tooDeep => rfl
  | singleLineIf => rfl
  | here =>
    simp only [answer, onLine_lowered]
    rfl
  | behind => rfl

theorem report_lowered (s : Reading) (place : Place) (cause : Cause) :
    (s.report place cause).lowered = s.lowered.report place cause.lowered := by
  have hedges : s.lowered.edges place = s.edges place := by
    cases place with
    | here =>
      simp only [edges, onLine_lowered]
      rfl
    | word => rfl
    | between start stop => rfl
  have hsilenced : s.lowered.silenced = s.silenced := rfl
  rw [report, report, hsilenced, hedges]
  split
  · rfl
  · simp [lowered, Report.lowered]

end Reading

namespace State

/-- A stage of a parse with all words and names in lower case. -/
def lowered (s : State) : State := { s with toReading := s.toReading.lowered }

theorem perform_lowered (s : State) (a : Action) :
    (Machine.perform s a).lowered = Machine.perform s.lowered a.lowered := by
  cases a with
  | take =>
    change s.take.lowered = s.lowered.take
    unfold take
    cases hrest : s.rest <;> simp [lowered, Reading.lowered, hrest, Word.lowered]
  | report place cause =>
    exact congrArg (State.mk · s.events s.latest) (s.report_lowered place cause)
  | silence => rfl
  | listen => rfl

theorem begin_lowered (s : State) (scope : Scope) :
    Machine.begin s.lowered scope =
      ((Machine.begin s scope).1, (Machine.begin s scope).2.lowered) := by
  cases scope with
  | wrap kind =>
    have hopen : s.lowered.openAround = s.openAround.lowered := by
      unfold openAround
      cases hlatest : s.latest <;> simp [lowered, hlatest, openNode]
    exact Prod.ext rfl hopen
  | _ => rfl

theorem leave_lowered (s : State) (mark : Nat) (scope : Scope) :
    (Machine.leave s mark scope).lowered = Machine.leave s.lowered mark scope := by
  cases scope <;> rfl

end State

end Parsing

end CRBasic
