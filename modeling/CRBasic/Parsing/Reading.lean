import CRBasic.Node.Kind
import CRBasic.Parsing.Word
import CRBasic.Diagnostic

/-!
# Reading

What a parse has read and found, apart from what it builds: the words that are left, the problems so
far, the words that end the open blocks, and how deep the nesting is.  The single steps that a
grammar may take are questions (`Query`), changes (`Action`), and things that hold for a stretch of
the parse (`Scope`).  A `Machine` is anything that can take these steps.
-/

namespace CRBasic

/-- What the user may choose. -/
structure ParseOptions where
  /-- How deep blocks, parentheses and signs may nest.  What lies deeper is reported and skipped to
  the end of its line. -/
  maxDepth : Nat := 256
  /-- Whether `If c Then statement` may stand on one line without `EndIf`. -/
  singleLineIf : Bool := true
  deriving DecidableEq, Repr

/-- A problem with a place told by counting words. -/
structure Report where
  cause : Cause
  /-- Where the place starts. -/
  start : Edge
  /-- Where the place ends, unless that is before its start. -/
  stop : Edge
  deriving DecidableEq, Repr

/-- The problem in bytes, from the ranges of the words and the length of the text. -/
def Report.toProblem (ranges : Array ByteRange) (size : Nat) (r : Report) : Problem :=
  let start := r.start.offset ranges size
  ⟨r.cause, start, max start (r.stop.offset ranges size)⟩

namespace Parsing

/-- What a grammar may ask, with the type of the answer. -/
inductive Query : Type → Type where
  /-- The kind of the next word; none at the end of the text. -/
  | current : Query (Option TokenKind)
  /-- The kind of the next word, if it does not start a line. -/
  | onLine : Query (Option TokenKind)
  /-- The kind of the word after the next one, if it does not start a line. -/
  | secondOnLine : Query (Option TokenKind)
  /-- The text of the next word. -/
  | text : Query (List Char)
  /-- Whether the next word ends the statements of an open block. -/
  | atStop : Query Bool
  /-- Whether the next word starts an assignment. -/
  | atAssignment : Query Bool
  /-- Whether the nesting has reached its limit. -/
  | tooDeep : Query Bool
  /-- Whether a one-line `If` is allowed. -/
  | singleLineIf : Query Bool
  /-- The start of the next word if it is on this line, else the end of the words taken.  Counted
  from the start of the innermost measured stretch. -/
  | here : Query Edge
  /-- The end of the words taken, counted like `here`. -/
  | behind : Query Edge

/-- Where to report a problem. -/
inductive Place where
  /-- The next word if it is on this line, else just after the words taken. -/
  | here
  /-- The next word, on whatever line; at the end of the text, that end. -/
  | word
  /-- Between two edges of the innermost measured stretch. -/
  | between (start stop : Edge)
  deriving DecidableEq, Repr

/-- A change of the state. -/
inductive Action where
  /-- Takes the next word, if there is one, into the open node. -/
  | take
  /-- Reports a problem, unless problems are passed over. -/
  | report (place : Place) (cause : Cause)
  /-- Passes over problems from here on. -/
  | silence
  /-- Reports problems again. -/
  | listen
  deriving DecidableEq, Repr

/-- Something that holds for a stretch of the parse. -/
inductive Scope where
  /-- The words taken make up a node. -/
  | node (kind : NodeKind)
  /-- The node that ended last and the words taken make up a node. -/
  | wrap (kind : NodeKind)
  /-- Words of the given kinds end the statements of a block. -/
  | stopAt (kinds : List TokenKind)
  /-- The nesting is one deeper. -/
  | nested
  /-- Edges are counted from here. -/
  | measured
  deriving DecidableEq, Repr

/-- What takes the steps of a grammar.  For each stretch that has begun it keeps a mark. -/
class Machine (σ : Type) (Mark : outParam Type) where
  /-- The answer to a query. -/
  answer {α : Type} (s : σ) (q : Query α) : α
  /-- The state after an action. -/
  perform (s : σ) (a : Action) : σ
  /-- The mark of a stretch that begins, and the state at its start. -/
  begin (s : σ) (scope : Scope) : Mark × σ
  /-- The state after a stretch with the given mark. -/
  leave (s : σ) (mark : Mark) (scope : Scope) : σ

/-- What a parse has read and found. -/
structure Reading where
  options : ParseOptions
  /-- The words not yet taken. -/
  rest : List Word
  /-- The number of words taken. -/
  taken : Nat := 0
  /-- The problems so far. -/
  reports : Array Report := #[]
  /-- For each open block, innermost first, the kinds of the words that end its statements. -/
  frames : List (List TokenKind) := []
  /-- How many blocks, parentheses, signs and operands enclose the current place. -/
  depth : Nat := 0
  /-- Whether problems are passed over, as after the nesting limit inside a statement. -/
  silenced : Bool := false
  /-- For each measured stretch, innermost first, the number of words taken before it. -/
  origins : List Nat := []

namespace Reading

/-! ### Queries -/

def current (s : Reading) : Option TokenKind := s.rest.head?.map (·.kind)

def onLine (s : Reading) : Option TokenKind :=
  match s.rest with
  | [] => none
  | w :: _ => if w.startsLine then none else some w.kind

def secondOnLine (s : Reading) : Option TokenKind :=
  match s.rest with
  | _ :: w :: _ => if w.startsLine then none else some w.kind
  | _ => none

def text (s : Reading) : List Char := (s.rest.head?.map (·.text)).getD []

/-- Whether a kind ends the statements of an open block. -/
def isStop (s : Reading) (k : TokenKind) : Bool := s.frames.any (·.contains k)

def atStop (s : Reading) : Bool := s.current.any s.isStop

/-- Whether an assignment operator follows on the line of the next word before anything that ends
an open block. -/
def atAssignment (s : Reading) : Bool := Word.assignsBefore s.isStop 0 (Word.line s.rest)

def tooDeep (s : Reading) : Bool := s.options.maxDepth ≤ s.depth

/-- The number of words taken before the innermost measured stretch. -/
def origin (s : Reading) : Nat := s.origins.headD 0

/-- The number of words taken in the innermost measured stretch. -/
def measuredWords (s : Reading) : Nat := s.taken - s.origin

def answer (s : Reading) : {α : Type} → Query α → α
  | _, .current => s.current
  | _, .onLine => s.onLine
  | _, .secondOnLine => s.secondOnLine
  | _, .text => s.text
  | _, .atStop => s.atStop
  | _, .atAssignment => s.atAssignment
  | _, .tooDeep => s.tooDeep
  | _, .singleLineIf => s.options.singleLineIf
  | _, .here => if s.onLine.isSome then .startAfter s.measuredWords else .endOf s.measuredWords
  | _, .behind => .endOf s.measuredWords

/-! ### Problems -/

/-- The two edges of a place. -/
def edges (s : Reading) : Place → Edge × Edge
  | .here =>
    if s.onLine.isSome then (.startAfter s.taken, .endOf (s.taken + 1))
    else (.endOf s.taken, .endOf s.taken)
  | .word => (.startAfter s.taken, .endOf (s.taken + 1))
  | .between start stop => (start.shift s.origin, stop.shift s.origin)

def report (s : Reading) (place : Place) (cause : Cause) : Reading :=
  if s.silenced then s
  else
    let (start, stop) := s.edges place
    { s with reports := s.reports.push ⟨cause, start, stop⟩ }

section Report

variable (s : Reading) (place : Place) (cause : Cause)

/-- A report changes nothing but the problems. -/
theorem report_eq : s.report place cause = { s with reports := (s.report place cause).reports } := by
  unfold report
  split <;> rfl

@[simp] theorem rest_report : (s.report place cause).rest = s.rest := by
  rw [report_eq]

@[simp] theorem taken_report : (s.report place cause).taken = s.taken := by
  rw [report_eq]

@[simp] theorem frames_report : (s.report place cause).frames = s.frames := by
  rw [report_eq]

@[simp] theorem silenced_report : (s.report place cause).silenced = s.silenced := by
  rw [report_eq]

end Report

/-! ### Scopes -/

/-- What is read and found, at the start of a stretch. -/
def enter (s : Reading) : Scope → Reading
  | .node _ | .wrap _ => s
  | .stopAt kinds => { s with frames := kinds :: s.frames }
  | .nested => { s with depth := s.depth + 1 }
  | .measured => { s with origins := s.taken :: s.origins }

/-- What is read and found, after a stretch. -/
def leave (s : Reading) : Scope → Reading
  | .node _ | .wrap _ => s
  | .stopAt _ => { s with frames := s.frames.tail }
  | .nested => { s with depth := s.depth - 1 }
  | .measured => { s with origins := s.origins.tail }

end Reading

end Parsing

end CRBasic
