import CRBasic.Parsing.State

/-!
# Parsing scripts

The grammar is written as scripts: programs of queries, actions, stretches, repetitions and calls of
the two recursive rules.  A script is data.  Running it on a machine is one recursive function, so
what every step of a parse preserves need only be shown of the steps, and holds of all scripts by
induction.

Running is by fuel: `fuel` bounds how deep rules call each other and how often an item repeats.  A
run that needs more has no result.
-/

namespace CRBasic

namespace Parsing

/-- The recursive rules of the grammar. -/
inductive Rule where
  /-- One statement. -/
  | statement
  /-- An expression whose infix operators have at least the given left power. -/
  | expression (power : Nat)
  deriving DecidableEq, Repr

/-- A program of steps with a result. -/
inductive Script : Type → Type 1 where
  /-- Ends with a result. -/
  | done {α : Type} (a : α) : Script α
  /-- Asks, and goes on with the answer. -/
  | ask {α β : Type} (q : Query β) (next : β → Script α) : Script α
  /-- Changes the state. -/
  | act {α : Type} (a : Action) (next : Unit → Script α) : Script α
  /-- Runs a script as a stretch of its own. -/
  | during {α β : Type} (scope : Scope) (body : Script β) (next : β → Script α) : Script α
  /-- Runs a script again and again until it has no result, and collects the results. -/
  | many {α β : Type} (item : Script (Option β)) (next : List β → Script α) : Script α
  /-- Calls a rule. -/
  | call {α : Type} (rule : Rule) (next : Unit → Script α) : Script α

namespace Script

/-- Goes on with another script when one is done. -/
def bind {α β : Type} : Script α → (α → Script β) → Script β
  | .done a, f => f a
  | .ask q next, f => .ask q fun b => (next b).bind f
  | .act a next, f => .act a fun u => (next u).bind f
  | .during scope body next, f => .during scope body fun b => (next b).bind f
  | .many item next, f => .many item fun bs => (next bs).bind f
  | .call rule next, f => .call rule fun u => (next u).bind f

instance : Monad Script where
  pure := .done
  bind := .bind

theorem bind_done {α : Type} (x : Script α) : x.bind .done = x := by
  induction x with
  | done a => rfl
  | ask q next ih => exact congrArg (Script.ask q) (funext ih)
  | act a next ih => exact congrArg (Script.act a) (funext ih)
  | during scope body next _ ih => exact congrArg (Script.during scope body) (funext ih)
  | many item next _ ih => exact congrArg (Script.many item) (funext ih)
  | call rule next ih => exact congrArg (Script.call rule) (funext ih)

theorem bind_assoc {α β γ : Type} (x : Script α) (f : α → Script β) (g : β → Script γ) :
    (x.bind f).bind g = x.bind fun a => (f a).bind g := by
  induction x with
  | done a => rfl
  | ask q next ih => exact congrArg (Script.ask q) (funext fun b => ih b f)
  | act a next ih => exact congrArg (Script.act a) (funext fun u => ih u f)
  | during scope body next _ ih =>
    exact congrArg (Script.during scope body) (funext fun b => ih b f)
  | many item next _ ih => exact congrArg (Script.many item) (funext fun bs => ih bs f)
  | call rule next ih => exact congrArg (Script.call rule) (funext fun u => ih u f)

instance : LawfulMonad Script :=
  LawfulMonad.mk' Script (fun x => bind_done x) (fun _ _ => rfl) (fun x f g => bind_assoc x f g)

/-! ### Running -/

section Running

variable {σ Mark : Type}

/-- Repeats a step until it has no result, at most `fuel` times with one. -/
def repeatStep {β : Type} (step : σ → Option (Option β × σ)) : Nat → σ → Option (List β × σ)
  | 0, _ => none
  | fuel + 1, s =>
    match step s with
    | none => none
    | some (none, t) => some ([], t)
    | some (some b, t) =>
      match repeatStep step fuel t with
      | none => none
      | some (bs, u) => some (b :: bs, u)

variable [Machine σ Mark]

/-- Runs a script, given how rules run and how often an item may repeat. -/
def run (call : Rule → σ → Option σ) (fuel : Nat) {α : Type} : Script α → σ → Option (α × σ)
  | .done a, s => some (a, s)
  | .ask q next, s => (next (Machine.answer s q)).run call fuel s
  | .act a next, s => (next ()).run call fuel (Machine.perform s a)
  | .during scope body next, s =>
    match Machine.begin s scope with
    | (mark, t) =>
      match body.run call fuel t with
      | none => none
      | some (b, u) => (next b).run call fuel (Machine.leave u mark scope)
  | .many item next, s =>
    match repeatStep (item.run call fuel) fuel s with
    | none => none
    | some (bs, t) => (next bs).run call fuel t
  | .call rule next, s =>
    match call rule s with
    | none => none
    | some t => (next ()).run call fuel t

/-- Runs a rule, given the script of each rule. -/
def runRule (script : Rule → Script Unit) : Nat → Rule → σ → Option σ
  | 0, _, _ => none
  | fuel + 1, rule, s =>
    match (script rule).run (runRule script fuel) fuel s with
    | none => none
    | some ((), t) => some t

/-- Running one script after the other. -/
theorem run_bind (call : Rule → σ → Option σ) (fuel : Nat) {α β : Type} (x : Script α)
    (f : α → Script β) (s : σ) :
    (x.bind f).run call fuel s = (x.run call fuel s).bind fun r => (f r.1).run call fuel r.2 := by
  induction x generalizing s with
  | done a => rfl
  | ask q next ih => exact ih _ f s
  | act a next ih => exact ih () f _
  | during scope body next _ ih =>
    simp only [bind, run]
    cases body.run call fuel (Machine.begin s scope).2 with
    | none => rfl
    | some r => exact ih r.1 f _
  | many item next _ ih =>
    simp only [bind, run]
    cases repeatStep (item.run call fuel) fuel s with
    | none => rfl
    | some r => exact ih r.1 f _
  | call rule next ih =>
    simp only [bind, run]
    cases call rule s with
    | none => rfl
    | some t => exact ih () f _

end Running

/-! ### Single steps as scripts -/

def current : Script (Option TokenKind) := .ask .current .done

def onLine : Script (Option TokenKind) := .ask .onLine .done

def secondOnLine : Script (Option TokenKind) := .ask .secondOnLine .done

def text : Script (List Char) := .ask .text .done

def atStop : Script Bool := .ask .atStop .done

def atAssignment : Script Bool := .ask .atAssignment .done

def tooDeep : Script Bool := .ask .tooDeep .done

def singleLineIf : Script Bool := .ask .singleLineIf .done

def here : Script Edge := .ask .here .done

def behind : Script Edge := .ask .behind .done

def take : Script Unit := .act .take .done

def report (place : Place) (cause : Cause) : Script Unit := .act (.report place cause) .done

def silence : Script Unit := .act .silence .done

def listen : Script Unit := .act .listen .done

def statement : Script Unit := .call .statement .done

def expressionFrom (power : Nat) : Script Unit := .call (.expression power) .done

def within {α : Type} (scope : Scope) (body : Script α) : Script α := .during scope body .done

/-- A node. -/
def node {α : Type} (kind : NodeKind) (body : Script α) : Script α := within (.node kind) body

/-- A node around the one that ended last. -/
def wrap {α : Type} (kind : NodeKind) (body : Script α) : Script α := within (.wrap kind) body

/-- The results of an item, again and again until it has none. -/
def collect {β : Type} (item : Script (Option β)) : Script (List β) := .many item .done

/-- Runs a script as long as a test holds. -/
def whileM (test : Script Bool) (body : Script Unit) : Script Unit := do
  let _ ← collect (do
    if ← test then
      body
      return some ()
    else return none)

end Script

end Parsing

end CRBasic
