import CRBasic.Proofs.Grammar.WalkStatement

/-!
# Forms of blocks

The blocks with one body have one shape (`statementOf_opener`): a line that opens the block, the body,
and a word that ends it.  They differ in what may follow the opening word, and in what may follow the
one that ends the block.
-/

namespace CRBasic

/-- A form of block with one body. -/
inductive BlockForm where
  | program
  | function
  | subroutine
  | forLoop
  | whileLoop
  | doLoop
  | scan
  | subScan
  | slowSequence
  | displayMenu
  | subMenu
  | dataTable
  | constantTable
  deriving DecidableEq, Repr

namespace BlockForm

/-- The kind of the word that opens the block. -/
def opener : BlockForm → TokenKind
  | program => .kwBeginProg
  | function => .kwFunction
  | subroutine => .kwSub
  | forLoop => .kwFor
  | whileLoop => .kwWhile
  | doLoop => .kwDo
  | scan => .kwScan
  | subScan => .kwSubScan
  | slowSequence => .kwSlowSequence
  | displayMenu => .kwDisplayMenu
  | subMenu => .kwSubMenu
  | dataTable => .kwDataTable
  | constantTable => .kwConstTable

/-- The kind of the word that ends the block. -/
def terminator : BlockForm → TokenKind
  | program => .kwEndProg
  | function => .kwEndFunction
  | subroutine => .kwEndSub
  | forLoop => .kwNext
  | whileLoop => .kwWend
  | doLoop => .kwLoop
  | scan => .kwNextScan
  | subScan => .kwNextSubScan
  | slowSequence => .kwEndSequence
  | displayMenu => .kwEndMenu
  | subMenu => .kwEndSubMenu
  | dataTable => .kwEndTable
  | constantTable => .kwEndConstTable

/-- The kind of the block's node. -/
def kind : BlockForm → NodeKind
  | program => .program
  | function => .functionDecl
  | subroutine => .subDecl
  | forLoop => .forLoop
  | whileLoop => .whileLoop
  | doLoop => .doLoop
  | scan => .scanStmt
  | subScan => .subScanStmt
  | slowSequence => .slowSequenceStmt
  | displayMenu => .menuStmt
  | subMenu => .subMenuStmt
  | dataTable => .dataTableStmt
  | constantTable => .constTableDecl

theorem closes_terminator (form : BlockForm) : form.terminator.closes := by
  cases form <;> rfl

/-- No block of these forms is a branch. -/
theorem terminator_ne_else (form : BlockForm) : form.terminator ≠ .kwElse := by
  cases form <;> nofun

open Parsing Script Grammar

/-- An argument list, if there is one. -/
def optionalArguments : Script Unit := do
  if (← onLine) == some .lParen then arguments

/-- What follows the opening word on its line.  The result is the name of a loop variable. -/
def head : BlockForm → Script (Option (List Char))
  | program | slowSequence => return none
  | function => do
    procedureHeader .functionName
    typeAnnotation
    return none
  | subroutine => do
    procedureHeader .subroutineName
    return none
  | forLoop => do
    let name? ← loopVariable
    loopBounds
    return name?
  | whileLoop => do
    expression
    return none
  | doLoop => do
    loopCondition
    return none
  | scan => do
    scanArguments .kwScan 4 4
    return none
  | subScan => do
    scanArguments .kwSubScan 2 3
    return none
  | displayMenu | subMenu | constantTable => do
    optionalArguments
    return none
  | dataTable => do
    within .measured do
      let _ ← instructionArguments .kwDataTable 3 3
    return none

/-- What may follow the word that ends the block. -/
def closing : BlockForm → Option (List Char) → Script Unit
  | forLoop, name? => closingVariable name?
  | doLoop, _ => loopCondition
  | _, _ => pure ()

/-- The line that opens a block. -/
def opening (form : BlockForm) : Script (Option (List Char)) := do
  take
  let name? ← form.head
  lineEnd
  return name?

/-- The end of a block. -/
def ending (form : BlockForm) (name? : Option (List Char)) : Script Unit := do
  if ← Grammar.terminator form.terminator form.opener then
    form.closing name?
    lineEnd

theorem optionalArguments_bind (opener kind : TokenKind) :
    (optionalArguments >>= fun _ => blockTail opener kind) =
      (do if (← onLine) == some .lParen then arguments
          blockTail opener kind) := by
  rw [optionalArguments, LawfulMonad.bind_assoc]
  congr 1
  funext k
  split <;> rfl

/-- All forms have one shape. -/
theorem statementOf_opener (form : BlockForm) :
    statementOf form.opener = node form.kind (do
      let name? ← form.opening
      blockBody [form.terminator]
      form.ending name?) := by
  have hmenu (form : BlockForm) (hhead : form.head = (do optionalArguments; return none))
      (hclosing : form.closing none = pure ()) :
      menu form.kind form.opener form.terminator = node form.kind (do
        let name? ← form.opening
        blockBody [form.terminator]
        form.ending name?) := by
    simp only [opening, ending, hhead, LawfulMonad.bind_assoc, LawfulMonad.pure_bind, hclosing]
    exact congrArg (fun x => node _ (take >>= fun _ => x)) (optionalArguments_bind _ _).symm
  cases form with
  | displayMenu => exact hmenu displayMenu rfl rfl
  | subMenu => exact hmenu subMenu rfl rfl
  | constantTable => exact hmenu constantTable rfl rfl
  | _ => simp only [opening, head, LawfulMonad.bind_assoc]; rfl

/-- The line that opens a block by rules, given those for arguments with problems of their own. -/
theorem walk_head {J : Judgement} (h : TextRules J) {b : Bool}
    (hscan : ∀ instruction least most, J .inner (.live true b)
      (scanArguments instruction least most) (.live false b))
    (htable : ∀ instruction least most, J .inner (.live true b)
      (within .measured do let _ ← instructionArguments instruction least most) (.live false b))
    (form : BlockForm) : J .inner (.live true b) form.head (.live false b) := by
  have hlines := h.toLineRules
  have hnone {l : Bool} : J .inner (.live l b) (return none : Script (Option (List Char)))
      (.live false b) := h.post .quiet (h.pure none)
  have harguments : J .inner (.live true b)
      (do optionalArguments; return none : Script (Option (List Char))) (.live false b) := by
    have hoptional : J .inner (.live true b) optionalArguments (.live false b) :=
      h.ifOnLine (walk_arguments hlines) (h.post .quiet (h.pure ()))
    exact h.bind hoptional fun _ => hnone
  cases form with
  | program => exact hnone
  | slowSequence => exact hnone
  | function =>
    exact h.bind (walk_procedureHeader hlines _) fun _ => h.bind (walk_asType hlines) fun _ => hnone
  | subroutine => exact h.bind (walk_procedureHeader hlines _) fun _ => hnone
  | forLoop =>
    exact h.bind (walk_loopVariable h) fun name? => h.bind (walk_loopBounds hlines) fun _ => h.pure name?
  | whileLoop => exact h.bind (h.expression 0) fun _ => hnone
  | doLoop => exact h.bind (walk_loopCondition hlines) fun _ => hnone
  | scan => exact h.bind (hscan _ _ _) fun _ => hnone
  | subScan => exact h.bind (hscan _ _ _) fun _ => hnone
  | displayMenu => exact harguments
  | subMenu => exact harguments
  | constantTable => exact harguments
  | dataTable => exact h.bind (htable _ _ _) fun _ => hnone

end BlockForm

end CRBasic
