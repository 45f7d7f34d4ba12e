import CRBasic.Proofs.Embedding.Alike
import CRBasic.Proofs.Tree.Layout
import CRBasic.Tree.Node

/-!
# Blocks of a tree

The nodes that need a word to end them, in the order in which they end (`Tree.blocks`).  An `If` on one
line needs none: what follows its `Then` on the line tells it from an `If` block (`Tree.onOneLine`).
-/

namespace CRBasic

/-- The words that end blocks. -/
def TokenKind.isTerminator : TokenKind → Bool
  | .kwEndProg | .kwEndFunction | .kwEndSub | .kwEndIf | .kwNext | .kwWend | .kwLoop | .kwEndSelect
  | .kwNextScan | .kwNextSubScan | .kwEndSequence | .kwEndMenu | .kwEndSubMenu | .kwEndTable
  | .kwEndConstTable | .ppEndIf => true
  | _ => false

namespace NodeKind

/-- The word that ends a block of the given kind, and the word that opens it. -/
def ends? : NodeKind → Option (TokenKind × TokenKind)
  | .program => some (.kwEndProg, .kwBeginProg)
  | .functionDecl => some (.kwEndFunction, .kwFunction)
  | .subDecl => some (.kwEndSub, .kwSub)
  | .ifStmt => some (.kwEndIf, .kwIf)
  | .forLoop => some (.kwNext, .kwFor)
  | .whileLoop => some (.kwWend, .kwWhile)
  | .doLoop => some (.kwLoop, .kwDo)
  | .selectStmt => some (.kwEndSelect, .kwSelect)
  | .scanStmt => some (.kwNextScan, .kwScan)
  | .subScanStmt => some (.kwNextSubScan, .kwSubScan)
  | .slowSequenceStmt => some (.kwEndSequence, .kwSlowSequence)
  | .menuStmt => some (.kwEndMenu, .kwDisplayMenu)
  | .subMenuStmt => some (.kwEndSubMenu, .kwSubMenu)
  | .dataTableStmt => some (.kwEndTable, .kwDataTable)
  | .constTableDecl => some (.kwEndConstTable, .kwConstTable)
  | .preprocessorIf => some (.ppEndIf, .ppIf)
  | .preprocessorIfDef => some (.ppEndIf, .ppIfDef)
  | _ => none

/-- Whether a statement list in a node of the given kind is a branch that an `Else` may end. -/
def hasBranch : NodeKind → Bool
  | .ifStmt | .elseIfClause => true
  | _ => false

end NodeKind

namespace Tree

/-- Whether a tree is a statement list. -/
def isBody (t : Tree) : Bool := t.kind == .node .stmtList

/-- Whether an `If` with the given parts stands on one line: the word after its head is on the line of
the head, and is the first word of the body, or an `Else` that ends no branch around. -/
def onOneLine (inBranch : Bool) (children : List Tree) : Bool :=
  let head := children.takeWhile (!isBody ·)
  let words := Word.ofLexemes true (leavesOfAll children)
  match children.dropWhile (!isBody ·), words.drop (Lexeme.words (leavesOfAll head)).length with
  | body :: _, w :: _ =>
    !w.startsLine && (!(Lexeme.words body.leaves).isEmpty || (!inBranch && w.kind == .kwElse))
  | _, _ => false

mutual

/-- The blocks of a tree that starts at an offset, each after those inside it.  The flag tells whether
an `Else` may end the statements that the tree is among. -/
def blocks (inBranch : Bool) (start : Nat) : Tree → List Node
  | leaf _ _ => []
  | node kind children =>
    blocksOfAll kind inBranch start children ++
      if kind.ends?.isNone || (kind == .ifStmt && onOneLine inBranch children) then []
      else [⟨start, kind, children⟩]

/-- The blocks of the parts of a node of the given kind. -/
def blocksOfAll (parent : NodeKind) (inBranch : Bool) (start : Nat) : List Tree → List Node
  | [] => []
  | t :: ts =>
    t.blocks (inBranch || (parent.hasBranch && t.isBody)) start ++
      blocksOfAll parent inBranch (start + t.width) ts

end

/-! ### Which nodes are blocks -/

variable {n : Node} {inBranch : Bool} {start : Nat}

mutual

theorem mem_nodes_of_mem_blocks : ∀ (t : Tree) {inBranch : Bool} {start : Nat},
    n ∈ t.blocks inBranch start → n ∈ t.nodes start ∧ n.kind.ends?.isSome
  | leaf _ _, _, _, hn => by cases hn
  | node kind children, inBranch, start, hn => by
    rcases List.mem_append.1 hn with hn | hn
    · obtain ⟨hnodes, hends⟩ := mem_nodesOfAll_of_mem_blocksOfAll children hn
      exact ⟨List.mem_cons_of_mem _ hnodes, hends⟩
    · split at hn
      · cases hn
      · next hkind =>
        obtain rfl := List.mem_singleton.1 hn
        rw [Bool.or_eq_true, not_or, Option.isNone_iff_eq_none] at hkind
        exact ⟨List.mem_cons_self, Option.isSome_iff_ne_none.2 hkind.1⟩

theorem mem_nodesOfAll_of_mem_blocksOfAll : ∀ (ts : List Tree) {parent : NodeKind} {inBranch : Bool}
    {start : Nat}, n ∈ blocksOfAll parent inBranch start ts →
      n ∈ nodesOfAll start ts ∧ n.kind.ends?.isSome
  | [], _, _, _, hn => by cases hn
  | t :: ts, _, _, _, hn => by
    rcases List.mem_append.1 hn with hn | hn
    · obtain ⟨hnodes, hends⟩ := mem_nodes_of_mem_blocks t hn
      exact ⟨List.mem_append_left _ hnodes, hends⟩
    · obtain ⟨hnodes, hends⟩ := mem_nodesOfAll_of_mem_blocksOfAll ts hn
      exact ⟨List.mem_append_right _ hnodes, hends⟩

end

theorem ends?_of_mem_blocks {t : Tree} (hn : n ∈ t.blocks inBranch start) : n.kind.ends?.isSome :=
  (mem_nodes_of_mem_blocks t hn).2

mutual

/-- Only an `If` may be a block that needs no word to end it. -/
theorem mem_blocks_of_mem_nodes (hends : n.kind.ends?.isSome) (hkind : n.kind ≠ .ifStmt) :
    ∀ (t : Tree) (inBranch : Bool) {start : Nat}, n ∈ t.nodes start → n ∈ t.blocks inBranch start
  | leaf _ _, _, _, hn => by cases hn
  | node kind children, inBranch, start, hn => by
    rcases List.mem_cons.1 hn with rfl | hn
    · refine List.mem_append_right _ ?_
      have hneeds : ¬ (kind.ends?.isNone || (kind == .ifStmt && onOneLine inBranch children)) = true := by
        have hsome : kind.ends?.isNone = false := by
          rw [Option.isNone_eq_false_iff]
          exact hends
        have hif : (kind == .ifStmt) = false := beq_false_of_ne hkind
        simp [hsome, hif]
      rw [if_neg hneeds]
      exact List.mem_singleton_self _
    · exact List.mem_append_left _
        (mem_blocksOfAll_of_mem_nodesOfAll hends hkind children kind inBranch hn)

theorem mem_blocksOfAll_of_mem_nodesOfAll (hends : n.kind.ends?.isSome) (hkind : n.kind ≠ .ifStmt) :
    ∀ (ts : List Tree) (parent : NodeKind) (inBranch : Bool) {start : Nat},
      n ∈ nodesOfAll start ts → n ∈ blocksOfAll parent inBranch start ts
  | [], _, _, _, hn => by cases hn
  | t :: ts, parent, inBranch, start, hn => by
    rcases List.mem_append.1 hn with hn | hn
    · exact List.mem_append_left _ (mem_blocks_of_mem_nodes hends hkind t _ hn)
    · exact List.mem_append_right _
        (mem_blocksOfAll_of_mem_nodesOfAll hends hkind ts parent inBranch hn)

end

end Tree

namespace Node

/-- Whether the word that ends a block is one of its parts. -/
def isClosed (n : Node) : Bool :=
  n.words.any fun x => n.kind.ends?.any (·.1 == x.kind)

/-- The problem of a block that has not ended. -/
def unclosed? (n : Node) : Option Cause :=
  if n.isClosed then none else n.kind.ends?.map fun (kind, opener) => .unclosedBlock kind opener

end Node

end CRBasic
