import CRBasic.Proofs.Expression.RoundTrip
import CRBasic.Proofs.Nesting.Height
import CRBasic.Proofs.Nesting.Stages

/-!
# The nesting limit

The limit bounds the depth of every stage of a parse, and the blocks, parentheses and signs on every
path in the tree (`nesting_within_limit`).  It bounds the length of the paths as well, apart from steps
to the left side of an infix operation (`countP_not_toLeft_le`): a chain of operators leads as far to
the left as one likes (`not_exists_bound`).
-/

namespace CRBasic

open Parsing

/-! ### What nests -/

theorem Parsing.Budget.stepCost_nests (s : Tree.Step) :
    Budget.nests.stepCost s = if s.kind.nests then 1 else 0 := by
  have hbinary : NodeKind.nests .binaryExpr = false := rfl
  unfold Budget.stepCost Budget.leftCost Budget.cost
  by_cases hkind : s.kind = .binaryExpr
  · simp [hkind, hbinary, Budget.nests]
  · simp [hkind, Budget.nests]

/-- The nesting limit holds.  At no point of a parse the depth exceeds it.  Rules that call each other
in a circle nest on the way, and so does every block, parenthesis and sign: on no path in the tree
there are more of these than the limit. -/
theorem nesting_within_limit (options : ParseOptions) (source : List Char) :
    (∀ s ∈ stages options (Word.ofLexemes true (lexemes source)), s.depth ≤ options.maxDepth) ∧
      (∀ rule, ¬ Relation.TransGen CallsFlat rule rule) ∧
      ∀ path, (parseWith options source).tree.Path path →
        path.countP (·.kind.nests) ≤ options.maxDepth := by
  refine ⟨fun s hs => depth_le_of_mem_stages _ _ hs, not_transGen_callsFlat, fun path hpath => ?_⟩
  have hcost := totalCost_path_le Budget.sound_nests hpath
  rw [Tree.totalCost_eq_countP Budget.stepCost_nests] at hcost
  exact Nat.le_trans hcost (Nat.le_of_eq (Nat.zero_add _))

/-! ### Chains of operators -/

namespace Term

theorem longestMatch_one : Lexer.longestMatch ['1'] = some (.number, ['1'].length) := by
  decide +kernel

/-- A number. -/
def one : Term := .number ⟨['1'], longestMatch_one⟩

/-- A sum of numbers, added up from the left. -/
def chain : Nat → Term
  | 0 => one
  | n + 1 => .binary ⟨.plus, 1, rfl⟩ (chain n) one

theorem one_le_level_chain (n : Nat) : 1 ≤ (chain n).level := by
  cases n with
  | zero => decide
  | succ n => exact Nat.le_refl 1

theorem lexemes_chain (n : Nat) :
    (chain (n + 1)).lexemes = (chain n).lexemes ++ TokenKind.plus.lexeme :: one.lexemes := by
  have hleft : ¬ (chain n).level < 1 := Nat.not_lt.2 (one_le_level_chain n)
  have hright : ¬ one.level < 1 + 1 := by decide
  rw [chain, lexemes, decide_eq_false hleft, decide_eq_false hright]
  rfl

theorem draft_chain (n : Nat) : (chain (n + 1)).draft =
    .around .binaryExpr (chain n).draft [.word TokenKind.plus.lexeme.word, .node one.draft] := by
  have hleft : ¬ (chain n).level < 1 := Nat.not_lt.2 (one_le_level_chain n)
  have hright : ¬ one.level < 1 + 1 := by decide
  rw [chain, draft, decide_eq_false hleft, decide_eq_false hright]
  rfl

/-- A chain needs no more room than one number on the right of an operator. -/
theorem bodyReads_chain (n : Nat) :
    Grammar.BodyReads (chain n).level (chain n).lexemes (chain n).draft 1 := by
  have hone : Grammar.BodyReads 15 one.lexemes one.draft 0 := (Grammar.operandReads_number _).body
  induction n with
  | zero => exact hone.mono (Nat.zero_le 1)
  | succ n ih =>
    rw [lexemes_chain, draft_chain]
    exact Grammar.bodyReads_binary ⟨.plus, 1, rfl⟩ ih (one_le_level_chain n) hone (by decide)

theorem exists_path_chain (n : Nat) :
    ∃ steps, (chain n).draft.tree.Path steps ∧ steps.length = n + 1 := by
  induction n with
  | zero => exact ⟨_, .stop _ _, rfl⟩
  | succ n ih =>
    obtain ⟨steps, hsteps, hlength⟩ := ih
    rw [draft_chain]
    exact ⟨_, .child .binaryExpr [] _ hsteps, congrArg (· + 1) hlength⟩

/-- Where the limit is two, a chain is parsed into a tree with a path through all its operations. -/
theorem exists_long_path (n : Nat) :
    ∃ path, (parseWith { maxDepth := 2 } (chain n).assigned).tree.Path path ∧ n < path.length := by
  have hroom : 1 + 1 ≤ ParseOptions.maxDepth { maxDepth := 2 } := Nat.le_refl 2
  obtain ⟨ts, htree, hts⟩ := exists_tree_of_bodyReads (bodyReads_chain n) hroom
  obtain ⟨steps, hsteps, hlength⟩ := exists_path_chain n
  have hassignment : (Grammar.assignmentDraft targetWord (chain n)).tree.Path
      (⟨.assignment, false⟩ :: steps) := .child .assignment [_, _] [] hsteps
  have hfile : Tree.Path (.node .sourceFile (Tree.withoutTriviaOfAll ts))
      (⟨.sourceFile, true⟩ :: ⟨.assignment, false⟩ :: steps) := by
    rw [hts]
    exact .child .sourceFile [] [] hassignment
  obtain ⟨path, hpath, hkinds⟩ := hfile.exists_path (t := .node .sourceFile ts) rfl
  refine ⟨path, ?_, ?_⟩
  · rw [htree]
    exact hpath
  · have hlengths := congrArg List.length hkinds
    simp only [List.length_map, List.length_cons] at hlengths
    omega

end Term

/-! ### The length of paths -/

/-- Whether a path goes on to the left side of an infix operation. -/
def Tree.Step.toLeft (s : Tree.Step) : Bool := s.kind == .binaryExpr && s.first

/-- A budget that counts all nodes. -/
def Parsing.Budget.nodes : Budget where
  silence := true
  oneLineIf := true
  nesting := 1
  operation := 1
  other := 1
  expression k := 2 * k + 1
  statement k := 3 * k + 4

namespace Parsing.Budget

theorem sound_nodes : Budget.nodes.Sound where
  silence := rfl
  oneLineIf := rfl
  skippedExpression := by decide
  skippedStatement := by decide
  name k := by
    show 2 * 1 + (2 * k + 1) ≤ 2 * (k + 1) + 1
    omega
  nest k := by
    show 1 + (2 * k + 1) ≤ 2 * (k + 1) + 1
    omega
  operation k := by
    show 1 + (2 * k + 1) ≤ 2 * (k + 1) + 1
    omega
  line k := by
    show 4 * 1 + (2 * (k + 1) + 1) ≤ 3 * (k + 1) + 4
    omega
  body k := by
    show 2 * 1 + 1 + (3 * k + 4) ≤ 3 * (k + 1) + 4
    omega

theorem stepCost_nodes (s : Tree.Step) :
    Budget.nodes.stepCost s = if !s.toLeft then 1 else 0 := by
  have hcost (kind : NodeKind) : Budget.nodes.cost kind = 1 := by
    unfold Budget.cost
    split
    · rfl
    · split <;> rfl
  unfold Budget.stepCost Budget.leftCost Tree.Step.toLeft
  rw [hcost]
  by_cases hkind : s.kind = .binaryExpr
  · cases hfirst : s.first <;> simp [hkind]
  · simp [hkind]

end Parsing.Budget

/-- The length of a path is bounded by the limit alone, apart from the steps to the left side of an
infix operation. -/
theorem countP_not_toLeft_le (options : ParseOptions) (source : List Char) (path : List Tree.Step)
    (hpath : (parseWith options source).tree.Path path) :
    path.countP (!·.toLeft) ≤ 3 * options.maxDepth + 5 := by
  have hcost := totalCost_path_le Budget.sound_nodes hpath
  have hbound : Budget.nodes.other + Budget.nodes.statement options.maxDepth =
      3 * options.maxDepth + 5 := by
    show 1 + (3 * options.maxDepth + 4) = 3 * options.maxDepth + 5
    omega
  rwa [Tree.totalCost_eq_countP Budget.stepCost_nodes, hbound] at hcost

/-- A path in a sum of numbers, longer than the bound for the steps that do not lead to the left. -/
theorem countP_not_toLeft_le_chain : ∃ path,
    (parseWith { maxDepth := 2 } (Term.chain 20).assigned).tree.Path path ∧ 20 < path.length ∧
      path.countP (!·.toLeft) ≤ 11 := by
  obtain ⟨path, hpath, hlength⟩ := Term.exists_long_path 20
  exact ⟨path, hpath, hlength, countP_not_toLeft_le { maxDepth := 2 } _ path hpath⟩

/-- The limit alone does not bound the length of the paths: sums of ever more numbers nest to the left
without end, where the limit is two. -/
theorem not_exists_bound : ¬ ∃ bound : Nat → Nat, ∀ options source path,
    (parseWith options source).tree.Path path → path.length ≤ bound options.maxDepth := by
  rintro ⟨bound, hbound⟩
  obtain ⟨path, hpath, hlength⟩ := Term.exists_long_path (bound 2)
  exact Nat.not_lt.2 (hbound _ _ path hpath) hlength

end CRBasic
