import CRBasic.Proofs.Expression.Assignment
import CRBasic.Proofs.Expression.Lexing
import CRBasic.Proofs.Expression.Reading
import CRBasic.View.Statement

/-!
# Terms survive being written and read

A term is written as text, assigned to a name.  The text has no problem, and the value of the
assignment, read part by part, is the term (`assignment_reads`).
-/

namespace CRBasic

namespace Term

/-- The name that a term is assigned to. -/
def target : Atom .ident := ⟨['x'], by decide +kernel⟩

/-- The text of an assignment of a term. -/
def assigned (e : Term) : List Char := "x = ".toList ++ e.text

/-- The lexemes of an assignment of a term. -/
def assignmentLexemes (e : Term) : List Lexeme :=
  target.lexeme :: TokenKind.eq.lexeme :: e.lexemes

theorem plain_assignment (e : Term) : ∀ x ∈ assignmentLexemes e, Plain x := by
  rw [assignmentLexemes, List.forall_mem_cons, List.forall_mem_cons]
  exact ⟨plain_wordLike target (.inl rfl), plain_spelled rfl, plain_term e⟩

theorem assigned_eq (e : Term) : e.assigned = Lexeme.joined (Lexeme.spaced (assignmentLexemes e)) := by
  obtain ⟨x, xs, hx, -⟩ := Grammar.exists_lexemes_eq_cons e
  rw [assigned, text, assignmentLexemes, hx]
  rfl

theorem lexemes_assigned (e : Term) : CRBasic.lexemes e.assigned = Lexeme.spaced (assignmentLexemes e) := by
  rw [assigned_eq]
  exact lexemes_spaced fun x hx => (plain_assignment e x hx).standalone

/-- The word that starts the line of an assignment. -/
def targetWord : Word := ⟨.ident, ['x'], true⟩

theorem ofLexemes_assigned (e : Term) :
    Word.ofLexemes true (CRBasic.lexemes e.assigned) = Grammar.assignmentWords targetWord e := by
  rw [lexemes_assigned]
  exact ofLexemes_spaced (fun x hx => (plain_assignment e x hx).isTrivia_eq) true

theorem problems_assigned (e : Term) : Problem.ofLexemes 0 (CRBasic.lexemes e.assigned) = [] := by
  refine problems_eq_nil (fun x hx => ?_) 0
  rw [lexemes_assigned] at hx
  rcases Lexeme.mem_spaced hx with hx | rfl
  · exact (plain_assignment e x hx).ne_error
  · nofun

variable {options : ParseOptions} {e : Term}

/-- What reading a term asks of the nesting limit. -/
theorem exists_bodyReads (hroom : 2 * e.size + 1 ≤ options.maxDepth) :
    ∃ room, Grammar.BodyReads e.level e.lexemes e.draft room ∧ room + 1 ≤ options.maxDepth :=
  ⟨2 * e.size - 1, Grammar.bodyReads_term e, by omega⟩

theorem diagnostics_assigned (hroom : 2 * e.size + 1 ≤ options.maxDepth) :
    (parseWith options e.assigned).diagnostics = [] := by
  obtain ⟨room, he, hroom⟩ := exists_bodyReads hroom
  obtain ⟨hreports, -⟩ := Grammar.finalState_assignment (w := targetWord) he rfl hroom
  simp [parseWith, ofLexemes_assigned, problems_assigned, hreports, Problem.sortByStart]

/-- The tree of an assignment, where the nesting leaves the room that reading the term takes. -/
theorem exists_tree_of_bodyReads {level room : Nat}
    (he : Grammar.BodyReads level e.lexemes e.draft room) (hroom : room + 1 ≤ options.maxDepth) :
    ∃ ts, (parseWith options e.assigned).tree = .node .sourceFile ts ∧
      Tree.withoutTriviaOfAll ts =
        Draft.treesOfAll [.node (Grammar.assignmentDraft targetWord e)] := by
  obtain ⟨-, hevents, hwords⟩ := Grammar.finalState_assignment (w := targetWord) he rfl hroom
  rw [← ofLexemes_assigned] at hevents hwords
  obtain ⟨ts, htree, -, hts, -⟩ := Draft.ofEvents_root .sourceFile (words_lexemes hwords)
  refine ⟨ts, ?_, hts⟩
  rw [tree_parseWith, Parsing.events, hevents, htree]

theorem exists_tree_assigned (hroom : 2 * e.size + 1 ≤ options.maxDepth) :
    ∃ ts, (parseWith options e.assigned).tree = .node .sourceFile ts ∧
      Tree.withoutTriviaOfAll ts =
        Draft.treesOfAll [.node (Grammar.assignmentDraft targetWord e)] := by
  obtain ⟨room, he, hroom⟩ := exists_bodyReads hroom
  exact exists_tree_of_bodyReads he hroom

/-- A node of the shape of an assignment of a term has the expression of the term second. -/
theorem expressions_of_assignment {n : Node}
    (h : n.shape = (Grammar.assignmentDraft targetWord e).tree) :
    n.kind = .assignment ∧ ∃ x, n.expressions[1]? = some x ∧ Reads e x := by
  have hparts := Node.hasParts_of_shape h
  obtain ⟨m, ms, hm, htarget, hms⟩ := List.map_eq_cons_iff.1 hparts.childNodes_eq
  obtain ⟨y, hy, -⟩ := readBy_name ⟨target, []⟩ m htarget
  obtain ⟨x, ns, hx, -, hxs⟩ := (readBy_term e).expressions hms
  refine ⟨hparts.kind_eq, x, ?_, hx⟩
  rw [Node.expressions, hm, List.filterMap_cons_some hy, hxs, List.getElem?_cons_succ,
    List.getElem?_cons_zero]

end Term

/-- A term that is assigned to a name is read back without a problem.  The text is one assignment, and
its second expression has, part by part, what the term says. -/
theorem assignment_reads (options : ParseOptions) (e : Term)
    (hdepth : 2 * e.size + 2 < options.maxDepth) :
    (parseWith options ("x = ".toList ++ e.text)).diagnostics = [] ∧
      ∃ (file : View .sourceFile) (n : Node) (x : Expr),
        ((parseWith options ("x = ".toList ++ e.text)).tree.nodes 0).head? = some file.node ∧
        file.fileStatements = [n] ∧ n.kind = .assignment ∧ n.expressions[1]? = some x ∧
        Term.Reads e x := by
  have hroom : 2 * e.size + 1 ≤ options.maxDepth := by omega
  refine ⟨Term.diagnostics_assigned hroom, ?_⟩
  obtain ⟨ts, htree, hts⟩ := Term.exists_tree_assigned hroom
  have htree : (parseWith options ("x = ".toList ++ e.text)).tree = .node .sourceFile ts := htree
  have hfile : Node.HasParts ⟨0, .sourceFile, ts⟩ .sourceFile
      [.node (Grammar.assignmentDraft Term.targetWord e)] :=
    Node.hasParts_of_shape (congrArg (Tree.node .sourceFile) hts)
  obtain ⟨n, ns, hn, hshape, hns⟩ := List.map_eq_cons_iff.1 hfile.childNodes_eq
  rw [List.map_eq_nil_iff.1 hns] at hn
  obtain ⟨hkind, x, hx, hreads⟩ := Term.expressions_of_assignment hshape
  refine ⟨⟨⟨0, .sourceFile, ts⟩, rfl⟩, n, x, ?_, hn, hkind, hx, hreads⟩
  rw [htree, Tree.nodes, List.head?_cons]

/-- A product of a negated name and a sum, with the default options. -/
theorem assignment_reads_product :
    let one : Atom .number := ⟨['1'], by decide +kernel⟩
    let e : Term := .binary ⟨.star, 3, rfl⟩
      (.unary ⟨.minus, 15, rfl⟩ (.name ⟨Term.target, [Term.target]⟩))
      (.binary ⟨.plus, 1, rfl⟩ (.number one) (.boolean true))
    e.text = "- x . x * ( 1 + True )".toList ∧ 2 * e.size + 2 < ParseOptions.maxDepth {} ∧
      (parseWith {} ("x = ".toList ++ e.text)).diagnostics = [] ∧
      ∃ (file : View .sourceFile) (n : Node) (x : Expr),
        ((parseWith {} ("x = ".toList ++ e.text)).tree.nodes 0).head? = some file.node ∧
        file.fileStatements = [n] ∧ n.kind = .assignment ∧ n.expressions[1]? = some x ∧
        Term.Reads e x := by
  intro one e
  have hdepth : 2 * e.size + 2 < ParseOptions.maxDepth {} := by decide
  exact ⟨by decide, hdepth, assignment_reads {} e hdepth⟩

end CRBasic
