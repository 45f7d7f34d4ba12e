import CRBasic.Proofs.Blocks.Trailing
import CRBasic.Proofs.Roles.Conditions
import CRBasic.Proofs.Tree.Breaks
import CRBasic.View.Statement

/-!
# Conditionals on one line

In a text without a problem an `If` without `EndIf` is on one line.  Whether it is, the view tells by the
statements on the line of `Then`, so an `If` with `Else` right behind `Then` is taken for a block
(`single_line_by_first_body`).
-/

namespace CRBasic

open Parsing Draft Lexeme

/-! ### Elements of a conditional -/

namespace Element

variable {mid vs : List Element} {m : Node}

/-- Behind some blanks and comments the first body is looked at. -/
theorem bodyOnLine_append (hmid : ShowAll mid []) (hm : m.kind = .stmtList) :
    View.bodyOnLine (mid ++ node m :: vs) =
      (!hasBreak (mid.flatMap lexemes) && !m.childNodes.isEmpty) := by
  induction mid with
  | nil =>
    rw [List.nil_append, View.bodyOnLine, if_pos (beq_iff_eq.2 hm)]
    rfl
  | cons e mid ih =>
    cases hmid with
    | @trivia x _ _ _ hmore =>
      have hbreak : hasBreak ((leaf x :: mid).flatMap lexemes) =
          (x.kind == .newline || hasBreak (mid.flatMap lexemes)) := hasBreak_cons x.lexeme _
      rw [List.cons_append, View.bodyOnLine, ih hmore, hbreak, Bool.not_or, Bool.and_assoc]
      rfl

end Element

namespace View

variable {v : View .ifStmt} {us mid vs : List Element} {x : Leaf} {m : Node}
  (hes : v.node.elements = us ++ .leaf x :: (mid ++ .node m :: vs)) (hmid : Element.ShowAll mid [])
  (hm : m.kind = .stmtList)
include hes hmid

theorem thenBranch?_eq (hus : ∀ e ∈ us, e.isNode .stmtList = false) :
    v.thenBranch? = some ⟨m, hm⟩ := by
  have hview : ofNode? .stmtList m = some ⟨m, hm⟩ := ofNode?_node ⟨m, hm⟩
  have hfront : ∀ e ∈ us ++ .leaf x :: mid, e.isNode .stmtList = false :=
    List.forall_mem_append.2 ⟨hus, List.forall_mem_cons.2 ⟨rfl, hmid.isNode_eq_false (by simp)⟩⟩
  have hnone := Element.findSome?_ofNode?_eq_none hfront
  have hsplit : v.node.elements = (us ++ .leaf x :: mid) ++ .node m :: vs := by simp [hes]
  rw [thenBranch?, Node.child?, Node.childNodes, hsplit, List.filterMap_append, List.findSome?_append, hnone,
    List.filterMap_cons_some (Element.node?_node m), List.findSome?_cons, hview]
  rfl

include hm

theorem isSingleLine_eq (hus : ∀ e ∈ us, e.isLeaf .kwThen = false) (hx : x.kind = .kwThen) :
    v.isSingleLine = (!hasBreak (mid.flatMap Element.lexemes) && !m.childNodes.isEmpty) := by
  have hfront : ∀ e ∈ us, (!e.isLeaf .kwThen) = true := fun e he => by rw [hus e he]; rfl
  rw [isSingleLine, hes, List.dropWhile_append_of_pos hfront,
    List.dropWhile_cons_of_neg (by simp [Element.isLeaf, Element.kind, hx]), bodyOnLine, hx,
    Element.bodyOnLine_append hmid hm]
  rfl

end View

/-- An `If` is closed if `EndIf` is behind its first body. -/
theorem Node.HasParts.isClosed_eq {n : Node} {opener word : Word} {condition body : Draft}
    {more : List (Piece Draft)}
    (h : n.HasParts .ifStmt (.word opener :: .node condition :: .word word :: .node body :: more))
    (hopener : opener.kind = .kwIf) (hword : word.kind = .kwThen) :
    n.isClosed = (ownWords more).any (·.kind == .kwEndIf) := by
  have hends (w : Word) : (NodeKind.ends? .ifStmt).any (·.1 == w.kind) = (w.kind == .kwEndIf) :=
    BEq.comm
  rw [Tree.isClosed_of_shape h, ownWords, ownWords, ownWords, ownWords, List.any_cons, List.any_cons, hends,
    hends, hopener, hword]
  exact congrArg (List.any _) (funext hends)

/-! ### Texts without a problem -/

section Texts

variable {options : ParseOptions} {source : List Char} (hok : (parseWith options source).ok = true)
include hok

theorem not_hasError_of_ok {n : Node} {d : Draft} (hn : n ∈ (parseWith options source).tree.nodes 0)
    (hshows : (Tree.node n.kind n.children).Shows d) : ¬ HasError d.pieces := by
  intro herror
  obtain ⟨m, hm, hkind⟩ := herror.of_pieces.exists_errorNode hshows
  rcases List.mem_cons.1 hm with rfl | hm
  · exact ne_errorNode_of_ok hok hn hkind
  · exact ne_errorNode_of_ok hok (Tree.mem_nodes_of_mem_children _ hn hm) hkind

/-- The parts of an `If`. -/
theorem exists_conditional_of_ok (v : View .ifStmt)
    (hv : v.node ∈ (parseWith options source).tree.nodes 0) :
    ∃ d front, v.node.Stands 0 (lexemes source) front d ∧ d.kind = .ifStmt ∧ Conditional d.pieces := by
  obtain ⟨d, front, hstands, harises⟩ := exists_arises options source hv
  have hkind : d.kind = .ifStmt := hstands.kind_eq.symm.trans v.kind_eq
  rw [reports_eq_nil hok] at harises
  exact ⟨d, front, hstands, hkind,
    harises.exists_conditional hkind (not_hasError_of_ok hok hv hstands.shows)⟩

end Texts

/-- In a text without a problem the view takes an `If` to be on one line if it has no `EndIf` and a statement
in its first body. -/
theorem single_line_by_first_body (options : ParseOptions) (source : List Char)
    (hok : (parseWith options source).ok = true) (v : View .ifStmt)
    (hv : v.node ∈ (parseWith options source).tree.nodes 0) :
    ∃ body, v.thenBranch? = some body ∧
      v.isSingleLine = (!v.node.isClosed && !body.statements.isEmpty) := by
  obtain ⟨d, front, hstands, hkind, hconditional⟩ := exists_conditional_of_ok hok v hv
  generalize hpieces : d.pieces = ps at hconditional
  cases hconditional with
  | @intro opener word condition _ hopener hword hcondition hbranches =>
    cases hbranches with
    | @intro body more hbody hempty hline =>
      have hsplit : d.pieces =
          [.word opener, .node condition] ++ .word word :: .node body :: more := hpieces
      obtain ⟨us, x, mid, m, vs, hes, hlexeme, hus, hmid, hm, hfirst⟩ :=
        hstands.exists_behind_word hv (by rw [v.kind_eq]; rfl) hsplit
      have hx : x.kind = .kwThen := (congrArg Lexeme.kind hlexeme).trans hword
      have hmkind : m.kind = .stmtList := (ElementKind.node.inj hm.kind_eq).trans hbody
      have hleaf : ∀ e ∈ us, e.isLeaf .kwThen = false := hus.isLeaf_eq_false rfl (by simp [hopener])
      have hnode : ∀ e ∈ us, e.isNode .stmtList = false :=
        hus.isNode_eq_false (by simpa using hcondition)
      refine ⟨⟨m, hmkind⟩, View.thenBranch?_eq hes hmid hmkind hnode, ?_⟩
      rw [View.isSingleLine_eq hes hmid hmkind hleaf hx]
      have hparts : v.node.HasParts .ifStmt _ := hkind ▸ hpieces ▸ Node.hasParts_of_tree hstands.shows.shape
      rw [hparts.isClosed_eq hopener hword]
      show _ = (_ && !m.childNodes.isEmpty)
      -- The first word of the body tells both where the line ends and how the `If` ends.
      cases hw : body.words.head? with
      | none =>
        have hnone : body.pieces = [] := hempty (List.head?_eq_none_iff.1 hw)
        have hparts : m.HasParts body.kind [] := hnone ▸ Node.hasParts_of_tree hm.shape
        have hchildren : m.childNodes = [] := List.eq_nil_iff_forall_not_mem.2 fun c hc => by
          obtain ⟨e, he, -⟩ := hparts.exists_draft hc
          cases he
        rw [hchildren, List.isEmpty_nil, Bool.not_true, Bool.and_false, Bool.and_false]
      | some w => rw [← hfirst w hw, hline w hw]

/-- In `If a Then Else x = 1`, which has no `EndIf` and no problem, no statement is on the line of `Then`
before the `Else`, and the view takes the `If` for a block. -/
theorem else_behind_then_as_block :
    (parseWith {} "If a Then Else x = 1".toList).ok = true ∧
      ∃ v : View .ifStmt, v.node ∈ (parseWith {} "If a Then Else x = 1".toList).tree.nodes 0 ∧
        v.node.isClosed = false ∧ v.elseClause?.isSome ∧ v.isSingleLine = false := by
  have hok : (parseWith {} "If a Then Else x = 1".toList).ok = true := by decide +kernel
  have hnodes : (((parseWith {} "If a Then Else x = 1".toList).tree.nodes 0).filterMap
      (View.ofNode? .ifStmt)).map (fun v => (v.node.isClosed, v.elseClause?.isSome,
        v.thenBranch?.map (·.statements.isEmpty))) = [(false, true, some true)] := by
    decide +kernel
  obtain ⟨v, vs, hviews, hparts, -⟩ := List.map_eq_cons_iff.1 hnodes
  obtain ⟨hclosed, helse, hempty⟩ : v.node.isClosed = false ∧ v.elseClause?.isSome = true ∧
      v.thenBranch?.map (·.statements.isEmpty) = some true := by simpa using hparts
  have hmem : v.node ∈ (parseWith {} "If a Then Else x = 1".toList).tree.nodes 0 :=
    View.node_mem (by rw [hviews]; exact List.mem_cons_self)
  obtain ⟨body, hbody, hline⟩ := single_line_by_first_body {} _ hok v hmem
  have hnone : body.statements.isEmpty = true := by simpa [hbody] using hempty
  rw [hnone, Bool.not_true, Bool.and_false] at hline
  exact ⟨hok, v, hmem, hclosed, helse, hline⟩

end CRBasic
