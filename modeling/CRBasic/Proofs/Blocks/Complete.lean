import CRBasic.Proofs.Blocks.Matching
import CRBasic.Proofs.Expression.Reading
import CRBasic.Proofs.Lexer.Ruled
import CRBasic.Proofs.Tree.Endings
import CRBasic.View.Statement

/-!
# Texts without a problem are complete

If no problem is found in a text, nothing is missing in its tree: no node holds words that fit nowhere,
every block has ended, and every part that a view may ask for is there (`complete_of_ok`).
-/

namespace CRBasic

/-- Nothing is missing in a tree. -/
structure Tree.Complete (t : Tree) : Prop where
  noError : ∀ n ∈ t.nodes 0, n.kind ≠ .errorNode
  noErrorLeaf : ∀ x ∈ t.leaves, x.kind ≠ .error
  /-- Every block has ended, but for each `If` on one line. -/
  closed : ∀ n ∈ t.blocks false 0, n.isClosed
  /-- So has every node of a kind of block that has no form on one line. -/
  closedOthers : ∀ n ∈ t.nodes 0, n.kind.ends?.isSome → n.kind ≠ .ifStmt → n.isClosed
  parenthesis : ∀ n ∈ t.nodes 0, n.kind ∈ [.parenExpr, .argList, .paramList, .dimensionList] →
    n.children.getLast?.map Tree.kind = some (.token .rParen)
  binary (v : View .binaryExpr) : v.node ∈ t.nodes 0 →
    v.left?.isSome ∧ v.infixOperator?.isSome ∧ v.right?.isSome
  unary (v : View .unaryExpr) : v.node ∈ t.nodes 0 → v.sign?.isSome ∧ v.operand?.isSome
  paren (v : View .parenExpr) : v.node ∈ t.nodes 0 → v.inner?.isSome
  condition (v : View .ifStmt) : v.node ∈ t.nodes 0 → v.condition?.isSome ∧ v.thenBranch?.isSome
  clause (v : View .elseIfClause) : v.node ∈ t.nodes 0 →
    v.clauseCondition?.isSome ∧ v.clauseBody?.isSome
  otherwise (v : View .elseClause) : v.node ∈ t.nodes 0 → v.elseBody?.isSome
  loop (v : View .forLoop) : v.node ∈ t.nodes 0 → v.loopBody?.isSome
  program (v : View .program) : v.node ∈ t.nodes 0 → v.programBody?.isSome
  call (v : View .functionCall) : v.node ∈ t.nodes 0 → v.callee?.isSome
  number (v : View .numberLiteral) : v.node ∈ t.nodes 0 → v.numberWord?.isSome ∧ v.base?.isSome
  truth (v : View .booleanLiteral) : v.node ∈ t.nodes 0 → v.truth?.isSome
  string (v : View .stringLiteral) : v.node ∈ t.nodes 0 → v.contents?.isSome

/-! ### The last part -/

namespace Tree

/-- A node that ends in a part ends as its draft does. -/
theorem getLast?_withoutTriviaOfAll {ts : List Tree} (h : EndInPart ts) :
    (withoutTriviaOfAll ts).getLast? = ts.getLast?.map withoutTrivia := by
  rcases List.eq_nil_or_concat ts with rfl | ⟨us, u, rfl⟩
  · rfl
  · rw [List.concat_eq_append] at h ⊢
    have hlast : withoutTriviaOfAll [u] = [u.withoutTrivia] := by
      cases u with
      | leaf kind text =>
        have htrivia : kind.isTrivia = false := h kind text (List.getLast?_concat ..)
        simp [withoutTriviaOfAll, withoutTrivia, htrivia]
      | node kind children => rfl
    rw [withoutTriviaOfAll_append, hlast, List.getLast?_concat, List.getLast?_concat,
      Option.map_some]

theorem kind_withoutTrivia (t : Tree) : t.withoutTrivia.kind = t.kind := by
  cases t <;> rfl

end Tree

namespace Draft

theorem mem_wordsOfAll {w : Word} {ps : List (Piece Draft)} {d : Draft} (hd : .node d ∈ ps)
    (hw : w ∈ d.words) : w ∈ wordsOfAll ps := by
  obtain ⟨qs, rs, rfl⟩ := List.append_of_mem hd
  rw [wordsOfAll_append, wordsOfAll]
  exact List.mem_append_right _ (List.mem_append_left _ hw)

theorem mem_wordsOfAll_of_word {w : Word} {ps : List (Piece Draft)} (hw : .word w ∈ ps) :
    w ∈ wordsOfAll ps := by
  obtain ⟨qs, rs, rfl⟩ := List.append_of_mem hw
  rw [wordsOfAll_append, wordsOfAll]
  exact List.mem_append_right _ List.mem_cons_self

/-- The words of a draft are among those of every draft that it is inside of. -/
theorem Inside.mem_words {d e : Draft} (h : d.Inside e) {w : Word} (hw : w ∈ d.words) :
    w ∈ e.words := by
  induction h with
  | refl => exact hw
  | node he _ ih => exact mem_wordsOfAll he ih
  | first _ ih => exact List.mem_append_left _ ih
  | around he _ ih => exact List.mem_append_right _ (mem_wordsOfAll he ih)

end Draft

/-! ### The parts of a node -/

namespace Node

variable {n : Node} {kind : NodeKind} {ps : List (Piece Draft)} {d : Draft}

namespace HasParts

/-- A part that is a draft is shown by a node. -/
theorem exists_childNode (h : n.HasParts kind ps) (hd : .node d ∈ ps) :
    ∃ m ∈ n.childNodes, m.kind = d.kind := by
  have hshape : d.tree ∈ n.childNodes.map shape := by
    rw [h.childNodes_eq]
    exact List.mem_map_of_mem (Draft.mem_nodesOf.2 hd)
  obtain ⟨m, hm, hmd⟩ := List.mem_map.1 hshape
  exact ⟨m, hm, kind_eq_of_shape hmd⟩

/-- A node among the parts shows a draft. -/
theorem exists_draft (h : n.HasParts kind ps) {m : Node} (hm : m ∈ n.childNodes) :
    ∃ d, .node d ∈ ps ∧ m.kind = d.kind := by
  have hshape := List.mem_map_of_mem (f := shape) hm
  rw [h.childNodes_eq] at hshape
  obtain ⟨d, hd, hmd⟩ := List.mem_map.1 hshape
  exact ⟨d, Draft.mem_nodesOf.1 hd, kind_eq_of_shape hmd.symm⟩

theorem isSome_child? {k : NodeKind} (h : n.HasParts kind ps)
    (hd : ∃ d, .node d ∈ ps ∧ d.kind = k) : (n.child? k).isSome := by
  obtain ⟨d, hd, rfl⟩ := hd
  obtain ⟨m, hm, hkind⟩ := h.exists_childNode hd
  rw [child?, List.findSome?_isSome_iff]
  exact ⟨m, hm, by simp [View.ofNode?, hkind]⟩

theorem isSome_expression? (h : n.HasParts kind ps) (hd : ∃ d, .node d ∈ ps ∧ Expr.isForm d.kind) :
    n.expression?.isSome := by
  obtain ⟨d, hd, hform⟩ := hd
  obtain ⟨m, hm, hkind⟩ := h.exists_childNode hd
  obtain ⟨e, he⟩ := Option.isSome_iff_exists.1 ((Expr.isSome_ofNode? m).trans (hkind ▸ hform))
  rw [expression?, List.isSome_head?]
  exact List.ne_nil_of_mem (List.mem_filterMap.2 ⟨m, hm, he⟩)

/-- The operands of an infix operator. -/
theorem expressions_of_infix {left right : Draft} {op : Word}
    (h : n.HasParts kind [.node left, .word op, .node right]) (hleft : Expr.isForm left.kind)
    (hright : Expr.isForm right.kind) : ∃ x y, n.expressions = [x, y] := by
  obtain ⟨l, ls, hl, hlshape, hls⟩ := List.map_eq_cons_iff.1 h.childNodes_eq
  obtain ⟨r, rs, rfl, hrshape, hrs⟩ := List.map_eq_cons_iff.1 hls
  obtain rfl := List.map_eq_nil_iff.1 hrs
  have hform {m : Node} {d : Draft} (hm : m.shape = d.tree) (hd : Expr.isForm d.kind) :
      ∃ e, Expr.ofNode? m = some e := by
    rw [← kind_eq_of_shape hm, ← Expr.isSome_ofNode?] at hd
    exact Option.isSome_iff_exists.1 hd
  obtain ⟨x, hx⟩ := hform hlshape hleft
  obtain ⟨y, hy⟩ := hform hrshape hright
  exact ⟨x, y, by simp [expressions, hl, hx, hy]⟩

end HasParts

/-- A node that ends in a word of a text without a problem. -/
theorem kind_getLast?_of_shape {qs : List (Piece Draft)} {w : Word}
    (h : n.shape = .node kind (Draft.treesOfAll (qs ++ [.word w]))) (hend : Tree.EndInPart n.children) :
    n.children.getLast?.map Tree.kind = some (.token w.kind) := by
  have hchildren : Tree.withoutTriviaOfAll n.children =
      Draft.treesOfAll qs ++ [.leaf w.kind w.text] := by
    rw [(Tree.node.inj h).2, Draft.treesOfAll_append]
    rfl
  have hlast := Tree.getLast?_withoutTriviaOfAll hend
  rw [hchildren, List.getLast?_concat] at hlast
  obtain ⟨t, ht, hw⟩ := Option.map_eq_some_iff.1 hlast.symm
  rw [ht, Option.map_some, ← Tree.kind_withoutTrivia, hw]
  rfl

end Node

/-! ### Whole texts -/

/-- In a text without a problem no lexeme is in error. -/
theorem ne_error_of_mem_lexemes {source : List Char}
    (h : ∀ w ∈ Word.ofLexemes true (lexemes source), w.kind ≠ .error) :
    ∀ x ∈ lexemes source, x.kind ≠ .error := by
  intro x hx herror
  have hword : x ∈ Lexeme.words (lexemes source) :=
    List.mem_filter.2 ⟨hx, by rw [herror]; rfl⟩
  rw [← Lexeme.words_ofLexemes true] at hword
  obtain ⟨w, hw, rfl⟩ := List.mem_map.1 hword
  exact h w hw herror

open Parsing

namespace LaidText

variable {options : ParseOptions} {source : List Char} {t : Sketch} {ps : List (Piece Draft)}
  (h : LaidText options source t ps) (hok : (parseWith options source).ok = true)
include h

theorem mem_lexemes {d : Draft} (hd : d.Inside (.node .sourceFile ps)) {w : Word}
    (hw : w ∈ Draft.ownWords d.pieces) : w.lexeme ∈ lexemes source := by
  have hword : w ∈ d.words := by
    rw [d.words_eq]
    exact Draft.mem_wordsOfAll_of_word (Draft.mem_ownWords.1 hw)
  have hall : Word.ofLexemes true (lexemes source) = Draft.wordsOfAll ps := by
    have hwords := h.laid.words
    rwa [h.rest, List.append_nil] at hwords
  have hmem : w ∈ Word.ofLexemes true (lexemes source) := by
    rw [hall]
    exact hd.mem_words hword
  have hlexeme := List.mem_map_of_mem (f := Word.lexeme) hmem
  rw [Lexeme.words_ofLexemes] at hlexeme
  exact (List.mem_filter.1 hlexeme).1

include hok

theorem clean : Clean
    (Sketch.initial options (Word.ofLexemes true (lexemes source))).toReading t.toReading := by
  have hnone : (parseWith options source).diagnostics = [] := List.isEmpty_iff.1 hok
  rw [h.diagnostics, List.map_eq_nil_iff, Problem.sortByStart_eq_nil_iff, List.append_eq_nil_iff,
    List.map_eq_nil_iff, Problem.ofLexemes_eq_nil_iff 0 true] at hnone
  exact ⟨rfl, Array.toList_eq_nil_iff.1 hnone.2, hnone.1⟩

/-- Every node has the parts that its kind needs. -/
theorem exists_fits {n : Node} (hn : n ∈ (parseWith options source).tree.nodes 0) :
    ∃ qs, n.shape = .node n.kind (Draft.treesOfAll qs) ∧ n.kind.Fits qs ∧
      ∀ w ∈ Draft.ownWords qs, w.lexeme ∈ lexemes source := by
  obtain ⟨d, hd, hshape⟩ := Tree.exists_inside _ h.shows.shape hn
  have hfits : d.Fits := (h.filled.fits rfl (h.clean hok)).2 d hd
  refine ⟨d.pieces, ?_, ?_, fun w hw => h.mem_lexemes hd hw⟩
  · rw [hshape, d.tree_eq_node, Node.kind_eq_of_shape hshape]
  · rw [Node.kind_eq_of_shape hshape]
    exact hfits

/-- Every block has ended. -/
theorem isClosed_of_mem_blocks {n : Node}
    (hn : n ∈ (parseWith options source).tree.blocks false 0) : n.isClosed := by
  have hnone : (t.reports.toList.filter (·.cause.isUnclosed)).map (·.cause) = [] := by
    rw [(h.clean hok).reports]
    rfl
  rw [h.unclosed_eq] at hnone
  have hclosed := List.filterMap_eq_nil_iff.1 hnone n hn
  obtain ⟨ends, hends⟩ := Option.isSome_iff_exists.1 (Tree.ends?_of_mem_blocks hn)
  rw [Node.unclosed?, hends] at hclosed
  simpa using hclosed

end LaidText

/-- In a text without a problem there are no words that fit nowhere. -/
theorem ne_errorNode_of_ok {options : ParseOptions} {source : List Char} {n : Node}
    (hok : (parseWith options source).ok = true) (hn : n ∈ (parseWith options source).tree.nodes 0) :
    n.kind ≠ .errorNode := by
  obtain ⟨t, ps, h⟩ := exists_laidText options source
  obtain ⟨qs, -, hfits, -⟩ := h.exists_fits hok hn
  intro hkind
  rw [hkind] at hfits
  exact hfits

/-- What is read as ending in a parenthesis has one. -/
theorem NodeKind.Fits.closing {kind : NodeKind} {ps : List (Piece Draft)} (h : kind.Fits ps)
    (hkind : kind ∈ [.parenExpr, .argList, .paramList, .dimensionList]) :
    ∃ qs w, ps = qs ++ [.word w] ∧ w.kind = .rParen := by
  simp only [List.mem_cons, List.not_mem_nil, or_false] at hkind
  rcases hkind with rfl | rfl | rfl | rfl
  · obtain ⟨opening, inner, closing, rfl, -, hclosing⟩ := h
    exact ⟨[.word opening, .node inner], closing, rfl, hclosing⟩
  · exact h
  · exact h
  · exact h

/-- If no problem is found in a text, nothing is missing in its tree: there are no words that fit
nowhere and no lexemes in error, every block but an `If` on one line has the word that ends it, what
opens a parenthesis ends in one, and the views have every part that their forms need. -/
theorem complete_of_ok (options : ParseOptions) (source : List Char)
    (hok : (parseWith options source).ok = true) : (parseWith options source).tree.Complete := by
  obtain ⟨t, ps, h⟩ := exists_laidText options source
  have hparts {n : Node} (hn : n ∈ (parseWith options source).tree.nodes 0) {kind : NodeKind}
      (hkind : n.kind = kind) : ∃ qs, n.HasParts kind qs ∧ kind.Fits qs ∧
        ∀ w ∈ Draft.ownWords qs, w.lexeme ∈ lexemes source := by
    obtain ⟨qs, hshape, hfits, hwords⟩ := h.exists_fits hok hn
    rw [hkind] at hshape hfits
    exact ⟨qs, Node.hasParts_of_shape hshape, hfits, hwords⟩
  constructor
  case noError =>
    intro n hn herror
    obtain ⟨qs, -, hfits, -⟩ := hparts hn herror
    exact hfits
  case noErrorLeaf =>
    rw [leaves_parseWith]
    exact ne_error_of_mem_lexemes (h.clean hok).words
  case closed => exact fun n hn => h.isClosed_of_mem_blocks hok hn
  case closedOthers =>
    exact fun n hn hends hkind =>
      h.isClosed_of_mem_blocks hok (Tree.mem_blocks_of_mem_nodes hends hkind _ false hn)
  case parenthesis =>
    intro n hn hkind
    obtain ⟨qs, hshape, hfits, -⟩ := h.exists_fits hok hn
    obtain ⟨rs, w, rfl, hw⟩ := hfits.closing hkind
    have hend : Tree.EndInPart n.children :=
      endInPart_parseWith hn (by grind) (by grind)
    rw [Node.kind_getLast?_of_shape hshape hend, hw]
  case binary =>
    intro v hv
    obtain ⟨qs, hn, ⟨left, op, right, rfl, hleft, hright⟩, -⟩ := hparts hv v.kind_eq
    obtain ⟨x, y, hxy⟩ := hn.expressions_of_infix hleft hright
    obtain ⟨o, ho, -⟩ := hn.firstWord?_eq rfl
    simp [View.left?, View.infixOperator?, View.right?, hxy, ho]
  case unary =>
    intro v hv
    obtain ⟨qs, hn, ⟨op, operand, rfl, hform⟩, -⟩ := hparts hv v.kind_eq
    obtain ⟨o, ho, -⟩ := hn.firstWord?_eq rfl
    exact ⟨Option.isSome_of_eq_some ho, hn.isSome_expression? ⟨operand, by simp, hform⟩⟩
  case paren =>
    intro v hv
    obtain ⟨qs, hn, ⟨opening, inner, closing, rfl, hform, -⟩, -⟩ := hparts hv v.kind_eq
    exact hn.isSome_expression? ⟨inner, by simp, hform⟩
  case condition =>
    intro v hv
    obtain ⟨qs, hn, ⟨hcondition, hthen⟩, -⟩ := hparts hv v.kind_eq
    exact ⟨hn.isSome_expression? hcondition, hn.isSome_child? hthen⟩
  case clause =>
    intro v hv
    obtain ⟨qs, hn, ⟨hcondition, hthen⟩, -⟩ := hparts hv v.kind_eq
    exact ⟨hn.isSome_expression? hcondition, hn.isSome_child? hthen⟩
  case otherwise =>
    intro v hv
    obtain ⟨qs, hn, hfits, -⟩ := hparts hv v.kind_eq
    exact hn.isSome_child? hfits
  case loop =>
    intro v hv
    obtain ⟨qs, hn, hfits, -⟩ := hparts hv v.kind_eq
    exact hn.isSome_child? hfits
  case program =>
    intro v hv
    obtain ⟨qs, hn, hfits, -⟩ := hparts hv v.kind_eq
    exact hn.isSome_child? hfits
  case call =>
    intro v hv
    obtain ⟨qs, hn, hfits, -⟩ := hparts hv v.kind_eq
    exact hn.isSome_child? hfits
  case number =>
    intro v hv
    obtain ⟨qs, hn, ⟨w, rfl, hw⟩, -⟩ := hparts hv v.kind_eq
    obtain ⟨x, hx, hlexeme⟩ := hn.firstWord?_eq rfl
    have hkind : x.kind = .number := (Lexeme.mk.inj hlexeme).1.trans hw
    simp [View.numberWord?, View.base?, View.literal?, hx, hkind]
  case truth =>
    intro v hv
    obtain ⟨qs, hn, ⟨w, rfl, hw⟩, -⟩ := hparts hv v.kind_eq
    obtain ⟨x, hx, hlexeme⟩ := hn.firstWord?_eq rfl
    have hkind : x.kind = w.kind := (Lexeme.mk.inj hlexeme).1
    rcases hw with hw | hw <;> simp [View.truth?, hx, hkind, hw]
  case string =>
    intro v hv
    obtain ⟨qs, hn, ⟨w, rfl, hw⟩, hwords⟩ := hparts hv v.kind_eq
    obtain ⟨x, hx, hlexeme⟩ := hn.firstWord?_eq rfl
    obtain ⟨body, htext⟩ :=
      Lexer.exists_body_of_mem_lexemes (hwords w List.mem_cons_self) hw
    have htext : x.text = '\x22' :: body ++ ['\x22'] := (Lexeme.mk.inj hlexeme).2.trans htext
    rw [View.contents?, hx, Option.bind_some, htext, Term.betweenQuotes?_eq, Option.isSome_some]

/-- A loop and an `If` on one line: of the two only the loop needs a word to end it. -/
theorem complete_of_ok_loop :
    let p := parseWith {} "For i = 1 To (3)\nIf a(i) Then b = \"x\" Else b = .5\nNext".toList
    p.ok = true ∧ (p.tree.blocks false 0).map (·.kind) = [.forLoop] ∧ p.tree.Complete := by
  intro p
  have hok : p.ok = true ∧ (p.tree.blocks false 0).map (·.kind) = [.forLoop] := by decide +kernel
  exact ⟨hok.1, hok.2, complete_of_ok {} _ hok.1⟩

end CRBasic
