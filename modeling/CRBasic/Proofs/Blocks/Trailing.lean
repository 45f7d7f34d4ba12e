import CRBasic.Proofs.Blocks.Complete
import CRBasic.Proofs.Blocks.LastParts
import CRBasic.Proofs.Tree.Elements

/-!
# Behind the last word of a node

Blanks, line breaks and comments behind a statement are left to the node around it.  In a text without a
problem a node ends in a word, but for statement lists that are empty or reach the end of the text, and for
what ends in these (`exists_last_word`).  A block that has not ended when the words end reaches the end of
the text through its last body (`stop_eq_of_unclosed`).
-/

namespace CRBasic

open Parsing

/-! ### The last part of a draft -/

namespace Draft.Edged

variable {clean : Prop} {d e : Draft} {qs : List (Piece Draft)} (h : d.Edged clean) (hclean : clean)
include h hclean

/-- In a text without a problem just statement lists may be empty, and what may be so anyway. -/
theorem kind_of_pieces_eq_nil (hps : d.pieces = []) : d.kind = .stmtList ∨ d.kind.mayBeBare := by
  rcases h.known with hlist | hline | hclause | hblock
  · exact .inl hlist
  · by_contra hkind
    obtain ⟨-, hbare⟩ := not_or.1 hkind
    exact (h.line hline).2 hclean (by simpa using hbare) hps
  · obtain ⟨before, body, hbody, -⟩ := h.clause hclause
    simp [hps] at hbody
  · obtain ⟨⟨k, opener⟩, hends⟩ := Option.isSome_iff_exists.1 hblock
    cases h.block k opener hends with
    | closed before after w heq => simp [hps] at heq
    | unclosed hbody hopen =>
      obtain ⟨hif, -⟩ := hopen hclean
      rcases hbody with ⟨before, body, heq, -⟩ | ⟨hselect, -⟩
      · simp [hps] at heq
      · cases hif.symm.trans hselect

/-- In a text without a problem a draft ends in what stands on a line, unless it ends in a body or a
branch. -/
theorem isLine_or_of_last (hps : d.pieces = qs ++ [.node e]) :
    e.kind.isLine ∨ d.kind = .stmtList ∨ d.kind.isClause ∨ (d.kind = .ifStmt ∧ Bare d.pieces) := by
  rcases h.known with hlist | hline | hclause | hblock
  · exact .inr (.inl hlist)
  · exact .inl ((h.line hline).1 e (by simp [hps]))
  · exact .inr (.inr (.inl hclause))
  · obtain ⟨⟨k, opener⟩, hends⟩ := Option.isSome_iff_exists.1 hblock
    cases h.block k opener hends with
    | closed before after w heq hw hafter =>
      rw [hps] at heq
      rcases List.eq_nil_or_concat after with rfl | ⟨after, p, rfl⟩
      · cases (List.append_inj' heq rfl).2
      · rw [List.concat_eq_append, ← List.cons_append, ← List.append_assoc] at heq
        obtain rfl : p = .node e := (List.cons.inj (List.append_inj' heq rfl).2).1.symm
        exact .inl (hafter e (by simp))
    | unclosed hbody hopen => exact .inr (.inr (.inr (hopen hclean)))

end Draft.Edged

/-! ### The last part of a node -/

namespace Node

/-- The last part of a node that has the given parts, blanks and comments apart. -/
inductive LastPart (n : Node) (ps : List (Piece Draft)) : Prop where
  | none (hn : n.children = []) (hps : ps = [])
  | word (us : List Tree) (k : TokenKind) (text : List Char) (qs : List (Piece Draft)) (w : Word)
      (hn : n.children = us ++ [.leaf k text]) (hps : ps = qs ++ [.word w]) (hk : k.isTrivia = false)
  | node (us : List Tree) (k : NodeKind) (cs : List Tree) (qs : List (Piece Draft)) (d : Draft)
      (hn : n.children = us ++ [.node k cs]) (hps : ps = qs ++ [.node d]) (hk : d.kind = k)

variable {n : Node} {ps : List (Piece Draft)}

theorem lastPart_of_endInPart (hps : Tree.withoutTriviaOfAll n.children = Draft.treesOfAll ps)
    (hend : Tree.EndInPart n.children) : n.LastPart ps := by
  have hlast := Tree.getLast?_withoutTriviaOfAll hend
  rw [hps] at hlast
  rcases List.eq_nil_or_concat ps with rfl | ⟨qs, p, rfl⟩
  · exact .none (by simpa [Draft.treesOfAll] using hlast.symm) rfl
  · rw [List.concat_eq_append, Draft.treesOfAll_append] at hlast
    rcases List.eq_nil_or_concat n.children with hn | ⟨us, t, hn⟩
    · cases p <;> simp [hn, Draft.treesOfAll] at hlast
    · rw [List.concat_eq_append] at hn
      cases p with
      | word w =>
        have hleaf : .leaf w.kind w.text = t.withoutTrivia := by
          simpa [hn, Draft.treesOfAll] using hlast
        cases t with
        | leaf k text =>
          exact .word us k text qs w hn (List.concat_eq_append ..)
            (hend k text (by rw [hn, List.getLast?_concat]))
        | node k cs => cases hleaf
      | node d =>
        have hnode : d.tree = t.withoutTrivia := by simpa [hn, Draft.treesOfAll] using hlast
        rw [d.tree_eq_node] at hnode
        cases t with
        | leaf k text => cases hnode
        | node k cs =>
          exact .node us k cs qs d hn (List.concat_eq_append ..) (Tree.node.inj hnode).1

/-- A node whose last child is a word ends in this word. -/
theorem getLast?_leaves_of_leaf {us : List Tree} {k : TokenKind} {text : List Char}
    (hn : n.children = us ++ [.leaf k text]) :
    (Tree.leavesOfAll n.children).getLast? = some ⟨k, text⟩ := by
  simp [hn, Tree.leavesOfAll, Tree.leaves]

/-- A node ends in what its last child ends in, if that is not empty. -/
theorem getLast?_leaves_of_node {us cs : List Tree} {k : NodeKind} {x : Lexeme}
    (hn : n.children = us ++ [.node k cs]) (hx : (Tree.leavesOfAll cs).getLast? = some x) :
    (Tree.leavesOfAll n.children).getLast? = some x := by
  simp [hn, Tree.leavesOfAll, Tree.leaves, List.getLast?_append, hx]

end Node

/-! ### Nodes of a text -/

section Texts

variable {options : ParseOptions} {source : List Char} {n : Node}

/-- Every node but the root ends as its kind does, and so do those inside it. -/
theorem exists_edged (hn : n ∈ (parseWith options source).tree.nodes 0) (hroot : n.kind ≠ .sourceFile) :
    ∃ d : Draft, d.All (Draft.Edged (Parsing.reports options (Word.ofLexemes true (lexemes source)) = [])) ∧
      n.kind = d.kind ∧ Tree.withoutTriviaOfAll n.children = Draft.treesOfAll d.pieces := by
  obtain ⟨parts, hparts, -⟩ := exists_readsAs options (Word.ofLexemes true (lexemes source))
  obtain ⟨d, hd, hshape⟩ := Tree.exists_inside _ hparts.shows.shape hn
  have hkind := Node.kind_eq_of_shape hshape
  have hedged : d.All (Draft.Edged (Parsing.reports options (Word.ofLexemes true (lexemes source)) = [])) := by
    cases hd with
    | refl => exact absurd hkind hroot
    | node he h => exact fun e hed => edged_of_readsAs hparts _ he e (hed.trans h)
  rw [Node.shape, d.tree_eq_node] at hshape
  exact ⟨d, hedged, hkind, (Tree.node.inj hshape).2⟩

/-- A statement list reaches the end of the text, or it ends in a part and a word comes behind it. -/
theorem stop_eq_or_endInPart (hn : n ∈ (parseWith options source).tree.nodes 0) (hkind : n.kind = .stmtList) :
    (n.range.stop = byteLength source ∧ ∃ front, lexemes source = front ++ Tree.leavesOfAll n.children) ∨
      (Tree.EndInPart n.children ∧ ∃ r ∈ Word.rangesFrom 0 (lexemes source), n.range.stop ≤ r.start) := by
  obtain ⟨front, back, hplace, hstart, hend⟩ := exists_place_parseWith hn (by rw [hkind]; decide)
  have hstop : n.range.stop = byteLength (Lexeme.joined (front ++ Tree.leavesOfAll n.children)) := by
    rw [Node.range, hstart, Lexeme.joined_append, byteLength_append, Tree.widthOfAll_eq]
  rcases hend with ⟨-, rfl⟩ | ⟨hpart, hword⟩
  · rw [List.append_nil] at hplace
    exact .inl ⟨by rw [hstop, ← hplace, joined_lexemes], front, hplace⟩
  · refine .inr ⟨hpart, ?_⟩
    obtain ⟨x, hx, htrivia⟩ := hword hkind
    obtain ⟨us, vs, rfl⟩ := List.append_of_mem hx
    rw [← List.append_assoc] at hplace
    have hrange := Word.getElem?_rangesFrom 0 (front ++ Tree.leavesOfAll n.children ++ us) htrivia vs
    refine ⟨_, hplace ▸ List.mem_of_getElem? hrange, ?_⟩
    rw [hstop, Lexeme.joined_append _ us, byteLength_append]
    change _ ≤ 0 + _
    omega

/-! ### Texts without a problem -/

/-- Whether a node has a statement list at its end: it is one, or a branch, or an `If` on one line. -/
def Node.endsInBody (n : Node) : Bool :=
  n.kind == .stmtList || n.kind.isClause || (n.kind == .ifStmt && !n.isClosed)

theorem Node.not_endsInBody_of_isLine (h : n.kind.isLine) : n.endsInBody = false := by
  obtain ⟨hends, hclause, hlist⟩ := NodeKind.isLine_spec h
  have hif : n.kind ≠ .ifStmt := fun hif => by simp [hif, NodeKind.ends?] at hends
  simp [endsInBody, hlist, hclause, hif]

theorem not_isClosed_of_bare {ps : List (Piece Draft)} (h : n.HasParts .ifStmt ps) (hps : Bare ps) :
    n.isClosed = false := by
  rw [Tree.isClosed_of_shape h, List.any_eq_false]
  intro w hw hends
  have hbare := hps w (Draft.mem_ownWords.1 hw)
  have hkind : .kwEndIf = w.kind := by simpa [NodeKind.ends?] using hends
  rw [← hkind] at hbare
  cases hbare

section Clean

variable (hok : (parseWith options source).ok = true)
include hok

theorem reports_eq_nil : Parsing.reports options (Word.ofLexemes true (lexemes source)) = [] := by
  obtain ⟨⟨parts, hparts⟩, -⟩ := diagnostics_eq_nil_iff.1 (List.isEmpty_iff.1 hok)
  exact hparts.reports_eq

/-- What stands on a line has parts. -/
theorem children_ne_nil_of_mayBeBare (hn : n ∈ (parseWith options source).tree.nodes 0)
    (hbare : n.kind.mayBeBare) : n.children ≠ [] := by
  obtain ⟨t, ps, h⟩ := exists_laidText options source
  obtain ⟨qs, hshape, hfits, -⟩ := h.exists_fits hok hn
  intro hnil
  cases hkind : n.kind with
  | errorNode => exact ne_errorNode_of_ok hok hn hkind
  | functionCall =>
    rw [hkind] at hfits
    obtain ⟨d, hd, -⟩ := hfits
    obtain ⟨m, hm, -⟩ := (Node.hasParts_of_shape hshape).exists_childNode hd
    simp [Node.childNodes, Node.elements, Element.ofTrees, hnil] at hm
  | _ =>
    rw [hkind] at hbare
    cases hbare

/-- Of the nodes but the root only a statement list may be empty.  A node ends in a word, or in what stands on
a line, unless it has a statement list at its end. -/
theorem last_cases (hn : n ∈ (parseWith options source).tree.nodes 0) (hroot : n.kind ≠ .sourceFile)
    (hend : Tree.EndInPart n.children) :
    (n.kind = .stmtList ∧ n.children = []) ∨
    (∃ us k text, n.children = us ++ [.leaf k text] ∧ k.isTrivia = false) ∨
    ∃ us k cs, n.children = us ++ [.node k cs] ∧ k ≠ .sourceFile ∧ (n.endsInBody ∨ k.isLine) := by
  have hclean := reports_eq_nil hok
  obtain ⟨d, hd, hkind, hparts⟩ := exists_edged hn hroot
  obtain ⟨hedged, hinner⟩ := Draft.all_iff.1 hd
  rcases Node.lastPart_of_endInPart hparts hend with
    ⟨hnil, hps⟩ | ⟨us, k, text, qs, w, hlast, -, hk⟩ | ⟨us, k, cs, qs, e, hlast, hps, rfl⟩
  · refine .inl ⟨(hedged.kind_of_pieces_eq_nil hclean hps).elim hkind.trans fun hbare => ?_, hnil⟩
    exact absurd hnil (children_ne_nil_of_mayBeBare hok hn (hkind ▸ hbare))
  · exact .inr (.inl ⟨us, k, text, hlast, hk⟩)
  · refine .inr (.inr ⟨us, e.kind, cs, hlast, ?_, ?_⟩)
    · have he := (Draft.all_iff.1 (hinner e (by simp [hps]))).1.known
      intro hfile
      rw [hfile] at he
      simp [NodeKind.isLine, NodeKind.isClause, NodeKind.ends?] at he
    · refine (hedged.isLine_or_of_last hclean hps).symm.imp_left fun h => ?_
      rw [Node.endsInBody, hkind]
      rcases h with hlist | hclause | ⟨hif, hbare⟩
      · simp [hlist]
      · simp [hclause]
      · have hifParts : n.HasParts .ifStmt d.pieces :=
          Node.hasParts_of_shape (by rw [Node.shape, hkind, hif, hparts])
        have hopen := not_isClosed_of_bare hifParts hbare
        simp [hif, hopen]

/-- In a text without a problem the last leaf of every node but the root is a word.  A statement list, a
branch or an `If` on one line may end in statement lists: none of them is empty, or reaches the end of a text
that ends in no word. -/
theorem exists_last_word (n : Node) (hn : n ∈ (parseWith options source).tree.nodes 0)
    (hroot : n.kind ≠ .sourceFile)
    (hlists : n.endsInBody → ∀ m ∈ n.lastNodes, m.kind = .stmtList → Tree.leavesOfAll m.children ≠ [] ∧
      (m.range.stop < byteLength source ∨ ∀ x ∈ (lexemes source).getLast?, x.kind.isTrivia = false)) :
    ∃ x, (Tree.leavesOfAll n.children).getLast? = some x ∧ x.kind.isTrivia = false := by
  have hself (hlist : n.kind = .stmtList) :=
    hlists (by simp [Node.endsInBody, hlist]) n n.mem_lastNodes_self hlist
  have hpart : Tree.EndInPart n.children ∨
      ∃ x, (Tree.leavesOfAll n.children).getLast? = some x ∧ x.kind.isTrivia = false := by
    by_cases hlist : n.kind = .stmtList
    · rcases stop_eq_or_endInPart hn hlist with ⟨hstop, front, hplace⟩ | ⟨hpart, -⟩
      · obtain ⟨hne, hend⟩ := hself hlist
        have hword := hend.resolve_left (by omega)
        have hx := List.getLast?_eq_some_getLast hne
        refine .inr ⟨_, hx, hword _ ?_⟩
        rw [hplace, List.getLast?_append, hx]
        rfl
      · exact .inl hpart
    · exact .inl (endInPart_parseWith hn hroot hlist)
  rcases hpart with hpart | hword
  · rcases last_cases hok hn hroot hpart with
      ⟨hlist, hnil⟩ | ⟨us, k, text, hlast, hk⟩ | ⟨us, k, cs, hlast, hk, hkind⟩
    · exact absurd (by rw [hnil]; rfl) (hself hlist).1
    · exact ⟨_, Node.getLast?_leaves_of_leaf hlast, hk⟩
    · have hinner : ∃ x, (Tree.leavesOfAll cs).getLast? = some x ∧ x.kind.isTrivia = false := by
        refine exists_last_word ⟨n.start + Tree.widthOfAll us, k, cs⟩ (Node.mem_nodes_of_last hn hlast) hk ?_
        intro hbody m hm
        refine hlists (hkind.resolve_right fun hline => ?_) m (Node.mem_lastNodes_of_last hlast hm)
        rw [Node.not_endsInBody_of_isLine hline] at hbody
        cases hbody
      obtain ⟨x, hx, hword⟩ := hinner
      exact ⟨x, Node.getLast?_leaves_of_node hlast hx, hword⟩
  · exact hword
termination_by sizeOf n.children
decreasing_by
  have hmem : Tree.node k cs ∈ n.children := by simp [hlast]
  have := List.sizeOf_lt_of_mem hmem
  simp only [Tree.node.sizeOf_spec] at this
  omega

end Clean

/-- The `Else` branch of an `If` block ends before the line break behind it: its body is not empty, and
`EndIf` follows. -/
theorem exists_last_word_else :
    let p := parseWith {} "If a Then\nElse\nx = 1\nEndIf".toList
    p.ok = true ∧ ∃ n ∈ p.tree.nodes 0, n.kind = .elseClause ∧ n.range = ⟨10, 20⟩ ∧
      ∃ x, (Tree.leavesOfAll n.children).getLast? = some x ∧ x.kind.isTrivia = false := by
  intro p
  obtain ⟨hok, hbranch⟩ : p.ok = true ∧ ((p.tree.nodes 0).map fun n => (n.kind, n.range,
      n.lastNodes.map fun m => (m.kind, m.range.stop, (Tree.leavesOfAll m.children).isEmpty)))[4]? =
        some (.elseClause, ⟨10, 20⟩, [(.elseClause, 20, false), (.stmtList, 20, false),
          (.assignment, 20, false), (.numberLiteral, 20, false)]) := by decide +kernel
  rw [List.getElem?_map, Option.map_eq_some_iff] at hbranch
  obtain ⟨n, hn, hparts⟩ := hbranch
  obtain ⟨hkind, hparts⟩ := Prod.mk.inj hparts
  obtain ⟨hrange, hlast⟩ := Prod.mk.inj hparts
  have hmem := List.mem_of_getElem? hn
  refine ⟨hok, n, hmem, hkind, hrange, exists_last_word hok n hmem (by rw [hkind]; decide) ?_⟩
  intro _ m hm hlist
  have hplace := List.mem_map_of_mem (f := fun m : Node =>
    (m.kind, m.range.stop, (Tree.leavesOfAll m.children).isEmpty)) hm
  rw [hlast, hlist] at hplace
  have hbody : m.range.stop = 20 ∧ (Tree.leavesOfAll m.children).isEmpty = false := by simpa using hplace
  exact ⟨by simpa using hbody.2, .inl (hbody.1 ▸ by decide)⟩

/-- The empty `Else` branch of an `If` block has no problem, and ends in the line break behind its word: the
empty statement list starts behind the break, which is left to the branch. -/
theorem last_not_word_else :
    let p := parseWith {} "If a Then\nElse\nEndIf".toList
    p.diagnostics = [] ∧ ∃ n ∈ p.tree.nodes 0, n.kind ≠ .sourceFile ∧
      (Tree.leavesOfAll n.children).getLast? = some ⟨.newline, ['\n']⟩ := by
  intro p
  obtain ⟨hok, hbranch⟩ : p.ok = true ∧
      ((p.tree.nodes 0).map fun n => (n.kind, (Tree.leavesOfAll n.children).getLast?))[4]? =
        some (.elseClause, some ⟨.newline, ['\n']⟩) := by decide +kernel
  rw [List.getElem?_map, Option.map_eq_some_iff] at hbranch
  obtain ⟨n, hn, hparts⟩ := hbranch
  obtain ⟨hkind, hlast⟩ := Prod.mk.inj hparts
  exact ⟨List.isEmpty_iff.1 hok, n, List.mem_of_getElem? hn, by rw [hkind]; decide, hlast⟩

/-! ### Blocks that have not ended -/

/-- A node whose last part is a draft ends where a node of the kind of that draft ends. -/
theorem exists_last_node {ps qs : List (Piece Draft)} {e : Draft}
    (hn : n ∈ (parseWith options source).tree.nodes 0) (hend : Tree.EndInPart n.children)
    (hparts : Tree.withoutTriviaOfAll n.children = Draft.treesOfAll ps) (hps : ps = qs ++ [.node e]) :
    ∃ c ∈ (parseWith options source).tree.nodes 0, c.kind = e.kind ∧ c.range.stop = n.range.stop := by
  rcases Node.lastPart_of_endInPart hparts hend with
    ⟨-, hnil⟩ | ⟨us, k, text, rs, w, -, hword, -⟩ | ⟨us, k, cs, rs, d, hlast, hnode, rfl⟩
  · simp [hps] at hnil
  · cases (List.append_inj' (hps.symm.trans hword) rfl).2
  · obtain rfl : e = d := by simpa using (List.append_inj' (hps.symm.trans hnode) rfl).2
    exact ⟨_, Node.mem_nodes_of_last hn hlast, rfl, Node.stop_eq_of_last hlast⟩

/-- A statement list that no word comes behind reaches the end of the text, and so does a branch. -/
theorem stop_eq_of_body (hn : n ∈ (parseWith options source).tree.nodes 0)
    (hkind : n.kind = .stmtList ∨ n.kind.isClause)
    (hlast : ∀ r ∈ Word.rangesFrom 0 (lexemes source), r.start < n.range.stop) :
    n.range.stop = byteLength source := by
  have hlist {m : Node} (hm : m ∈ (parseWith options source).tree.nodes 0) (hkind : m.kind = .stmtList)
      (hlast : ∀ r ∈ Word.rangesFrom 0 (lexemes source), r.start < m.range.stop) :
      m.range.stop = byteLength source := by
    rcases stop_eq_or_endInPart hm hkind with ⟨hstop, -⟩ | ⟨-, r, hr, hbehind⟩
    · exact hstop
    · exact absurd (hlast r hr) (Nat.not_lt.2 hbehind)
  rcases hkind with hkind | hclause
  · exact hlist hn hkind hlast
  · have hroot : n.kind ≠ .sourceFile := fun h => by simp [h, NodeKind.isClause] at hclause
    have hnotList : n.kind ≠ .stmtList := fun h => by simp [h, NodeKind.isClause] at hclause
    obtain ⟨d, hd, hsame, hparts⟩ := exists_edged hn hroot
    obtain ⟨before, body, hps, hbody⟩ := (Draft.all_iff.1 hd).1.clause (hsame ▸ hclause)
    obtain ⟨c, hc, hck, hstop⟩ := exists_last_node hn (endInPart_parseWith hn hroot hnotList) hparts hps
    rw [← hstop] at hlast ⊢
    exact hlist hc (hck.trans hbody) hlast

/-- A block that has not ended when the words end reaches the end of the text, unless it is a `Select` without
a branch. -/
theorem stop_eq_of_unclosed (hn : n ∈ (parseWith options source).tree.blocks false 0)
    (hopen : n.isClosed = false)
    (hlast : ∀ r ∈ Word.rangesFrom 0 (lexemes source), r.start < n.range.stop)
    (hselect : n.kind = .selectStmt → ∃ c ∈ n.childNodes, c.kind = .caseClause) :
    n.range.stop = byteLength source := by
  obtain ⟨hnode, hsome⟩ := Tree.mem_nodes_of_mem_blocks _ hn
  obtain ⟨⟨k, opener⟩, hends⟩ := Option.isSome_iff_exists.1 hsome
  have hroot : n.kind ≠ .sourceFile := fun h => by simp [h, NodeKind.ends?] at hends
  have hnotList : n.kind ≠ .stmtList := fun h => by simp [h, NodeKind.ends?] at hends
  obtain ⟨d, hd, hsame, hparts⟩ := exists_edged hnode hroot
  have hhas : n.HasParts n.kind d.pieces := Node.hasParts_of_shape (by rw [Node.shape, hparts])
  cases (Draft.all_iff.1 hd).1.block k opener (hsame ▸ hends) with
  | closed before after w hps hw =>
    rw [Tree.isClosed_of_shape hhas, List.any_eq_false] at hopen
    exact absurd (by simp [hends, hw]) (hopen w (Draft.mem_ownWords.2 (by simp [hps])))
  | unclosed hbody =>
    rcases hbody with ⟨before, e, hps, hkind⟩ | ⟨hkind, hlines⟩
    · obtain ⟨c, hc, hck, hstop⟩ := exists_last_node hnode (endInPart_parseWith hnode hroot hnotList) hparts hps
      rw [← hstop] at hlast ⊢
      exact stop_eq_of_body hc (hck.symm ▸ hkind) hlast
    · obtain ⟨c, hc, hcase⟩ := hselect (hsame.trans hkind)
      obtain ⟨e, he, hsame⟩ := hhas.exists_draft hc
      have hline := hlines e he
      rw [← hsame, hcase] at hline
      cases hline

/-- A loop without its end takes the comment behind it. -/
theorem stop_eq_of_unclosed_loop :
    let source := "While x\n' c\n".toList
    ∃ n ∈ (parseWith {} source).tree.blocks false 0, n.kind = .whileLoop ∧
      n.range.stop = byteLength source := by
  intro source
  obtain ⟨hloop, hwords⟩ : (((parseWith {} source).tree.blocks false 0).map fun n =>
      (n.kind, n.isClosed, n.range))[0]? = some (.whileLoop, false, ⟨0, 12⟩) ∧
        ∀ r ∈ Word.rangesFrom 0 (lexemes source), r.start < 12 := by decide +kernel
  rw [List.getElem?_map, Option.map_eq_some_iff] at hloop
  obtain ⟨n, hn, hparts⟩ := hloop
  obtain ⟨hkind, hparts⟩ := Prod.mk.inj hparts
  obtain ⟨hopen, hrange⟩ := Prod.mk.inj hparts
  have hmem := List.mem_of_getElem? hn
  refine ⟨n, hmem, hkind, stop_eq_of_unclosed hmem hopen ?_ (by rw [hkind]; nofun)⟩
  rw [hrange]
  exact hwords

end Texts

end CRBasic
