import CRBasic.Proofs.Embedding.Headers
import CRBasic.Proofs.Grammar.Lineal
import CRBasic.Proofs.Text.Problems
import CRBasic.View.Statement

/-!
# A text in a block

A text without a problem means the same as the body of a block (`parseWith_block`): the statements of
the block are those of the text.
-/

namespace CRBasic

open Parsing Grammar

variable {options : ParseOptions} {source : List Char} {words : List Word}
  {parts before : List (Piece Draft)} {reports : List Report}

/-- The root of the tree shows what the text is read as. -/
theorem Parsing.ReadsAs.exists_file
    (h : ReadsAs options (Word.ofLexemes true (lexemes source)) parts reports) :
    ∃ file : View .sourceFile, ((parseWith options source).tree.nodes 0).head? = some file.node ∧
      file.node.HasParts .sourceFile parts := by
  obtain ⟨ts, htree, -, hts⟩ := h.tree_eq
  refine ⟨⟨⟨0, .sourceFile, ts⟩, rfl⟩, ?_, ?_⟩
  · rw [htree, Tree.nodes, List.head?_cons]
  · exact Node.hasParts_of_shape (congrArg (Tree.node .sourceFile) hts)

namespace BlockForm

/-- The words of a text stand on one line, and the first one opens a block. -/
def Heads (form : BlockForm) (header : List Char) : Prop :=
  ∃ w ws, Word.ofLexemes true (lexemes header) = w :: ws ∧ w.kind = form.opener ∧
    ∀ v ∈ ws, v.startsLine = false

/-- The only word of a text ends a block. -/
def Ends (form : BlockForm) (last : List Char) : Prop :=
  ∃ w, Word.ofLexemes true (lexemes last) = [w] ∧ w.kind = form.terminator

theorem Opens.noBody {form : BlockForm} {name? : Option (List Char)}
    (h : form.Opens options words name? before) : NoBody before := by
  obtain ⟨fuel, hrun⟩ := h [] nofun
  exact noBody_of_run (lineal_opening form) (fun _ hd => absurd hd List.not_mem_nil) hrun

end BlockForm

theorem Draft.nodesOf_append (ps qs : List (Piece Draft)) :
    nodesOf (ps ++ qs) = nodesOf ps ++ nodesOf qs := by
  induction ps with
  | nil => rfl
  | cons p ps ih => cases p <;> simp [nodesOf, ih]

/-- A node with one statement list among its parts, with no node after it. -/
theorem Node.HasParts.exists_body {n : Node} {kind : NodeKind} {after : List (Piece Draft)}
    (h : n.HasParts kind (before ++ .node (.node .stmtList parts) :: after))
    (hbefore : NoBody before) (hafter : Draft.nodesOf after = []) :
    ∃ body : View .stmtList, n.childrenOf .stmtList = [body] ∧
      body.node.HasParts .stmtList parts := by
  have hnodes := h.childNodes_eq
  rw [Draft.nodesOf_append, List.map_append, Draft.nodesOf, hafter] at hnodes
  obtain ⟨ns, ms, hn, hns, hms⟩ := List.map_eq_append_iff.1 hnodes
  obtain ⟨m, ms', rfl, hm, hms'⟩ := List.map_eq_cons_iff.1 hms
  obtain rfl := List.map_eq_nil_iff.1 hms'
  have hparts : m.HasParts .stmtList parts := Node.hasParts_of_shape hm
  refine ⟨⟨m, hparts.kind_eq⟩, ?_, hparts⟩
  have hnone : ns.filterMap (View.ofNode? .stmtList) = [] := by
    refine List.filterMap_eq_nil_iff.2 fun c hc => ?_
    have hshape : c.shape ∈ (Draft.nodesOf before).map Draft.tree :=
      hns ▸ List.mem_map_of_mem hc
    obtain ⟨d, hd, hdc⟩ := List.mem_map.1 hshape
    have hkind : c.kind ≠ .stmtList := by
      rw [Node.kind_eq_of_shape hdc.symm]
      exact hbefore d (Draft.mem_nodesOf.1 hd)
    rw [View.ofNode?, dif_neg hkind]
  rw [Node.childrenOf, hn, List.filterMap_append, hnone, List.nil_append, List.filterMap_cons,
    View.ofNode?, dif_pos hparts.kind_eq]
  rfl

/-- A text of one block with one body, and the body. -/
theorem exists_block {inner outer : List Char} {kind : NodeKind} {after : List (Piece Draft)}
    {options' : ParseOptions}
    (hinner : ReadsAs options (Word.ofLexemes true (lexemes inner)) parts [])
    (houter : ReadsAs options' (Word.ofLexemes true (lexemes outer)) [.node (.node kind
      (before ++ .node (.node .stmtList parts) :: after))] reports) (hbefore : NoBody before)
    (hafter : Draft.nodesOf after = []) :
    ∃ (plain file : View .sourceFile) (block : Node) (body : View .stmtList),
      ((parseWith options inner).tree.nodes 0).head? = some plain.node ∧
      ((parseWith options' outer).tree.nodes 0).head? = some file.node ∧
      file.fileStatements = [block] ∧ file.node.words = [] ∧
      block.kind = kind ∧ block.childrenOf .stmtList = [body] ∧
      body.statements.map Node.shape = plain.fileStatements.map Node.shape := by
  obtain ⟨plain, hplain, hplainParts⟩ := hinner.exists_file
  obtain ⟨file, hfile, hfileParts⟩ := houter.exists_file
  obtain ⟨block, bs, hblock, hshape, hbs⟩ := List.map_eq_cons_iff.1 hfileParts.childNodes_eq
  obtain rfl := List.map_eq_nil_iff.1 hbs
  have hblockParts := Node.hasParts_of_shape hshape
  obtain ⟨body, hbody, hbodyParts⟩ := hblockParts.exists_body hbefore hafter
  refine ⟨plain, file, block, body, hplain, hfile, hblock, ?_, hblockParts.kind_eq, hbody, ?_⟩
  · exact List.map_eq_nil_iff.1 hfileParts.words_eq
  · exact hbodyParts.childNodes_eq.trans hplainParts.childNodes_eq.symm

/-- A text without a problem is the body of a block as it is a text of its own.  The header is any line
that opens a block without a problem, where the block is empty. -/
theorem parseWith_block (options : ParseOptions) (form : BlockForm) (header source last : List Char)
    (hheader : form.Heads header) (hlast : form.Ends last)
    (hempty : (parseWith options.deeper (header ++ '\n' :: last)).diagnostics = [])
    (hsource : (parseWith options source).diagnostics = []) :
    let p := parseWith options.deeper (header ++ '\n' :: (source ++ '\n' :: last))
    p.diagnostics = [] ∧ ∃ (plain file : View .sourceFile) (block : Node) (body : View .stmtList),
      ((parseWith options source).tree.nodes 0).head? = some plain.node ∧
      (p.tree.nodes 0).head? = some file.node ∧
      file.fileStatements = [block] ∧ file.node.words = [] ∧
      block.kind = form.kind ∧ block.childrenOf .stmtList = [body] ∧
      body.statements.map Node.shape = plain.fileStatements.map Node.shape := by
  intro p
  obtain ⟨v, vs, hheader, hopener, hline⟩ := hheader
  obtain ⟨w, hlast, hw⟩ := hlast
  obtain ⟨⟨ps, hps⟩, hemptyWords⟩ := diagnostics_eq_nil_iff.1 hempty
  obtain ⟨⟨parts, hparts⟩, hsourceWords⟩ := diagnostics_eq_nil_iff.1 hsource
  rw [Word.words_lineFeed, hheader, hlast] at hps hemptyWords
  have hwords : Word.ofLexemes true (lexemes (header ++ '\n' :: (source ++ '\n' :: last))) =
      (v :: vs) ++ (Word.ofLexemes true (lexemes source) ++ [w]) := by
    rw [Word.words_lineFeed, Word.words_lineFeed, hheader, hlast]
  have hstart : w.startsLine := by
    have hfirst : ∀ x ∈ [w].head?, x.startsLine := hlast ▸ Word.startsLine_of_head?
    exact hfirst w rfl
  have hwerror : w.kind ≠ .error := hemptyWords w (by simp)
  obtain ⟨name?, before, hopens⟩ := BlockForm.exists_opens hopener hline
    (fun v hv => hemptyWords v (by simp [hv])) (Nat.succ_pos _) hstart hwerror hps
  have hblock := hopens.readsAs (by simpa using hopener) hparts Word.startsLine_of_head? hsourceWords
    hw hstart
  rw [← hwords] at hblock
  refine ⟨?_, exists_block hparts hblock ?_ rfl⟩
  · refine diagnostics_eq_nil_iff.2 ⟨⟨_, hblock⟩, ?_⟩
    rw [List.forall_mem_append] at hemptyWords
    rw [hwords, List.forall_mem_append, List.forall_mem_append]
    exact ⟨hemptyWords.1, hsourceWords, hemptyWords.2⟩
  · exact fun d hd => hopens.noBody d (List.mem_reverse.1 hd)

/-- A loop with another one of its form, and an `Else` on one line, as its body. -/
theorem parseWith_block_loop :
    let options : ParseOptions := { maxDepth := 3 }
    let header := "For i = 1 To 3 ' count".toList
    let source := "For j = 1 To i\n If j Then Else x = j\nNext j".toList
    let last := "Next".toList
    BlockForm.forLoop.Heads header ∧ BlockForm.forLoop.Ends last ∧
      (parseWith options.deeper (header ++ '\n' :: last)).diagnostics = [] ∧
      (parseWith options source).diagnostics = [] ∧
      (let p := parseWith options.deeper (header ++ '\n' :: (source ++ '\n' :: last))
       p.diagnostics = [] ∧
        ∃ (plain file : View .sourceFile) (block : Node) (body : View .stmtList),
          ((parseWith options source).tree.nodes 0).head? = some plain.node ∧
          (p.tree.nodes 0).head? = some file.node ∧
          file.fileStatements = [block] ∧ file.node.words = [] ∧
          block.kind = .forLoop ∧ block.childrenOf .stmtList = [body] ∧
          body.statements.map Node.shape = plain.fileStatements.map Node.shape) := by
  intro options header source last
  have hheader : BlockForm.forLoop.Heads header := by
    refine ⟨⟨.kwFor, "For".toList, true⟩, (Word.ofLexemes true (lexemes header)).tail, ?_, rfl, ?_⟩
    · decide +kernel
    · decide +kernel
  have hlast : BlockForm.forLoop.Ends last :=
    ⟨⟨.kwNext, last, true⟩, by decide +kernel, rfl⟩
  have hempty : (parseWith options.deeper (header ++ '\n' :: last)).diagnostics = [] := by
    decide +kernel
  have hsource : (parseWith options source).diagnostics = [] := by decide +kernel
  exact ⟨hheader, hlast, hempty, hsource,
    parseWith_block options .forLoop header source last hheader hlast hempty hsource⟩

end CRBasic
