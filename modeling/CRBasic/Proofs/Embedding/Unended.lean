import CRBasic.Proofs.Embedding.InBlock

/-!
# A block without its end

A block whose end is missing goes on to the end of the text.  A text without a problem is still its body,
and the missing end is the one problem, at the end of the text (`parseWith_unended`).
-/

namespace CRBasic

open Parsing Parsing.Script Grammar

variable {options : ParseOptions} {words : List Word} {parts before : List (Piece Draft)}

/-- The report of a missing end at the end of a text of so many words. -/
def BlockForm.unended (form : BlockForm) (total : Nat) : Report :=
  ⟨.unclosedBlock form.terminator form.opener, .startAfter total, .endOf (total + 1)⟩

namespace BlockForm

variable {form : BlockForm} {name? : Option (List Char)}

theorem yields_ending_of_nil (form : BlockForm) (options : ParseOptions)
    (name? : Option (List Char)) (total : Nat) (before : List (Piece Draft)) :
    Yields script (form.ending name?) (Sketch.amid options total [] before) ()
      { Sketch.amid options total [] before with reports := #[form.unended total] } := by
  refine Yields.bind ⟨0, run_terminator_of_ne nofun⟩ ?_
  rw [if_neg Bool.false_ne_true]
  exact yields_pure ()

/-- A block with a text as its body and without an end is read as one statement, and reported. -/
theorem Opens.readsAs_unended {body : List Word} (h : form.Opens options.deeper words name? before)
    (hopener : words.head?.map (·.kind) = some form.opener) (hbody : ReadsAs options body parts [])
    (hline : ∀ v ∈ body.head?, v.startsLine) (herror : ∀ v ∈ body, v.kind ≠ .error) :
    ReadsAs options.deeper (words ++ body) [.node (.node form.kind
      (before.reverse ++ [.node (.node .stmtList parts)]))]
        [form.unended (words ++ body).length] := by
  have hfirst : (words ++ body).head?.map (·.kind) = some form.opener := by
    cases words with
    | nil => cases hopener
    | cons v vs => exact hopener
  have hlist := hbody.blockBody_atEnd herror (by simpa using form.closes_terminator) words.length before
    fun h => absurd (List.mem_singleton.1 h).symm form.terminator_ne_else
  have hend := form.yields_ending_of_nil options.deeper name? (words.length + body.length)
    (.node (.node .stmtList parts) :: before)
  rw [← List.length_append] at hlist hend
  have hblock := readsAs_statement hfirst (Nat.succ_pos _) form.statementOf_opener
    ((h _ hline).bind (hlist.bind hend)) rfl
  simpa [Sketch.amid] using hblock

end BlockForm

/-- A problem behind the last word lies at the end of the text. -/
theorem BlockForm.toProblem_unended (form : BlockForm) {ranges : List ByteRange} {total : Nat}
    (h : ranges.length = total) (size : Nat) : (form.unended total).toProblem ranges.toArray size =
      ⟨.unclosedBlock form.terminator form.opener, ⟨size, size⟩⟩ := by
  simp [Report.toProblem, unended, Edge.offset, h]

/-- A block is read to the end of the text where its end is missing: the text has just this problem, at
its end, and the body of the block has the statements of the text that was put there.  The header is any
line that opens a block without a problem, where the block is empty and ends. -/
theorem parseWith_unended (options : ParseOptions) (form : BlockForm)
    (header source last : List Char) (hheader : form.Heads header) (hlast : form.Ends last)
    (hempty : (parseWith options.deeper (header ++ '\n' :: last)).diagnostics = [])
    (hsource : (parseWith options source).diagnostics = []) :
    let text := header ++ '\n' :: source
    let p := parseWith options.deeper text
    (∃ d, p.diagnostics = [d] ∧ d.cause = .unclosedBlock form.terminator form.opener ∧
      d.message =
        "expected " ++ form.terminator.displayName ++ " to close " ++ form.opener.displayName ∧
      d.range = ⟨byteLength text, byteLength text⟩) ∧
    ∃ (plain file : View .sourceFile) (block : Node) (body : View .stmtList),
      ((parseWith options source).tree.nodes 0).head? = some plain.node ∧
      (p.tree.nodes 0).head? = some file.node ∧
      file.fileStatements = [block] ∧ file.node.words = [] ∧
      block.kind = form.kind ∧ block.childrenOf .stmtList = [body] ∧
      body.statements.map Node.shape = plain.fileStatements.map Node.shape := by
  intro text p
  obtain ⟨v, vs, hheader, hopener, hline⟩ := hheader
  obtain ⟨w, hlast, hw⟩ := hlast
  obtain ⟨⟨ps, hps⟩, hemptyWords⟩ := diagnostics_eq_nil_iff.1 hempty
  obtain ⟨⟨parts, hparts⟩, hsourceWords⟩ := diagnostics_eq_nil_iff.1 hsource
  rw [Word.words_lineFeed, hheader, hlast] at hps hemptyWords
  have hwords : Word.ofLexemes true (lexemes text) =
      (v :: vs) ++ Word.ofLexemes true (lexemes source) := by
    rw [Word.words_lineFeed, hheader]
  have hstart : w.startsLine := by
    have hfirst : ∀ x ∈ [w].head?, x.startsLine := hlast ▸ Word.startsLine_of_head?
    exact hfirst w rfl
  have hwerror : w.kind ≠ .error := hemptyWords w (by simp)
  obtain ⟨name?, before, hopens⟩ := BlockForm.exists_opens hopener hline
    (fun v hv => hemptyWords v (by simp [hv])) (Nat.succ_pos _) hstart hwerror hps
  have hblock := hopens.readsAs_unended (by simpa using hopener) hparts Word.startsLine_of_head?
    hsourceWords
  rw [← hwords] at hblock
  refine ⟨⟨Problem.resolve (LineIndex.ofText text)
      ⟨.unclosedBlock form.terminator form.opener, ⟨byteLength text, byteLength text⟩⟩,
    ?_, rfl, rfl, rfl⟩, exists_block hparts hblock ?_ rfl⟩
  · have hnone : Problem.ofLexemes 0 (lexemes text) = [] := by
      rw [Problem.ofLexemes_eq_nil_iff 0 true, hwords, List.forall_mem_append]
      rw [List.forall_mem_append] at hemptyWords
      exact ⟨hemptyWords.1, hsourceWords⟩
    rw [hblock.diagnostics_eq, hnone, List.nil_append, List.map_singleton,
      form.toProblem_unended (Word.length_rangesFrom ..)]
    rfl
  · exact fun d hd => hopens.noBody d (List.mem_reverse.1 hd)

/-- A loop with a complete loop of its form as its body. -/
theorem parseWith_unended_loop :
    let options : ParseOptions := { maxDepth := 2 }
    let header := "For i = 1 To 3 ' count".toList
    let source := "For j = 1 To i\n x = j\nNext j\n' last\n".toList
    let last := "Next".toList
    let text := header ++ '\n' :: source
    BlockForm.forLoop.Heads header ∧ BlockForm.forLoop.Ends last ∧
      (parseWith options.deeper (header ++ '\n' :: last)).diagnostics = [] ∧
      (parseWith options source).diagnostics = [] ∧
      (let p := parseWith options.deeper text
       (∃ d, p.diagnostics = [d] ∧ d.cause = .unclosedBlock .kwNext .kwFor ∧
          d.message = "expected " ++ TokenKind.kwNext.displayName ++ " to close " ++
            TokenKind.kwFor.displayName ∧
          d.range = ⟨byteLength text, byteLength text⟩) ∧
        ∃ (plain file : View .sourceFile) (block : Node) (body : View .stmtList),
          ((parseWith options source).tree.nodes 0).head? = some plain.node ∧
          (p.tree.nodes 0).head? = some file.node ∧
          file.fileStatements = [block] ∧ file.node.words = [] ∧
          block.kind = .forLoop ∧ block.childrenOf .stmtList = [body] ∧
          body.statements.map Node.shape = plain.fileStatements.map Node.shape) := by
  intro options header source last text
  have hheader : BlockForm.forLoop.Heads header := by
    refine ⟨⟨.kwFor, "For".toList, true⟩, (Word.ofLexemes true (lexemes header)).tail, ?_, rfl, ?_⟩
    · decide +kernel
    · decide +kernel
  have hlast : BlockForm.forLoop.Ends last :=
    ⟨⟨.kwNext, last, true⟩, by decide +kernel, rfl⟩
  have hempty : (parseWith options.deeper (header ++ '\n' :: last)).diagnostics = [] := by
    decide +kernel
  have hsource : (parseWith options source).diagnostics = [] := by decide +kernel
  exact ⟨hheader, hlast, hempty, hsource,
    parseWith_unended options .forLoop header source last hheader hlast hempty hsource⟩

end CRBasic
