import CRBasic.Proofs.Blocks.Statements
import CRBasic.Proofs.Text.Order

/-!
# Blocks are matched

In the tree of every text a word that ends blocks ends the block that it is a part of, if it is not
among words that fit nowhere, and the blocks that have not ended are those that are reported, in the
order in which they end (`blocks_match`).
-/

namespace CRBasic

open Parsing Draft

/-! ### Whole texts -/

namespace Grammar

open Parsing.Script

variable {fuel : Nat} {s t : Sketch}

/-- The statements of a text lay down parts. -/
theorem laid_allStatements {total : Nat} {v : Unit} (hs : Between .alone total s)
    (hrun : allStatements.run (runRule script fuel) fuel s = some (v, t)) :
    ∃ ps, Laid .sourceFile false s t ps := by
  obtain ⟨us, hus⟩ := run_whileM_iff.1 hrun
  refine rounds_induction run_continuesText (P := fun _ s t =>
    Between .alone total s → ∃ ps, Laid .sourceFile false s t ps) ?_ ?_ hus hs
  · exact fun _ s _ _ => ⟨[], .refl s⟩
  · intro _ s u _ t hgo hsu _ ih hs
    obtain ⟨k, hk⟩ := Option.isSome_iff_exists.1 hgo
    have hword := hs.holds hk
    obtain ⟨ps, hps, -⟩ := statements fuel total s () u hsu hword
    have hu : Heard total .outer (.live true false) u := Heard.of_run hears.statement hsu hword
    obtain ⟨qs, hqs⟩ := ih (hu.between rfl (hps.goes.frames.trans hs.frames))
    exact ⟨ps ++ qs, hps.trans hqs⟩

end Grammar

open Grammar

/-- What a text is read as is laid down from its start to its end. -/
theorem Parsing.ReadsAs.exists_laid {options : ParseOptions} {words : List Word}
    {parts : List (Piece Draft)} {reports : List Report} (h : ReadsAs options words parts reports) :
    ∃ t, Laid .sourceFile false (Sketch.initial options words) t parts ∧ t.rest = [] ∧
      t.reports.toList = reports := by
  obtain ⟨t, ⟨fuel, hrun⟩, hrest, hparts, hreports⟩ := h
  obtain ⟨ps, hps⟩ := laid_allStatements (between_initial fun h => absurd rfl h) hrun
  have hsame : t.parts = ps.reverse := by
    rw [hps.parts, Sketch.initial, List.append_nil]
  rw [hsame, List.reverse_reverse] at hparts
  exact ⟨t, hparts ▸ hps, hrest, hreports⟩

/-- What is laid down from the start of a text to its end is what its tree shows. -/
structure LaidText (options : ParseOptions) (source : List Char) (t : Sketch)
    (ps : List (Piece Draft)) : Prop where
  laid : Laid .sourceFile false (Sketch.initial options (Word.ofLexemes true (lexemes source))) t ps
  rest : t.rest = []
  shows : (parseWith options source).tree.Shows (.node .sourceFile ps)
  diagnostics : (parseWith options source).diagnostics =
    (Problem.sortByStart (Problem.ofLexemes 0 (lexemes source) ++ t.reports.toList.map
      (·.toProblem (Word.rangesFrom 0 (lexemes source)).toArray (byteLength source)))).map
        (Problem.resolve (LineIndex.ofText source))

theorem exists_laidText (options : ParseOptions) (source : List Char) :
    ∃ t ps, LaidText options source t ps := by
  obtain ⟨parts, hparts, -⟩ := exists_readsAs options (Word.ofLexemes true (lexemes source))
  obtain ⟨t, hlaid, hrest, hreports⟩ := hparts.exists_laid
  exact ⟨t, parts, hlaid, hrest, hparts.shows, hreports ▸ hparts.diagnostics_eq⟩

namespace LaidText

variable {options : ParseOptions} {source : List Char} {t : Sketch} {ps : List (Piece Draft)}
  (h : LaidText options source t ps)
include h

theorem filled : Filled .sourceFile false false
    (Sketch.initial options (Word.ofLexemes true (lexemes source))) t ps :=
  h.laid.filled (s := Sketch.initial options (Word.ofLexemes true (lexemes source)))
    (ownUnclosed_of_ends? rfl _ _) fun _ _ => trivial

/-- Every node of the tree has the parts of a draft inside the one that the tree shows. -/
theorem exists_parts {n : Node} (hn : n ∈ (parseWith options source).tree.nodes 0) :
    ∃ d : Draft, d.Inside (.node .sourceFile ps) ∧ n.HasParts d.kind d.pieces := by
  obtain ⟨d, hd, hshape⟩ := Tree.exists_inside _ h.shows.shape hn
  exact ⟨d, hd, Node.hasParts_of_tree hshape⟩

/-- The problems of blocks that have not ended are those of the blocks of the tree. -/
theorem unclosed_eq : (t.reports.toList.filter (·.cause.isUnclosed)).map (·.cause) =
    ((parseWith options source).tree.blocks false 0).filterMap Node.unclosed? := by
  obtain ⟨rs, hrs, -, hcauses⟩ := h.filled.unclosed
  have hrs : t.reports.toList.filter (·.cause.isUnclosed) = rs := hrs
  rw [hrs, hcauses]
  exact (Tree.unclosed_blocks _ false 0 h.shows).symm

/-- Blocks that have not ended are reported in order. -/
theorem ordered_unclosed : Problem.Ordered ((t.reports.toList.filter (·.cause.isUnclosed)).map
    (·.toProblem (Word.rangesFrom 0 (lexemes source)).toArray (byteLength source))) := by
  obtain ⟨rs, hrs, ⟨ns, hns, hsorted, -⟩, -⟩ := h.filled.unclosed
  have hrs : t.reports.toList.filter (·.cause.isUnclosed) = rs := hrs
  have hbounds (r : ByteRange) (hr : r ∈ Word.rangesFrom 0 (lexemes source)) :
      r.start ≤ byteLength source := by
    have := Word.rangesFrom_bounds 0 (lexemes source) r hr
    rw [joined_lexemes] at this
    omega
  rw [hrs]
  exact Report.ordered_toProblem hns hsorted (Word.ordered_rangesFrom 0 _).1 hbounds

theorem causes_eq : ((parseWith options source).diagnostics.map (·.cause)).filter (·.isUnclosed) =
    (t.reports.toList.filter (·.cause.isUnclosed)).map (·.cause) := by
  have hlexical : (Problem.ofLexemes 0 (lexemes source)).filter (·.cause.isUnclosed) = [] :=
    List.filter_eq_nil_iff.2 fun q hq => by simp [Problem.not_isUnclosed_of_mem_ofLexemes hq]
  have hresolve (qs : List Problem) (index : LineIndex) :
      ((qs.map (Problem.resolve index)).map (·.cause)).filter (·.isUnclosed) =
        (qs.filter (·.cause.isUnclosed)).map (·.cause) := by
    rw [List.map_map, List.filter_map]
    rfl
  have hreports (f : Report → Problem) (hf : ∀ r, (f r).cause = r.cause) (rs : List Report) :
      (rs.map f).filter (·.cause.isUnclosed) = (rs.filter (·.cause.isUnclosed)).map f := by
    rw [List.filter_map]
    congr 2
    funext r
    exact congrArg Cause.isUnclosed (hf r)
  rw [h.diagnostics, hresolve, Problem.filter_sortByStart, List.filter_append, hlexical,
    List.nil_append, hreports _ (fun _ => rfl), Problem.sortByStart_of_ordered h.ordered_unclosed,
    List.map_map]
  rfl

/-- The words of a node that end blocks end the node, and there is at most one. -/
theorem words_end {n : Node} (hn : n ∈ (parseWith options source).tree.nodes 0)
    (hkind : n.kind ≠ .errorNode) :
    (∀ x ∈ n.words, x.kind.isTerminator → ∃ opener, n.kind.ends? = some (x.kind, opener)) ∧
      n.words.countP (·.kind.isTerminator) ≤ 1 := by
  obtain ⟨d, hd, hparts⟩ := h.exists_parts hn
  rcases (h.filled.placed d hd).ends with herror | ⟨hends, hcount⟩
  · exact absurd (hparts.kind_eq.trans herror) hkind
  · refine ⟨fun x hx hend => ?_, ?_⟩
    · have hx : x.lexeme ∈ (ownWords d.pieces).map Word.lexeme := by
        rw [← hparts.words_eq]
        exact List.mem_map_of_mem hx
      obtain ⟨w, hw, hlexeme⟩ := List.mem_map.1 hx
      have hsame : w.kind = x.kind := congrArg Lexeme.kind hlexeme
      rw [hparts.kind_eq, ← hsame]
      exact hends w hw (hsame ▸ hend)
    · have hleaf : n.words.countP (·.kind.isTerminator) =
          (n.words.map Leaf.lexeme).countP (·.kind.isTerminator) := by
        rw [List.countP_map]
        rfl
      rw [hleaf, hparts.words_eq, List.countP_map]
      exact hcount

end LaidText

/-- In the tree of every text a word that ends blocks is a part of a block that it ends, or of words that
fit nowhere; no block has two such words; and as many blocks have none as are reported, in the order in
which they end, so that inner blocks come before those around them. -/
theorem blocks_match (options : ParseOptions) (source : List Char) :
    (∀ n ∈ (parseWith options source).tree.nodes 0, ∀ x ∈ n.words, x.kind.isTerminator →
      n.kind = .errorNode ∨ ∃ opener, n.kind.ends? = some (x.kind, opener)) ∧
    (∀ n ∈ (parseWith options source).tree.nodes 0, n.kind ≠ .errorNode →
      n.words.countP (·.kind.isTerminator) ≤ 1) ∧
    ((parseWith options source).diagnostics.map (·.cause)).countP (·.isUnclosed) =
      ((parseWith options source).tree.blocks false 0).countP (!·.isClosed) ∧
    ((parseWith options source).diagnostics.map (·.cause)).filter (·.isUnclosed) =
      ((parseWith options source).tree.blocks false 0).filterMap Node.unclosed? := by
  obtain ⟨t, ps, h⟩ := exists_laidText options source
  have hcauses := h.causes_eq.trans h.unclosed_eq
  refine ⟨fun n hn x hx hend => ?_, fun n hn hkind => (h.words_end hn hkind).2, ?_, hcauses⟩
  · by_cases hkind : n.kind = .errorNode
    · exact .inl hkind
    · exact .inr ((h.words_end hn hkind).1 x hx hend)
  · rw [List.countP_eq_length_filter, hcauses, List.length_filterMap_eq_countP]
    refine List.countP_congr fun n hn => ?_
    obtain ⟨ends, hends⟩ := Option.isSome_iff_exists.1 (Tree.ends?_of_mem_blocks hn)
    rw [Node.unclosed?, hends]
    cases n.isClosed <;> simp

end CRBasic
