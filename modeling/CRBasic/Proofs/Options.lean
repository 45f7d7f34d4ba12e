import CRBasic.Proofs.Parsing.Looser

/-!
# Options only restrict

Options say what is a problem, and nothing of what is made of a text without one: with looser options
the text is parsed into the same tree, with the same diagnostics (`options_only_restrict`).
-/

namespace CRBasic

open Parsing

section

variable {o o' : ParseOptions} {source : List Char} {parts : List (Piece Draft)}
  {reports : List Report}

theorem Parse.eq_of_fields {p q : Parse} (htree : p.tree = q.tree)
    (hdiagnostics : p.diagnostics = q.diagnostics) (hindex : p.lineIndex = q.lineIndex) : p = q := by
  cases p
  cases q
  subst htree hdiagnostics hindex
  rfl

/-- What a text is read as tells all of its parse. -/
theorem parseWith_eq_of_readsAs
    (h : ReadsAs o (Word.ofLexemes true (lexemes source)) parts reports)
    (h' : ReadsAs o' (Word.ofLexemes true (lexemes source)) parts reports) :
    parseWith o' source = parseWith o source := by
  have hevents : Parsing.events o' (Word.ofLexemes true (lexemes source)) =
      Parsing.events o (Word.ofLexemes true (lexemes source)) := by
    obtain ⟨ps, hps, hevents, -⟩ := exists_readsAs o (Word.ofLexemes true (lexemes source))
    obtain ⟨ps', hps', hevents', -⟩ := exists_readsAs o' (Word.ofLexemes true (lexemes source))
    obtain ⟨rfl, -⟩ := hps.unique h
    obtain ⟨rfl, -⟩ := hps'.unique h'
    rw [hevents, hevents']
  have hdiagnostics : (parseWith o' source).diagnostics = (parseWith o source).diagnostics := by
    rw [h.diagnostics_eq, h'.diagnostics_eq]
  have htree : (parseWith o' source).tree = (parseWith o source).tree := by
    rw [tree_parseWith, tree_parseWith, hevents]
  exact Parse.eq_of_fields htree hdiagnostics rfl

end

/-- Where a text does not nest too deep, a greater limit changes nothing.  Where it has no problem at all
and one-line forms of `If` are not allowed, allowing them changes nothing either, with any greater
limit. -/
theorem options_only_restrict (source : List Char) (single : Bool) {m m' : Nat} (hm : m ≤ m') :
    ((∀ d ∈ (parseWith ⟨m, single⟩ source).diagnostics, d.cause ≠ .nestingTooDeep) →
        parseWith ⟨m', single⟩ source = parseWith ⟨m, single⟩ source) ∧
      ((parseWith ⟨m, false⟩ source).diagnostics = [] →
        parseWith ⟨m', true⟩ source = parseWith ⟨m, false⟩ source) := by
  constructor
  · intro hdiagnostics
    obtain ⟨parts, hparts, -⟩ :=
      exists_readsAs ⟨m, single⟩ (Word.ofLexemes true (lexemes source))
    have hloosens : Loosens ⟨m, single⟩ ⟨m', single⟩ (· = .nestingTooDeep) fun _ => True :=
      ⟨hm, rfl, .inl rfl⟩
    refine parseWith_eq_of_readsAs hparts (hparts.looser hloosens (fun _ _ => trivial) ?_)
    intro r hr hcause
    obtain ⟨d, hd, hdr⟩ := exists_diagnostic hparts hr
    exact hdiagnostics d hd (hdr.trans hcause)
  · intro hdiagnostics
    obtain ⟨⟨parts, hparts⟩, hwords⟩ := diagnostics_eq_nil_iff.1 hdiagnostics
    have hloosens : Loosens ⟨m, false⟩ ⟨m', true⟩ (fun _ => True) fun w => w.kind ≠ .error :=
      ⟨hm, trivial, .inr ⟨rfl, fun _ => trivial, fun _ hw => hw⟩⟩
    refine parseWith_eq_of_readsAs hparts (hparts.looser hloosens hwords ?_)
    intro r hr
    exact absurd hr List.not_mem_nil

/-- A block under a limit of two and a greater one: with a problem of another kind, and without any. -/
theorem options_only_restrict_block :
    2 ≤ 256 ∧ (parseWith ⟨2, true⟩ "If x Then\ny =\nEndIf".toList).diagnostics ≠ [] ∧
      parseWith ⟨256, true⟩ "If x Then\ny =\nEndIf".toList =
        parseWith ⟨2, true⟩ "If x Then\ny =\nEndIf".toList ∧
      parseWith ⟨256, true⟩ "If x Then\ny = 1\nEndIf".toList =
        parseWith ⟨2, false⟩ "If x Then\ny = 1\nEndIf".toList := by
  have hlimit : 2 ≤ 256 := by decide
  refine ⟨hlimit, by decide +kernel, ?_, ?_⟩
  · exact (options_only_restrict _ true hlimit).1 (by decide +kernel)
  · exact (options_only_restrict _ true hlimit).2 (by decide +kernel)

end CRBasic
