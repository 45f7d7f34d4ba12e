import CRBasic.Proofs.Lines.Places
import CRBasic.Proofs.Text.Order
import CRBasic.Proofs.Trivia

/-!
# The diagnostics of a text

The diagnostics of a text are in the order of their starts, those of lexemes first.  There is one for each
token in error and one for each report of the grammar, and the range of each one is within a line
(`diagnostics_parseWith`).
-/

namespace CRBasic

open Parsing

namespace Diagnostic

/-- A diagnostic starts before another one, or where it does; then it is not a grammatical one before a
lexical one. -/
def Precedes (d e : Diagnostic) : Prop :=
  d.range.start < e.range.start ∨
    (d.range.start = e.range.start ∧ (e.kind = .lexical → d.kind = .lexical))

/-- The place of a diagnostic is a range of its text, and both ends are on one line. -/
structure Placed (source : List Char) (d : Diagnostic) : Prop where
  start_le_stop : d.range.start ≤ d.range.stop
  stop_le : d.range.stop ≤ byteLength source
  start_isBoundary : IsBoundary source d.range.start
  stop_isBoundary : IsBoundary source d.range.stop
  span_eq : d.span = .ofRange (LineIndex.ofText source) d.range
  line_eq : d.span.start.line = d.span.stop.line

end Diagnostic

namespace Problem

variable {source : List Char} {lexical grammatical : List Problem}

theorem placed_resolve {p : Problem} (h : p.range.WithinLine source) :
    (p.resolve (LineIndex.ofText source)).Placed source where
  start_le_stop := h.start_le_stop
  stop_le := h.isBoundary.2.le
  start_isBoundary := h.isBoundary.1
  stop_isBoundary := h.isBoundary.2
  span_eq := rfl
  line_eq := h.line_eq

/-- The range of a lexeme in error is within a line. -/
theorem withinLine_of_mem_ofLexemes {p : Problem} (h : p ∈ ofLexemes 0 (lexemes source)) :
    p.range.WithinLine source := by
  obtain ⟨pre, x, post, hsplit, hx, rfl⟩ := exists_of_mem_ofLexemes h
  refine ⟨Lexeme.joined pre, x.text, Lexeme.joined post, ?_, ?_, ?_⟩
  · rw [← Lexeme.joined_cons, ← Lexeme.joined_append, ← hsplit, joined_lexemes]
  · have hmem : x ∈ lexemes source := by
      rw [hsplit]
      exact List.mem_append_right _ List.mem_cons_self
    exact unbroken_of_mem_lexemes hmem (by simp [hx])
  · rw [Lexeme.token, Nat.zero_add]

/-- The problems that the grammar reports in a text, in the order in which it finds them. -/
def ofReports (options : ParseOptions) (source : List Char) : List Problem :=
  (reports options (Word.ofLexemes true (lexemes source))).map
    (·.toProblem (Word.rangesFrom 0 (lexemes source)).toArray (byteLength source))

/-- The reports of the grammar are grammatical problems with places within lines. -/
theorem of_mem_ofReports {options : ParseOptions} {p : Problem} (h : p ∈ ofReports options source) :
    p.cause.kind = .grammatical ∧ p.range.WithinLine source := by
  obtain ⟨parts, hparts, -⟩ := exists_readsAs options (Word.ofLexemes true (lexemes source))
  obtain ⟨r, hr, rfl⟩ := List.mem_map.1 h
  obtain ⟨hkind, hline⟩ := (lined_of_readsAs hparts).2 r hr
  have hwithin := hline.withinLine fun x hx => unbroken_of_mem_lexemes hx
  rw [Report.rangeIn, joined_lexemes] at hwithin
  exact ⟨hkind, hwithin⟩

section

variable (hlexical : ∀ p ∈ lexical, p.cause.kind = .lexical)
  (hgrammatical : ∀ p ∈ grammatical, p.cause.kind = .grammatical)
include hlexical hgrammatical

theorem filter_lexical : (lexical ++ grammatical).filter (·.cause.kind = .lexical) = lexical := by
  have hkept : lexical.filter (·.cause.kind = .lexical) = lexical :=
    List.filter_eq_self.2 fun p hp => decide_eq_true (hlexical p hp)
  have hleft : grammatical.filter (·.cause.kind = .lexical) = [] :=
    List.filter_eq_nil_iff.2 fun p hp => by simp [hgrammatical p hp]
  rw [List.filter_append, hkept, hleft, List.append_nil]

theorem filter_grammatical :
    (lexical ++ grammatical).filter (·.cause.kind = .grammatical) = grammatical := by
  have hkept : grammatical.filter (·.cause.kind = .grammatical) = grammatical :=
    List.filter_eq_self.2 fun p hp => decide_eq_true (hgrammatical p hp)
  have hleft : lexical.filter (·.cause.kind = .grammatical) = [] :=
    List.filter_eq_nil_iff.2 fun p hp => by simp [hlexical p hp]
  rw [List.filter_append, hkept, hleft, List.nil_append]

theorem pairwise_lexical_first : (lexical ++ grammatical).Pairwise fun p q =>
    q.cause.kind = .lexical → p.cause.kind = .lexical := by
  refine List.pairwise_append.2 ⟨?_, ?_, fun p hp q _ _ => hlexical p hp⟩
  · exact List.pairwise_iff_forall_sublist.2 fun {p q} h _ => hlexical p (h.subset (by simp))
  · refine List.pairwise_iff_forall_sublist.2 fun {p q} h hq => ?_
    rw [hgrammatical q (h.subset (by simp))] at hq
    cases hq

end

end Problem

/-- The grammatical diagnostics of a text are the reports of the grammar, at their places. -/
theorem exists_diagnostic_iff {options : ParseOptions} {source : List Char} {cause : Cause}
    {range : ByteRange} (hcause : cause.kind = .grammatical) :
    (∃ d ∈ (parseWith options source).diagnostics, d.cause = cause ∧ d.range = range) ↔
      ∃ r ∈ reports options (Word.ofLexemes true (lexemes source)),
        r.cause = cause ∧ r.rangeIn (lexemes source) = range := by
  have hrange (r : Report) : r.rangeIn (lexemes source) =
      (r.toProblem (Word.rangesFrom 0 (lexemes source)).toArray (byteLength source)).range := by
    rw [Report.rangeIn, joined_lexemes]
  constructor
  · rintro ⟨d, hd, rfl, rfl⟩
    obtain ⟨p, hp, rfl⟩ := List.mem_map.1 hd
    rcases List.mem_append.1 (Problem.mem_sortByStart.1 hp) with hp | hp
    · have hkind := Problem.kind_of_mem_ofLexemes hp
      cases hcause.symm.trans hkind
    · obtain ⟨r, hr, rfl⟩ := List.mem_map.1 hp
      exact ⟨r, hr, rfl, hrange r⟩
  · rintro ⟨r, hr, rfl, rfl⟩
    rw [hrange]
    exact ⟨_, List.mem_map_of_mem (Problem.mem_sortByStart.2 (List.mem_append_right _
      (List.mem_map_of_mem hr))), rfl, rfl⟩

/-- The diagnostics of a text are in order, there is one for each token in error, the reports of the
grammar are all there, and each one is placed within a line. -/
theorem diagnostics_parseWith (options : ParseOptions) (source : List Char) :
    (parseWith options source).diagnostics.Pairwise Diagnostic.Precedes ∧
      ((parseWith options source).diagnostics.filter (·.kind = .lexical)).map (·.range) =
        ((lex source).filter (·.kind = .error)).map (·.range) ∧
      ((parseWith options source).diagnostics.filter (·.kind = .grammatical)).Perm
        ((Problem.ofReports options source).map
          (Problem.resolve (parseWith options source).lineIndex)) ∧
      ∀ d ∈ (parseWith options source).diagnostics, d.Placed source := by
  have hdiagnostics : (parseWith options source).diagnostics =
      (Problem.sortByStart (Problem.ofLexemes 0 (lexemes source) ++
        Problem.ofReports options source)).map (Problem.resolve (LineIndex.ofText source)) := rfl
  have hlexical : ∀ p ∈ Problem.ofLexemes 0 (lexemes source), p.cause.kind = .lexical :=
    fun p hp => Problem.kind_of_mem_ofLexemes hp
  have hgrammatical : ∀ p ∈ Problem.ofReports options source, p.cause.kind = .grammatical :=
    fun p hp => (Problem.of_mem_ofReports hp).1
  -- Diagnostics of one kind are the problems of that kind, in their order.
  have hfilter (kind : DiagnosticKind) :
      (parseWith options source).diagnostics.filter (·.kind = kind) =
        (Problem.sortByStart ((Problem.ofLexemes 0 (lexemes source) ++
          Problem.ofReports options source).filter (·.cause.kind = kind))).map
            (Problem.resolve (LineIndex.ofText source)) := by
    rw [hdiagnostics, List.filter_map, ← Problem.filter_sortByStart]
    rfl
  refine ⟨?_, ?_, ?_, fun d hd => ?_⟩
  · rw [hdiagnostics]
    exact List.pairwise_map.2
      (Problem.pairwise_sortByStart (Problem.pairwise_lexical_first hlexical hgrammatical))
  · rw [hfilter, Problem.filter_lexical hlexical hgrammatical,
      Problem.sortByStart_of_ordered (Problem.ordered_ofLexemes _ _).1, List.map_map]
    exact Problem.map_range_ofLexemes 0 (lexemes source)
  · rw [hfilter, Problem.filter_grammatical hlexical hgrammatical]
    exact (Problem.perm_sortByStart _).map _
  · rw [hdiagnostics] at hd
    obtain ⟨p, hp, rfl⟩ := List.mem_map.1 hd
    refine Problem.placed_resolve ?_
    rcases List.mem_append.1 (Problem.mem_sortByStart.1 hp) with hp | hp
    · exact Problem.withinLine_of_mem_ofLexemes hp
    · exact (Problem.of_mem_ofReports hp).2

end CRBasic
