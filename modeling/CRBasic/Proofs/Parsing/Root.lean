import CRBasic.Proofs.Parsing.Runs
import CRBasic.Proofs.Parsing.Text

/-!
# What a text is read as

The statements of a text are read as parts of the root and as reports (`ReadsAs`): every text in just
one way, and the tree of the text shows these parts.  A text has no problem where there are no reports,
and no word is in error (`diagnostics_eq_nil_iff`).
-/

namespace CRBasic

namespace Grammar

open Parsing.Script

/-- Statements as long as a word is left. -/
def allStatements : Parsing.Script Unit := whileM (do return (← current).isSome) statement

theorem sourceFile_eq : sourceFile = node .sourceFile allStatements := rfl

end Grammar

namespace Parsing

open Script Grammar

/-- The statements of a text are read as parts and reports. -/
def ReadsAs (options : ParseOptions) (words : List Word) (parts : List (Piece Draft))
    (reports : List Report) : Prop :=
  ∃ t : Sketch, Yields script allStatements (Sketch.initial options words) () t ∧ t.rest = [] ∧
    t.parts.reverse = parts ∧ t.reports.toList = reports

variable {options : ParseOptions} {words : List Word} {parts parts' : List (Piece Draft)}
  {reports reports' : List Report}

theorem ReadsAs.unique (h : ReadsAs options words parts reports)
    (h' : ReadsAs options words parts' reports') : parts = parts' ∧ reports = reports' := by
  obtain ⟨t, ht, -, rfl, rfl⟩ := h
  obtain ⟨t', ht', -, rfl, rfl⟩ := h'
  obtain ⟨-, rfl⟩ := ht.unique ht'
  exact ⟨rfl, rfl⟩

/-- Every text is read as some parts and its reports; its events are those of the parts. -/
theorem exists_readsAs (options : ParseOptions) (words : List Word) :
    ∃ parts, ReadsAs options words parts (Parsing.reports options words) ∧
      events options words = (Draft.node .sourceFile parts).events false ∧
      Draft.wordsOfAll parts = words := by
  obtain ⟨t, ht, hfinal⟩ := exists_sketch options words
  obtain ⟨-, hrest⟩ := run_sourceFile options words (Nat.le_refl _)
  have hwords := hasWords_of_yields options words ht
  obtain ⟨fuel, hrun⟩ := ht
  rw [sourceFile_eq, Script.node, run_within_iff] at hrun
  obtain ⟨u, hu, rfl⟩ := hrun
  have hurest : u.rest = [] := by
    rw [← hrest, ← hfinal.reading]
    rfl
  have hreports : u.reports = (finalState options words).reports := by
    rw [← hfinal.reading]
    rfl
  refine ⟨u.parts.reverse, ⟨u, ⟨fuel, hu⟩, hurest, rfl, ?_⟩, ?_, ?_⟩
  · rw [Parsing.reports, hreports]
  · have hevents := hfinal.events
    simpa [Parsing.events, Sketch.initial, Machine.leave, Sketch.leave, Machine.begin, Sketch.begin,
      Draft.eventsOfAll] using hevents
  · rw [Sketch.HasWords] at hwords
    have hrest : (Machine.leave u (Machine.begin (Sketch.initial options words)
        (.node .sourceFile)).1 (.node .sourceFile)).rest = [] := hurest
    rw [hrest] at hwords
    simpa [Sketch.initial, Machine.leave, Sketch.leave, Machine.begin, Sketch.begin,
      Draft.wordsOfAll, Draft.words] using hwords

theorem ReadsAs.reports_eq (h : ReadsAs options words parts reports) :
    Parsing.reports options words = reports := by
  obtain ⟨parts', h', -⟩ := exists_readsAs options words
  exact (h'.unique h).2

end Parsing

section Trees

variable {options : ParseOptions} {source : List Char} {parts : List (Piece Draft)}
  {reports : List Report}
  (h : Parsing.ReadsAs options (Word.ofLexemes true (lexemes source)) parts reports)
include h

/-- The tree of a text has all its lexemes in order, and shows the parts that the text is read as. -/
theorem Parsing.ReadsAs.tree_eq : ∃ ts, (parseWith options source).tree = .node .sourceFile ts ∧
    Tree.leavesOfAll ts = lexemes source ∧ Tree.withoutTriviaOfAll ts = Draft.treesOfAll parts := by
  obtain ⟨parts', h', hevents, hwords⟩ :=
    Parsing.exists_readsAs options (Word.ofLexemes true (lexemes source))
  obtain ⟨rfl, -⟩ := h'.unique h
  obtain ⟨ts, htree, hleaves, hts, -⟩ := Draft.ofEvents_root .sourceFile (words_lexemes hwords)
  exact ⟨ts, by rw [tree_parseWith, hevents, htree], hleaves, hts⟩

/-- The diagnostics of a text are those of its lexemes and of its reports, ordered by their starts. -/
theorem Parsing.ReadsAs.diagnostics_eq : (parseWith options source).diagnostics =
    (Problem.sortByStart (Problem.ofLexemes 0 (lexemes source) ++ reports.map
      (·.toProblem (Word.rangesFrom 0 (lexemes source)).toArray (byteLength source)))).map
        (Problem.resolve (LineIndex.ofText source)) := by
  rw [← h.reports_eq]
  rfl

end Trees

/-! ### Problems of a text -/

namespace Problem

theorem mem_insertByStart {p q : Problem} {ps : List Problem} :
    q ∈ insertByStart p ps ↔ q = p ∨ q ∈ ps := by
  induction ps with
  | nil => simp [insertByStart]
  | cons r rs ih =>
    rw [insertByStart]
    split
    · simp
    · rw [List.mem_cons, ih, List.mem_cons, or_left_comm]

theorem mem_sortByStart {q : Problem} {ps : List Problem} : q ∈ sortByStart ps ↔ q ∈ ps := by
  induction ps with
  | nil => simp [sortByStart]
  | cons p ps ih => rw [sortByStart, mem_insertByStart, ih, List.mem_cons]

theorem insertByStart_ne_nil (p : Problem) (ps : List Problem) : insertByStart p ps ≠ [] := by
  cases ps with
  | nil => nofun
  | cons q qs =>
    rw [insertByStart]
    split <;> nofun

theorem sortByStart_eq_nil_iff {ps : List Problem} : sortByStart ps = [] ↔ ps = [] := by
  cases ps with
  | nil => exact Iff.rfl
  | cons p ps => simp [sortByStart, insertByStart_ne_nil]

theorem ofLexemes_eq_nil_iff (offset : Nat) (startsLine : Bool) (xs : List Lexeme) :
    ofLexemes offset xs = [] ↔ ∀ w ∈ Word.ofLexemes startsLine xs, w.kind ≠ .error := by
  induction xs generalizing offset startsLine with
  | nil => simp [ofLexemes, Word.ofLexemes]
  | cons x xs ih =>
    rw [ofLexemes, List.append_eq_nil_iff, Word.ofLexemes, ofLexeme?]
    cases htrivia : x.kind.isTrivia with
    | true =>
      have hkind : x.kind ≠ .error := by
        intro hkind
        rw [hkind] at htrivia
        cases htrivia
      rw [if_neg hkind, if_pos rfl, ih _ (startsLine || x.kind == .newline)]
      exact and_iff_right rfl
    | false =>
      rw [ih _ false]
      by_cases hkind : x.kind = .error <;> simp [hkind]

end Problem

/-- A report is among the diagnostics of its text. -/
theorem exists_diagnostic {options : ParseOptions} {source : List Char}
    {parts : List (Piece Draft)} {reports : List Report} {r : Report}
    (h : Parsing.ReadsAs options (Word.ofLexemes true (lexemes source)) parts reports)
    (hr : r ∈ reports) : ∃ d ∈ (parseWith options source).diagnostics, d.cause = r.cause := by
  rw [h.diagnostics_eq]
  have hmem : r.toProblem (Word.rangesFrom 0 (lexemes source)).toArray (byteLength source) ∈
      Problem.ofLexemes 0 (lexemes source) ++ reports.map
        (·.toProblem (Word.rangesFrom 0 (lexemes source)).toArray (byteLength source)) :=
    List.mem_append_right _ (List.mem_map_of_mem hr)
  exact ⟨_, List.mem_map_of_mem (Problem.mem_sortByStart.2 hmem), rfl⟩

/-- A text has no problem where its words are read without a report and none is in error. -/
theorem diagnostics_eq_nil_iff {options : ParseOptions} {source : List Char} :
    (parseWith options source).diagnostics = [] ↔
      (∃ parts, Parsing.ReadsAs options (Word.ofLexemes true (lexemes source)) parts []) ∧
        ∀ w ∈ Word.ofLexemes true (lexemes source), w.kind ≠ .error := by
  obtain ⟨parts, hparts, -⟩ :=
    Parsing.exists_readsAs options (Word.ofLexemes true (lexemes source))
  rw [hparts.diagnostics_eq, List.map_eq_nil_iff, Problem.sortByStart_eq_nil_iff,
    List.append_eq_nil_iff, List.map_eq_nil_iff, Problem.ofLexemes_eq_nil_iff 0 true, and_comm]
  refine and_congr_left fun _ => ⟨fun h => ⟨parts, h ▸ hparts⟩, ?_⟩
  rintro ⟨_, h⟩
  exact h.reports_eq

end CRBasic
