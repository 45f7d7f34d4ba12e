import CRBasic.Proofs.Lossless
import CRBasic.Proofs.Text.LineEnds
import CRBasic.Proofs.Tree.Texts

/-!
# Line ends do not matter

A text without carriage returns, and the text with one before each line feed, have the same tokens but
for the texts of the line breaks, trees of the same shape with leaves of the same kinds, as many lines,
and the same problems at the same lines and columns in the same order (`parse_crlf`).
-/

namespace CRBasic

variable {source : List Char}

/-- What a diagnostic tells, and at which lines and columns it is. -/
def Diagnostic.seen (d : Diagnostic) : DiagnosticKind × String × LineCol × LineCol :=
  (d.kind, d.message, d.span.start, d.span.stop)

/-- The kind and the text of each token of a text. -/
def kindsWithText (source : List Char) : List (TokenKind × List Char) :=
  (lexWithText source).map fun (t, text) => (t.kind, text)

theorem kindsWithText_eq (source : List Char) :
    kindsWithText source = (lexemes source).map fun x => (x.kind, x.text) := by
  have htokens (offset : Nat) (xs : List Lexeme) :
      (Lexeme.tokensWithText offset xs).map (fun (t, text) => (t.kind, text)) =
        xs.map fun x => (x.kind, x.text) := by
    induction xs generalizing offset with
    | nil => rfl
    | cons x xs ih =>
      rw [Lexeme.tokensWithText_cons, List.map_cons, ih, List.map_cons]
      rfl
  exact htokens 0 (lexemes source)

section

variable (hsource : '\r' ∉ source)
include hsource

/-- Only the texts of line breaks change. -/
theorem kindsWithText_crlf : kindsWithText (crlf source) =
    (kindsWithText source).map fun (kind, text) =>
      (kind, if kind = .newline then crlf text else text) := by
  rw [kindsWithText_eq, kindsWithText_eq, lexemes_crlf hsource, List.map_map, List.map_map]
  apply List.map_congr_left
  intro x hx
  show (x.kind, crlf x.text) = (x.kind, if x.kind = .newline then crlf x.text else x.text)
  by_cases hkind : x.kind = .newline
  · rw [if_pos hkind]
  · rw [if_neg hkind, crlf_of_not_mem (unbroken_of_mem_lexemes hx hkind).2]

theorem words_crlf : Word.ofLexemes true (lexemes (crlf source)) =
    Word.ofLexemes true (lexemes source) := by
  rw [lexemes_crlf hsource]
  exact Word.ofLexemes_crlf (withinLines_lexemes source) true

theorem tree_crlf (options : ParseOptions) :
    (parseWith options (crlf source)).tree = (parseWith options source).tree.mapText crlf := by
  rw [tree_parseWith, tree_parseWith, words_crlf hsource, lexemes_crlf hsource,
    ← Tree.ofEvents_mapText]
  rfl

/-- The problems are the same ones, in the same order. -/
theorem diagnostics_crlf (options : ParseOptions) :
    (parseWith options (crlf source)).diagnostics.map Diagnostic.seen =
      (parseWith options source).diagnostics.map Diagnostic.seen := by
  have hlexemes : source = [] ++ Lexeme.joined (lexemes source) := (joined_lexemes source).symm
  have hranges := Word.sameRange_rangesFrom hlexemes
  have hlexical := Problem.sameProblem_ofLexemes hlexemes (withinLines_lexemes source)
  rw [← lexemes_crlf hsource] at hranges hlexical
  have hreports (rs : List Report) : List.Forall₂ (SameProblem source)
      (rs.map (·.toProblem (Word.rangesFrom 0 (lexemes source)).toArray (byteLength source)))
      (rs.map (·.toProblem (Word.rangesFrom 0 (lexemes (crlf source))).toArray
        (byteLength (crlf source)))) := by
    induction rs with
    | nil => exact .nil
    | cons r rs ih => exact .cons (sameProblem_toProblem hranges r) ih
  have hresolve {p p' : Problem} (h : SameProblem source p p') :
      (p'.resolve (LineIndex.ofText (crlf source))).seen =
        (p.resolve (LineIndex.ofText source)).seen := by
    show (p'.cause.kind, p'.cause.message, _, _) = (p.cause.kind, p.cause.message, _, _)
    rw [h.cause]
    exact congrArg (fun places => (p.cause.kind, p.cause.message, places))
      (Prod.ext (h.range.start.lineCol_eq hsource) (h.range.stop.lineCol_eq hsource))
  have hall {ps ps' : List Problem} (h : List.Forall₂ (SameProblem source) ps ps') :
      (ps'.map (Problem.resolve (LineIndex.ofText (crlf source)))).map Diagnostic.seen =
        (ps.map (Problem.resolve (LineIndex.ofText source))).map Diagnostic.seen := by
    induction h with
    | nil => rfl
    | cons hp _ ih =>
      rw [List.map_cons, List.map_cons, List.map_cons, List.map_cons, hresolve hp, ih]
  simp only [parseWith, words_crlf hsource]
  apply hall
  apply Problem.sameProblem_sortByStart
  exact List.rel_append hlexical (hreports _)

end

/-- A carriage return before each line feed of a text without carriage returns changes the texts of the
line breaks and the byte offsets, and nothing else. -/
theorem parse_crlf (options : ParseOptions) {source : List Char} (h : '\r' ∉ source) :
    kindsWithText (crlf source) = (kindsWithText source).map (fun (kind, text) =>
        (kind, if kind = .newline then crlf text else text)) ∧
      (parseWith options (crlf source)).tree = (parseWith options source).tree.mapText crlf ∧
      (parseWith options (crlf source)).lineIndex.lineCount =
        (parseWith options source).lineIndex.lineCount ∧
      (parseWith options (crlf source)).diagnostics.map Diagnostic.seen =
        (parseWith options source).diagnostics.map Diagnostic.seen :=
  ⟨kindsWithText_crlf h, tree_crlf h options, LineIndex.lineCount_crlf h,
    diagnostics_crlf h options⟩

/-- An unclosed string and an unclosed block: the problems of the second line are found at the same
column. -/
theorem parse_crlf_unclosed :
    ∃ u v : List Char, u = "x = \x22open\nIf y 'why".toList ∧
      v = "x = \x22open\r\nIf y 'why".toList ∧ '\r' ∉ u ∧ v = crlf u ∧
      (parseWith {} v).diagnostics.map Diagnostic.seen =
        (parseWith {} u).diagnostics.map Diagnostic.seen ∧
      (parseWith {} u).diagnostics.map (fun d => (d.cause, d.span.stop)) =
        [(.unclosedString, ⟨0, 9⟩), (.missing .kwThen, ⟨1, 4⟩),
          (.unclosedBlock .kwEndIf .kwIf, ⟨1, 9⟩)] := by
  have hreturn : '\r' ∉ "x = \x22open\nIf y 'why".toList := by decide
  obtain ⟨-, -, -, hdiagnostics⟩ := parse_crlf {} hreturn
  exact ⟨_, _, rfl, by decide, hreturn, rfl, hdiagnostics, by decide +kernel⟩

end CRBasic
