import CRBasic.Proofs.Grammar.Case
import CRBasic.Proofs.Text.Case
import CRBasic.Proofs.Tree.Case

/-!
# The case of letters does not matter

Texts that are the same in lower case have the same tokens, trees with the same elements at the same
places, and the same problems at the same places; only the messages quote names as they are written
(`parse_eq_of_case`).
-/

namespace CRBasic

namespace Diagnostic

/-- What a diagnostic tells, its message in lower case. -/
def inLowerCase (d : Diagnostic) : DiagnosticKind × Span × List Char :=
  (d.kind, d.span, lowered d.message.toList)

theorem inLowerCase_lowered (index : LineIndex) (p : Problem) :
    (p.lowered.resolve index).inLowerCase = (p.resolve index).inLowerCase := by
  have hkind : p.lowered.cause.kind = p.cause.kind := p.cause.kind_lowered
  have hmessage : lowered p.lowered.cause.message.toList = lowered p.cause.message.toList :=
    p.cause.lowered_message
  simp only [inLowerCase, kind, message, Problem.resolve, hkind, hmessage]
  rfl

end Diagnostic

section

variable {u v : List Char} (h : lowered u = lowered v)
include h

theorem lexemes_eq_of_case : (lexemes u).map Lexeme.lowered = (lexemes v).map Lexeme.lowered := by
  rw [← lexemes_lowered, h, lexemes_lowered]

theorem lineIndex_eq_of_case : LineIndex.ofText u = LineIndex.ofText v := by
  rw [← LineIndex.ofText_lowered, h, LineIndex.ofText_lowered]

theorem problems_eq_of_case :
    Problem.ofLexemes 0 (lexemes u) = Problem.ofLexemes 0 (lexemes v) := by
  rw [← Problem.ofLexemes_lowered, lexemes_eq_of_case h, Problem.ofLexemes_lowered]

theorem tokenize_eq_of_case : tokenize u = tokenize v := by
  have htokens : Lexeme.tokens 0 (lexemes u) = Lexeme.tokens 0 (lexemes v) := by
    rw [← Lexeme.tokens_lowered, lexemes_eq_of_case h, Lexeme.tokens_lowered]
  simp only [tokenize, htokens, problems_eq_of_case h, lineIndex_eq_of_case h]

theorem finalState_eq_of_case (options : ParseOptions) :
    (Parsing.finalState options (Word.ofLexemes true (lexemes u))).lowered =
      (Parsing.finalState options (Word.ofLexemes true (lexemes v))).lowered := by
  refine Parsing.finalState_lowered options ?_
  rw [← Word.ofLexemes_lowered, lexemes_eq_of_case h, Word.ofLexemes_lowered]

theorem tree_eq_of_case (options : ParseOptions) :
    (parseWith options u).tree.lowered = (parseWith options v).tree.lowered := by
  have hevents : (Parsing.finalState options (Word.ofLexemes true (lexemes u))).events =
      (Parsing.finalState options (Word.ofLexemes true (lexemes v))).events := by
    have hfinal := congrArg (·.events) (finalState_eq_of_case h options)
    exact hfinal
  simp only [parseWith]
  rw [← Tree.ofEvents_lowered, ← Tree.ofEvents_lowered, lexemes_eq_of_case h, hevents]

theorem reports_eq_of_case (options : ParseOptions) :
    (Parsing.reports options (Word.ofLexemes true (lexemes u))).map Report.lowered =
      (Parsing.reports options (Word.ofLexemes true (lexemes v))).map Report.lowered := by
  have hfinal := congrArg (·.reports.toList) (finalState_eq_of_case h options)
  simpa [Parsing.State.lowered, Parsing.Reading.lowered, Parsing.reports] using hfinal

theorem diagnostics_eq_of_case (options : ParseOptions) :
    (parseWith options u).diagnostics.map Diagnostic.inLowerCase =
      (parseWith options v).diagnostics.map Diagnostic.inLowerCase := by
  have hranges : Word.rangesFrom 0 (lexemes u) = Word.rangesFrom 0 (lexemes v) := by
    rw [← Word.rangesFrom_lowered, lexemes_eq_of_case h, Word.rangesFrom_lowered]
  have hsize : byteLength u = byteLength v := by rw [← byteLength_lowered, h, byteLength_lowered]
  have hview (w : List Char) : (parseWith options w).diagnostics.map Diagnostic.inLowerCase =
      (Problem.sortByStart ((Problem.ofLexemes 0 (lexemes w)).map Problem.lowered ++
        ((Parsing.reports options (Word.ofLexemes true (lexemes w))).map Report.lowered).map
          (·.toProblem (Word.rangesFrom 0 (lexemes w)).toArray (byteLength w)))).map
            fun p => (p.resolve (LineIndex.ofText w)).inLowerCase := by
    have hplace (rs : List Report) (ranges : Array ByteRange) (size : Nat) :
        (rs.map Report.lowered).map (·.toProblem ranges size) =
          (rs.map (·.toProblem ranges size)).map Problem.lowered := by
      simp only [List.map_map]
      rfl
    rw [hplace, ← List.map_append, ← Problem.sortByStart_lowered, List.map_map]
    simp only [parseWith, List.map_map]
    exact List.map_congr_left fun p _ => (Diagnostic.inLowerCase_lowered _ p).symm
  rw [hview, hview, problems_eq_of_case h, reports_eq_of_case h, hranges, hsize,
    lineIndex_eq_of_case h]

end

/-- Texts that are the same in lower case have the same tokens, and trees and diagnostics that differ
in the case of letters only. -/
theorem parse_eq_of_case (options : ParseOptions) {u v : List Char}
    (h : u.map Char.toLower = v.map Char.toLower) :
    tokenize u = tokenize v ∧
      ((parseWith options u).tree.rows 0 0).map Tree.bareRow =
        ((parseWith options v).tree.rows 0 0).map Tree.bareRow ∧
      (parseWith options u).diagnostics.map Diagnostic.inLowerCase =
        (parseWith options v).diagnostics.map Diagnostic.inLowerCase := by
  refine ⟨tokenize_eq_of_case h, ?_, diagnostics_eq_of_case h options⟩
  rw [← Tree.rows_lowered, tree_eq_of_case h, Tree.rows_lowered]

/-- A loop that is closed under another name, in two spellings: the messages quote the names as they
stand in the texts. -/
theorem parse_eq_of_case_loop :
    ∃ u v : List Char, u = "FOR I = 1 To 2\nx=&HfF\nNexT J".toList ∧
      v = "for i = 1 tO 2\nX=&hFf\nnext j".toList ∧
      tokenize u = tokenize v ∧
      (parseWith {} u).diagnostics.map Diagnostic.inLowerCase =
        (parseWith {} v).diagnostics.map Diagnostic.inLowerCase ∧
      (parseWith {} u).diagnostics.map (·.cause) = [.loopVariableMismatch ['I'] ['J']] ∧
      (parseWith {} v).diagnostics.map (·.cause) = [.loopVariableMismatch ['i'] ['j']] := by
  refine ⟨_, _, rfl, rfl, ?_⟩
  obtain ⟨htokens, -, hdiagnostics⟩ :=
    parse_eq_of_case {} (u := "FOR I = 1 To 2\nx=&HfF\nNexT J".toList)
      (v := "for i = 1 tO 2\nX=&hFf\nnext j".toList) (by decide +kernel)
  exact ⟨htokens, hdiagnostics, by decide +kernel, by decide +kernel⟩

end CRBasic
