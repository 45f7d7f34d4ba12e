import CRBasic.Proofs.Lossless
import CRBasic.Proofs.Spelling.Statements
import CRBasic.Proofs.Spelling.Tree

/-!
# `Else If` is `ElseIf`

In a text without problems a word `ElseIf` that is the first one of its line may be written as `Else If`.
The text has no problems then either, and its tree is the same but for the head of the clause
(`parseWith_elseIf`).
-/

namespace CRBasic

open Lexeme Parsing

variable {options : ParseOptions} {source : List Char} {e : Lexeme} {xs ys : List Lexeme}

/-- The tree of parts of which one clause has its head written as two words. -/
theorem Piece.Respelled.ofEvents {parts parts' : List (Piece Draft)} (he : e.kind = .kwElseIf)
    (h : Piece.Respelled false parts.reverse parts'.reverse)
    (hwords : Draft.wordsOfAll parts = Word.ofLexemes true (xs ++ e :: ys))
    (hwords' : Draft.wordsOfAll parts' = Word.ofLexemes true (xs ++ elseIf ++ ys)) :
    Tree.Respelled e elseIf
      (Tree.ofEvents (xs ++ e :: ys) ((Draft.node .sourceFile parts).events false))
      (Tree.ofEvents (xs ++ elseIf ++ ys) ((Draft.node .sourceFile parts').events false)) := by
  have heword : e.kind.isTrivia = false := by simp [he, TokenKind.isTrivia]
  have hsteps := h.stepsOfAll_reverse
  rw [List.reverse_reverse, List.reverse_reverse] at hsteps
  have hapart : Builder.Apart xs (e :: ys) (elseIf ++ ys)
      (Builder.openNodes { rest := xs ++ e :: ys } [.sourceFile])
      (Builder.openNodes { rest := xs ++ elseIf ++ ys } [.sourceFile]) :=
    ⟨rfl, by rw [List.append_assoc]; rfl⟩
  have hwordsOf : words (xs ++ e :: ys) = words xs ++ e :: words ys := by
    rw [words_append, words, words, List.filter_cons_of_pos (by simp [heword])]
    rfl
  have hwordsOf' : words (xs ++ elseIf ++ ys) = words xs ++ words elseIf ++ words ys := by
    rw [words_append, words_append]
  have hfold := Builder.foldl_respelled hsteps he hapart (Draft.leavesOpen_stepsOfAll parts)
    (by rw [Draft.tokens_of_words hwords, hwordsOf, List.map_append, List.map_cons, he])
    (by rw [Draft.tokens_of_words hwords', hwordsOf', List.append_assoc, List.map_append]; rfl)
  generalize hb : (Draft.stepsOfAll parts).foldl Builder.step _ = b at hfold
  generalize hb' : (Draft.stepsOfAll parts').foldl Builder.step _ = b' at hfold
  obtain ⟨hrest, -, inner, n, n', outer, hn, hn', htree⟩ := hfold
  -- Only the root is open.
  obtain ⟨ts, hts, -, -⟩ := Draft.foldl_root .sourceFile (by rw [hwords, words_ofLexemes])
  have hroot : b.nodes = [⟨.sourceFile, ts.reverse ++ []⟩] := hb ▸ hts.nodes
  rw [hn, List.append_eq_singleton_iff] at hroot
  rcases hroot with ⟨rfl, hroot⟩ | ⟨-, hroot⟩
  · obtain ⟨-, rfl⟩ := List.cons.inj hroot
    rw [Draft.ofEvents_of_nodes hb hn, Draft.ofEvents_of_nodes hb' hn', hrest]
    exact htree.append _
  · cases hroot

/-- In a text without problems a word `ElseIf` that is the first one of its line may be written as
`Else If`: the text has no problems then either, and its tree is the same but for the head of the clause,
which becomes two words with a space between them. -/
theorem parseWith_elseIf (hok : (parseWith options source).ok = true)
    (hsource : lexemes source = xs ++ e :: ys) (he : e.kind = .kwElseIf)
    (hfirst : ∀ x ∈ xs.rtakeWhile (·.kind ≠ .newline), x.kind.isTrivia) :
    let parsed := parseWith options (joined xs ++ "Else If".toList ++ joined ys)
    parsed.ok = true ∧ Tree.Respelled e elseIf (parseWith options source).tree parsed.tree ∧
      parsed.tree.leaves = xs ++ elseIf ++ ys := by
  have hrespelled := lexemes_respelled hsource he hfirst
  have hwords : Word.Respelled (Word.ofLexemes true (lexemes source)) _ :=
    hsource ▸ Word.respelled_ofLexemes he hfirst
  rw [← hrespelled] at hwords
  obtain ⟨⟨parts, hparts⟩, hsound⟩ := diagnostics_eq_nil_iff.1 (List.isEmpty_iff.1 hok)
  obtain ⟨parts', hparts', hpieces⟩ := exists_readsAs_respelled hparts hwords hsound
  obtain ⟨_, hreads, hevents, hwordsOf⟩ := exists_readsAs options (Word.ofLexemes true (lexemes source))
  obtain ⟨rfl, -⟩ := hreads.unique hparts
  obtain ⟨_, hreads', hevents', hwordsOf'⟩ := exists_readsAs options
    (Word.ofLexemes true (lexemes (joined xs ++ "Else If".toList ++ joined ys)))
  obtain ⟨rfl, -⟩ := hreads'.unique hparts'
  refine ⟨List.isEmpty_iff.2 (diagnostics_eq_nil_iff.2 ⟨⟨_, hparts'⟩, hwords.sound hsound⟩), ?_, ?_⟩
  · rw [tree_parseWith, tree_parseWith, hevents, hevents', hsource, hrespelled]
    exact hpieces.ofEvents he (hsource ▸ hwordsOf) (hrespelled ▸ hwordsOf')
  · rw [leaves_parseWith, hrespelled]

/-- A branch with a comment before it, whose head stands behind a blank. -/
theorem parseWith_elseIf_commented :
    ∃ (source source' : List Char) (xs ys : List Lexeme),
      source = "If a Then\n'b\n ElseIf c Then\nx=1\nEndIf".toList ∧
      source' = "If a Then\n'b\n Else If c Then\nx=1\nEndIf".toList ∧
      (parseWith {} source).ok = true ∧
      lexemes source = xs ++ ⟨.kwElseIf, "ElseIf".toList⟩ :: ys ∧
      (∀ x ∈ xs.rtakeWhile (·.kind ≠ .newline), x.kind.isTrivia) ∧
      joined xs ++ "Else If".toList ++ joined ys = source' ∧ (parseWith {} source').ok = true ∧
      Tree.Respelled ⟨.kwElseIf, "ElseIf".toList⟩ elseIf (parseWith {} source).tree
        (parseWith {} source').tree := by
  let source := "If a Then\n'b\n ElseIf c Then\nx=1\nEndIf".toList
  have hok : (parseWith {} source).ok = true := by decide +kernel
  have hsource : lexemes source = (lexemes source).take 9 ++
      ⟨.kwElseIf, "ElseIf".toList⟩ :: (lexemes source).drop 10 := by decide +kernel
  have hfirst : ∀ x ∈ ((lexemes source).take 9).rtakeWhile (·.kind ≠ .newline), x.kind.isTrivia := by
    decide +kernel
  have htext : joined ((lexemes source).take 9) ++ "Else If".toList ++
      joined ((lexemes source).drop 10) = "If a Then\n'b\n Else If c Then\nx=1\nEndIf".toList := by
    decide +kernel
  obtain ⟨hok', htree, -⟩ := parseWith_elseIf hok hsource rfl hfirst
  exact ⟨source, _, _, _, rfl, htext, hok, hsource, hfirst, rfl, hok', htree⟩

end CRBasic
