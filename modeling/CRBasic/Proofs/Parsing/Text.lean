import CRBasic.Parse
import CRBasic.Proofs.Grammar.AdvanceStatement
import CRBasic.Proofs.Parsing.Fuel
import CRBasic.Proofs.Parsing.Sketch
import CRBasic.Proofs.Tree.Layout

/-!
# Whole texts

The run of a whole text ends, with no word left (`run_sourceFile`).  Its events are those of a draft
with the words of the text (`exists_draft`).
-/

namespace CRBasic

namespace Parsing

open Script Grammar

variable (options : ParseOptions) (words : List Word)

/-- On any fuel from `fuelFor` on, the run of a whole text ends in its final state, and no word is
left. -/
theorem run_sourceFile {fuel : Nat} (hfuel : fuelFor words ≤ fuel) :
    sourceFile.run (runRule script fuel) fuel (State.initial options words) =
      some ((), finalState options words) ∧ (finalState options words).rest = [] := by
  have hlt : (State.initial options words).rest.length + 1 < fuelFor words := by
    simp [State.initial, fuelFor]
  obtain ⟨u, t, hrun, ht⟩ := ends_sourceFile hlt
  have hfinal : finalState options words = t := by
    simp only [finalState]
    rw [hrun]
  rw [hfinal]
  exact ⟨Yields.run_of_le hfuel hrun, ht⟩

/-- The sketch before the first word. -/
def Sketch.initial : Sketch := { options, rest := words }

/-- What a sketch of a whole text shows, its final state has. -/
theorem exists_sketch : ∃ t : Sketch, Yields script sourceFile (Sketch.initial options words) () t ∧
    Sketch.Depicts [] (finalState options words) t := by
  have hstart : Sketch.Depicts [] (State.initial options words) (Sketch.initial options words) :=
    ⟨rfl, rfl, rfl⟩
  obtain ⟨hrun, -⟩ := run_sourceFile options words (Nat.le_refl _)
  obtain ⟨t, ht, hfinal⟩ := Sketch.simulation.run hstart hrun Sketch.simulation.runRule
  exact ⟨t, ⟨_, ht⟩, hfinal⟩

/-- A sketch of a whole text has the words of the text. -/
theorem hasWords_of_yields {t : Sketch}
    (h : Yields script sourceFile (Sketch.initial options words) () t) :
    Sketch.HasWords words t := by
  obtain ⟨fuel, h⟩ := h
  have hstart : Sketch.HasWords words (Sketch.initial options words) := rfl
  exact Sketch.kept_hasWords.run hstart h Sketch.kept_hasWords.runRule

/-- The events of a text are those of a root with the words of the text. -/
theorem exists_draft : ∃ parts, events options words = (Draft.node .sourceFile parts).events false ∧
    Draft.wordsOfAll parts = words := by
  obtain ⟨t, ht, hfinal⟩ := exists_sketch options words
  obtain ⟨-, hrest⟩ := run_sourceFile options words (Nat.le_refl _)
  have hwords := hasWords_of_yields options words ht
  obtain ⟨fuel, ht⟩ := ht
  obtain ⟨parts, hparts⟩ := Sketch.parts_node ht
  have hevents := hfinal.events
  rw [Sketch.HasWords, show t.rest = [] by rw [← hrest, ← hfinal.reading], hparts] at hwords
  rw [hparts] at hevents
  refine ⟨parts, ?_, ?_⟩
  · simpa [Parsing.events, Sketch.initial, Draft.eventsOfAll] using hevents
  · simpa [Sketch.initial, Draft.wordsOfAll, Draft.words] using hwords

end Parsing

theorem tree_parseWith (options : ParseOptions) (source : List Char) :
    (parseWith options source).tree = Tree.ofEvents (lexemes source)
      (Parsing.events options (Word.ofLexemes true (lexemes source))) := rfl

theorem words_lexemes {source : List Char} {parts : List (Piece Draft)}
    (h : Draft.wordsOfAll parts = Word.ofLexemes true (lexemes source)) :
    Lexeme.words (lexemes source) = (Draft.wordsOfAll parts).map Word.lexeme := by
  rw [h, Lexeme.words_ofLexemes]

/-- The tree of a text has all its lexemes in order, and shows the draft that its events are those
of. -/
theorem exists_draft_parseWith (options : ParseOptions) (source : List Char) :
    ∃ parts ts, Parsing.events options (Word.ofLexemes true (lexemes source)) =
        (Draft.node .sourceFile parts).events false ∧
      Draft.wordsOfAll parts = Word.ofLexemes true (lexemes source) ∧
      (parseWith options source).tree = .node .sourceFile ts ∧
      Tree.leavesOfAll ts = lexemes source ∧
      Tree.withoutTriviaOfAll ts = Draft.treesOfAll parts := by
  obtain ⟨parts, hevents, hwords⟩ :=
    Parsing.exists_draft options (Word.ofLexemes true (lexemes source))
  obtain ⟨ts, htree, hleaves, hts, -⟩ := Draft.ofEvents_root .sourceFile (words_lexemes hwords)
  refine ⟨parts, ts, hevents, hwords, ?_, hleaves, hts⟩
  rw [tree_parseWith, hevents, htree]

end CRBasic
