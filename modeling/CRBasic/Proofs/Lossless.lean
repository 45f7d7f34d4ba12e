import CRBasic.Proofs.Lexer.Tiling
import CRBasic.Proofs.Parsing.Text

/-!
# Trees lose nothing

The leaves of the tree of a text, in the order and at the places in which its outline goes through
them, are the tokens of the text (`tokens_parseWith`).
-/

namespace CRBasic

/-- The token of a row and its text, if the row is that of a leaf. -/
def Row.token? (r : Row) : Option (Token × List Char) :=
  match r.kind, r.text? with
  | .token k, some text => some (⟨k, r.range⟩, text)
  | _, _ => none

namespace Tree

/-- The leaves of a tree in their order, each with its place and text. -/
def tokens (t : Tree) : List (Token × List Char) := (t.rows 0 0).filterMap Row.token?

end Tree

namespace Lexeme

/-- The tokens of lexemes with their texts. -/
def tokensWithText (offset : Nat) (xs : List Lexeme) : List (Token × List Char) :=
  (tokens offset xs).zip (xs.map (·.text))

theorem tokensWithText_cons (offset : Nat) (x : Lexeme) (xs : List Lexeme) :
    tokensWithText offset (x :: xs) =
      (x.token offset, x.text) :: tokensWithText (offset + byteLength x.text) xs := rfl

theorem tokensWithText_append (offset : Nat) (xs ys : List Lexeme) :
    tokensWithText offset (xs ++ ys) =
      tokensWithText offset xs ++ tokensWithText (offset + byteLength (joined xs)) ys := by
  induction xs generalizing offset with
  | nil => rfl
  | cons x xs ih =>
    rw [List.cons_append, tokensWithText_cons, tokensWithText_cons, ih, List.cons_append,
      joined_cons, byteLength_append, Nat.add_assoc]

theorem length_tokens (offset : Nat) (xs : List Lexeme) :
    (Lexeme.tokens offset xs).length = xs.length := by
  induction xs generalizing offset with
  | nil => rfl
  | cons x xs ih => simp [Lexeme.tokens, ih]

end Lexeme

namespace Tree

open Lexeme

mutual

/-- A tree is as wide as its text is long. -/
theorem width_eq : ∀ t : Tree, t.width = byteLength (joined t.leaves)
  | leaf k text => by simp [width, leaves]
  | node k children => widthOfAll_eq children

theorem widthOfAll_eq : ∀ ts : List Tree, widthOfAll ts = byteLength (joined (leavesOfAll ts))
  | [] => rfl
  | t :: ts => by
    rw [widthOfAll, leavesOfAll, joined_append, byteLength_append, width_eq t, widthOfAll_eq ts]

end

mutual

theorem filterMap_rows (depth start : Nat) : ∀ t : Tree,
    (t.rows depth start).filterMap Row.token? = tokensWithText start t.leaves
  | leaf k text => rfl
  | node k children => by
    rw [rows, leaves, List.filterMap_cons_none rfl]
    exact filterMap_rowsOfAll (depth + 1) start children

theorem filterMap_rowsOfAll (depth start : Nat) : ∀ ts : List Tree,
    (rowsOfAll depth start ts).filterMap Row.token? = tokensWithText start (leavesOfAll ts)
  | [] => rfl
  | t :: ts => by
    rw [rowsOfAll, leavesOfAll, List.filterMap_append, tokensWithText_append, filterMap_rows,
      filterMap_rowsOfAll, width_eq]

end

end Tree

/-- The tree of a text has the lexemes of the text as its leaves. -/
theorem leaves_parseWith (options : ParseOptions) (source : List Char) :
    (parseWith options source).tree.leaves = lexemes source := by
  obtain ⟨parts, ts, -, -, htree, hleaves, -⟩ := exists_draft_parseWith options source
  rw [htree]
  exact hleaves

/-- The leaves of the tree of a text are the tokens of the text: as many, in their order, with their
kinds, ranges and texts.  So the text of the tree is the text. -/
theorem tokens_parseWith (options : ParseOptions) (source : List Char) :
    (parseWith options source).tree.tokens = lexWithText source ∧
      (parseWith options source).tree.tokens.map (·.1) = lex source ∧
      (∀ p ∈ (parseWith options source).tree.tokens, p.1.text source = p.2) ∧
      (parseWith options source).tree.text = source := by
  have hleaves := leaves_parseWith options source
  have htokens : (parseWith options source).tree.tokens = lexWithText source := by
    rw [Tree.tokens, Tree.filterMap_rows, hleaves]
    rfl
  have hlength : (lex source).length = ((lexemes source).map (·.text)).length := by
    rw [List.length_map, lex, Lexeme.length_tokens]
  refine ⟨htokens, ?_, ?_, ?_⟩
  · rw [htokens, lexWithText, List.map_fst_zip (Nat.le_of_eq hlength)]
  · rw [htokens]
    rintro ⟨t, cs⟩ h
    have htext : t.text ([] ++ Lexeme.joined (lexemes source)) = cs := Lexeme.text_of_mem_zip h
    rwa [List.nil_append, joined_lexemes] at htext
  · rw [Tree.text, hleaves, joined_lexemes]

end CRBasic
