import CRBasic.Proofs.Expression.Term
import CRBasic.Proofs.Parsing.Text

/-!
# Reading the text of a term

The lexemes of a term stand alone, so its text has just these lexemes and no problem
(`lexemes_assignment`).
-/

namespace CRBasic

open Lexer

/-- A lexeme that stands alone and is neither left out nor in error. -/
structure Plain (x : Lexeme) : Prop where
  standalone : Standalone x
  isTrivia_eq : x.kind.isTrivia = false
  ne_error : x.kind ≠ .error

theorem plain_wordLike {kind : TokenKind} (a : Atom kind) (hkind : kind = .ident ∨ kind = .number) :
    Plain a.lexeme := by
  refine ⟨standalone_of_wordLike hkind a.isLexeme, ?_, ?_⟩
  · rcases hkind with rfl | rfl <;> rfl
  · rcases hkind with rfl | rfl <;> nofun

theorem plain_quotedString (a : Atom .quotedString) : Plain a.lexeme :=
  ⟨standalone_of_quotedString rfl a.isLexeme, rfl, nofun⟩

/-- The kinds with one spelling that a term may have. -/
def TokenKind.spelledInTerms (k : TokenKind) : Bool :=
  k.infixPower?.isSome || k.prefixPower?.isSome ||
    [.lParen, .rParen, .comma, .dot, .kwTrue, .kwFalse].contains k

theorem longestMatch_spelled : ∀ k ∈ TokenKind.all, k.spelledInTerms →
    longestMatch k.lexeme.text = some (k, k.lexeme.text.length) ∧
      k.lexeme.text.head?.any (!blanksAndQuotes.contains ·) ∧
      k ≠ .kwUnits ∧ k.isTrivia = false ∧ k ≠ .error := by
  decide +kernel

theorem mem_all (k : TokenKind) : k ∈ TokenKind.all :=
  List.mem_of_getElem? k.getElem?_all_code

/-- A spelling that is read as one lexeme, and begins with neither a blank nor a quote, is plain. -/
theorem plain_of_longestMatch {k : TokenKind}
    (h : longestMatch k.lexeme.text = some (k, k.lexeme.text.length) ∧
      k.lexeme.text.head?.any (!blanksAndQuotes.contains ·) ∧
      k ≠ .kwUnits ∧ k.isTrivia = false ∧ k ≠ .error) : Plain k.lexeme := by
  obtain ⟨hmatch, hhead, hunits, htrivia, herror⟩ := h
  refine ⟨standalone_of_head hmatch ?_ hunits, htrivia, herror⟩
  cases htext : k.lexeme.text with
  | nil => simp [htext] at hhead
  | cons c cs => exact ⟨c, cs, rfl, by simpa [htext] using hhead⟩

theorem plain_spelled {k : TokenKind} (hk : k.spelledInTerms) : Plain k.lexeme :=
  plain_of_longestMatch (longestMatch_spelled k (mem_all k) hk)

theorem plain_operator (op : InfixOperator) : Plain op.kind.lexeme :=
  plain_spelled (by simp [TokenKind.spelledInTerms, op.infixPower_eq])

theorem plain_sign (op : PrefixOperator) : Plain op.kind.lexeme :=
  plain_spelled (by simp [TokenKind.spelledInTerms, op.prefixPower_eq])

theorem plain_name (n : DottedName) : ∀ x ∈ n.lexemes, Plain x := by
  obtain ⟨first, more⟩ := n
  have hmore : ∀ x ∈ DottedName.lexemesOfMore more, Plain x := by
    induction more with
    | nil => nofun
    | cons a more ih =>
      rw [DottedName.lexemesOfMore, List.forall_mem_cons, List.forall_mem_cons]
      exact ⟨plain_spelled rfl, plain_wordLike a (.inl rfl), ih⟩
  exact List.forall_mem_cons.2 ⟨plain_wordLike first (.inl rfl), hmore⟩

theorem plain_enclose {xs : List Lexeme} (needed : Bool) (h : ∀ x ∈ xs, Plain x) :
    ∀ x ∈ Term.enclose needed xs, Plain x := by
  cases needed with
  | false => exact h
  | true =>
    simp only [Term.enclose, if_true, List.forall_mem_cons, List.forall_mem_append]
    exact ⟨plain_spelled rfl, h, plain_spelled rfl, nofun⟩

mutual

theorem plain_term : ∀ e : Term, ∀ x ∈ e.lexemes, Plain x
  | .binary op a b => by
    rw [Term.lexemes, List.forall_mem_append, List.forall_mem_cons]
    exact ⟨plain_enclose _ (plain_term a), plain_operator op, plain_enclose _ (plain_term b)⟩
  | .unary op a => by
    rw [Term.lexemes, List.forall_mem_cons]
    exact ⟨plain_sign op, plain_enclose _ (plain_term a)⟩
  | .paren a => plain_enclose true (plain_term a)
  | .name n => plain_name n
  | .call n es => by
    rw [Term.lexemes, List.forall_mem_append]
    exact ⟨plain_name n, plain_enclose true (plain_arguments es)⟩
  | .number a => by simpa [Term.lexemes] using plain_wordLike a (.inr rfl)
  | .string a => by simpa [Term.lexemes] using plain_quotedString a
  | .boolean b => by
    rw [Term.lexemes, List.forall_mem_singleton]
    exact plain_spelled (by cases b <;> rfl)

theorem plain_arguments : ∀ es : List Term, ∀ x ∈ Term.lexemesOfAll es, Plain x
  | [] => nofun
  | e :: es => by
    rw [Term.lexemesOfAll, List.forall_mem_append]
    exact ⟨plain_term e, plain_more es⟩

theorem plain_more : ∀ es : List Term, ∀ x ∈ Term.lexemesOfMore es, Plain x
  | [] => nofun
  | e :: es => by
    rw [Term.lexemesOfMore, List.forall_mem_cons, List.forall_mem_append]
    exact ⟨plain_spelled rfl, plain_term e, plain_more es⟩

end

end CRBasic
