import CRBasic.Diagnostic
import CRBasic.Parsing.Word
import CRBasic.Proofs.Lexer.Standalone

/-!
# Lexemes with spaces between them

Lexemes that stand alone, written with single spaces between them, are read as they are, and the
words among them are the lexemes themselves (`lexemes_spaced`, `ofLexemes_spaced`).
-/

namespace CRBasic

namespace Lexeme

/-- A single space. -/
def space : Lexeme := ⟨.whitespace, [' ']⟩

/-- The word of a lexeme that does not start a line. -/
def word (x : Lexeme) : Word := ⟨x.kind, x.text, false⟩

/-- Lexemes with single spaces between them. -/
def spaced (xs : List Lexeme) : List Lexeme := xs.intersperse space

@[simp] theorem spaced_single (x : Lexeme) : spaced [x] = [x] := rfl

@[simp] theorem spaced_cons_cons (x y : Lexeme) (xs : List Lexeme) :
    spaced (x :: y :: xs) = x :: space :: spaced (y :: xs) := rfl

theorem mem_spaced {x : Lexeme} {xs : List Lexeme} (h : x ∈ spaced xs) : x ∈ xs ∨ x = space := by
  induction xs with
  | nil => exact .inl h
  | cons y ys ih =>
    cases ys with
    | nil => exact .inl h
    | cons z zs =>
      rw [spaced_cons_cons, List.mem_cons, List.mem_cons] at h
      rcases h with rfl | h | h
      · exact .inl List.mem_cons_self
      · exact .inr h
      · exact (ih h).imp_left (List.mem_cons_of_mem y)

end Lexeme

namespace Lexer

open Lexeme

variable {x : Lexeme} {xs : List Lexeme} {c : Char} {cs : List Char}

theorem munch_eq {u : List Char} {k : TokenKind} {n : Nat} (h : longestMatch u = some (k, n)) :
    munch u = some (⟨k, u.take n⟩, u.drop n) := by
  obtain ⟨hpos, hle⟩ := longestMatch_bounds h
  obtain ⟨c, cs, rfl⟩ := List.exists_cons_of_length_pos (Nat.lt_of_lt_of_le hpos hle)
  unfold munch
  dsimp only
  split
  · next heq =>
    rw [h] at heq
    cases heq
    rfl
  · next heq =>
    rw [h] at heq
    cases heq

theorem munch_standalone (hx : Standalone x) : munch x.text = some (x, []) := by
  rw [munch_eq hx.atEnd, List.take_length, List.drop_length]

theorem munch_standalone_space (hx : Standalone x) (cs : List Char) :
    munch (x.text ++ ' ' :: cs) = some (x, ' ' :: cs) := by
  rw [munch_eq (hx.beforeSpace cs), List.take_left, List.drop_left]

theorem munch_space (hc : c ∉ [' ', '\t', '\x0c']) :
    munch (' ' :: c :: cs) = some (space, c :: cs) :=
  munch_eq (longestMatch_space hc)

/-! ### Scans -/

theorem after_outside {k : TokenKind} (h : k ≠ .kwUnits) :
    UnitsProgress.outside.after k = .outside := by
  cases k <;> first | rfl | exact absurd rfl h

theorem next_last (hx : Standalone x) :
    (Scan.mk x.text [] .outside).next = some (x, ⟨[], [], .outside⟩) := by
  simp only [Scan.next, Scan.nextCode, munch_standalone hx]
  split <;> simp [Scan.yieldCode, after_outside hx.kind_ne, wordRun]

/-- After a lexeme that a space follows the space comes next, whether it has been found already or
not. -/
theorem next_beforeSpace (cs : List Char) (hx : Standalone x) (hc : c ∉ [' ', '\t', '\x0c']) :
    ∃ t, (Scan.mk (x.text ++ ' ' :: c :: cs) [] .outside).next = some (x, t) ∧
      t.next = some (space, ⟨c :: cs, [], .outside⟩) := by
  simp only [Scan.next, Scan.nextCode, munch_standalone_space hx]
  split
  · refine ⟨⟨c :: cs, [space], .outside⟩, ?_, rfl⟩
    have hrun : wordRun (' ' :: c :: cs).length (' ' :: c :: cs) = ⟨[], [space], c :: cs⟩ := by
      simp only [List.length_cons, wordRun, munch_space hc]
      rfl
    simp only [hrun, List.isEmpty_nil, if_true, Scan.yieldCode, after_outside hx.kind_ne]
  · refine ⟨⟨' ' :: c :: cs, [], .outside⟩, ?_, ?_⟩
    · simp [Scan.yieldCode, after_outside hx.kind_ne]
    · simp only [munch_space hc]
      rfl

theorem take_nil (n : Nat) : (Scan.mk [] [] .outside).take n = [] := by
  cases n <;> rfl

theorem exists_joined_spaced (x : Lexeme) (xs : List Lexeme) :
    ∃ cs, joined (spaced (x :: xs)) = x.text ++ cs := by
  cases xs with
  | nil => exact ⟨[], by simp⟩
  | cons y ys => exact ⟨_, by rw [spaced_cons_cons, joined_cons]⟩

theorem take_spaced (h : ∀ x ∈ xs, Standalone x) {n : Nat} (hn : (spaced xs).length ≤ n) :
    (Scan.mk (joined (spaced xs)) [] .outside).take n = spaced xs := by
  induction xs generalizing n with
  | nil => exact take_nil n
  | cons x xs ih =>
    have hx := h x List.mem_cons_self
    obtain ⟨m, rfl⟩ := Nat.exists_eq_add_of_le' hn
    cases xs with
    | nil =>
      rw [spaced_single, joined_cons, joined_nil, List.append_nil]
      simp only [List.length_singleton, Scan.take, next_last hx, take_nil]
    | cons y ys =>
      have hys : ∀ z ∈ y :: ys, Standalone z := fun z hz => h z (List.mem_cons_of_mem x hz)
      obtain ⟨c, cs, hy, hc⟩ := (hys y List.mem_cons_self).head
      obtain ⟨rest, hrest⟩ := exists_joined_spaced y ys
      rw [hy, List.cons_append] at hrest
      have htake := ih hys (Nat.le_add_left _ m)
      obtain ⟨t, ht, hspace⟩ := next_beforeSpace (cs ++ rest) hx hc
      rw [hrest] at htake
      simp only [spaced_cons_cons, joined_cons, hrest, List.length_cons, ← Nat.add_assoc, space,
        List.cons_append, List.nil_append, Scan.take, ht, hspace, htake]

theorem length_le_joined (h : ∀ x ∈ xs, 0 < x.text.length) : xs.length ≤ (joined xs).length := by
  induction xs with
  | nil => exact Nat.le_refl 0
  | cons x xs ih =>
    have hx := h x List.mem_cons_self
    have hxs := ih fun y hy => h y (List.mem_cons_of_mem x hy)
    rw [joined_cons, List.length_cons, List.length_append]
    omega

end Lexer

open Lexer in
/-- Lexemes that stand alone are read as they are, with the spaces between them. -/
theorem lexemes_spaced {xs : List Lexeme} (h : ∀ x ∈ xs, Standalone x) :
    lexemes (Lexeme.joined (Lexeme.spaced xs)) = Lexeme.spaced xs := by
  refine take_spaced h ?_
  have hsize : (Scan.mk (Lexeme.joined (Lexeme.spaced xs)) [] .outside).size =
      (Lexeme.joined (Lexeme.spaced xs)).length := by
    simp [Scan.size]
  rw [hsize]
  refine length_le_joined fun y hy => ?_
  rcases Lexeme.mem_spaced hy with hy | rfl
  · obtain ⟨c, cs, htext, -⟩ := (h y hy).head
    rw [htext]
    exact Nat.succ_pos cs.length
  · exact Nat.one_pos

/-! ### Words and problems -/

theorem ofLexemes_space (xs : List Lexeme) :
    Word.ofLexemes false (Lexeme.space :: xs) = Word.ofLexemes false xs := rfl

theorem ofLexemes_word {x : Lexeme} (hx : x.kind.isTrivia = false) (startsLine : Bool)
    (xs : List Lexeme) : Word.ofLexemes startsLine (x :: xs) =
      ⟨x.kind, x.text, startsLine⟩ :: Word.ofLexemes false xs := by
  rw [Word.ofLexemes, hx]
  rfl

/-- The words among spaced lexemes are the lexemes; only the first one may start a line. -/
theorem ofLexemes_spaced {x : Lexeme} {xs : List Lexeme}
    (h : ∀ y ∈ x :: xs, y.kind.isTrivia = false) (startsLine : Bool) :
    Word.ofLexemes startsLine (Lexeme.spaced (x :: xs)) =
      ⟨x.kind, x.text, startsLine⟩ :: xs.map Lexeme.word := by
  induction xs generalizing x startsLine with
  | nil => exact ofLexemes_word (h x List.mem_cons_self) startsLine []
  | cons y ys ih =>
    have hys := ih (fun z hz => h z (List.mem_cons_of_mem x hz)) false
    rw [Lexeme.spaced_cons_cons, ofLexemes_word (h x List.mem_cons_self), ofLexemes_space, hys]
    rfl

theorem problems_eq_nil {xs : List Lexeme} (h : ∀ x ∈ xs, x.kind ≠ .error) (offset : Nat) :
    Problem.ofLexemes offset xs = [] := by
  induction xs generalizing offset with
  | nil => rfl
  | cons x xs ih =>
    rw [Problem.ofLexemes, ih fun y hy => h y (List.mem_cons_of_mem x hy), Problem.ofLexeme?,
      if_neg (h x List.mem_cons_self)]
    rfl

end CRBasic
