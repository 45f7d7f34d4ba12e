import CRBasic.Proofs.Text.LineEnds
import CRBasic.Proofs.Tree.Layout

/-!
# Gaps between words

The blanks, line breaks and comments between two words of a text are a gap.  A node that starts in a gap
takes a comment on a line of its own, and all that follows it in the gap; the node that starts next looks
for another comment from there on.  So the first such comment goes to the first node, the second one to the
node after it, and so on (`Builder.splitLeading_spec`).
-/

namespace CRBasic

namespace Lexeme

/-- The comments on lines of their own among some blanks, line breaks and comments, each with what comes
after it.  The flag tells whether these stand at the start of a line. -/
def ownLineComments (startsLine : Bool) : List Lexeme → List (List Lexeme)
  | [] => []
  | x :: xs =>
    if startsLine && x.kind == .comment then (x :: xs) :: ownLineComments false xs
    else ownLineComments (startsLine || x.kind == .newline) xs

/-- How many of some offsets lie behind the given lexemes of a text, and behind its start. -/
def countBehind (front : List Lexeme) (offsets : List Nat) : Nat :=
  offsets.countP (max 1 (byteLength (joined front)) ≤ ·)

theorem countBehind_eq_zero {front : List Lexeme} {offsets : List Nat} {k : Nat}
    (h : ∀ n ∈ offsets, n ≤ k) (hk : k = 0 ∨ k < byteLength (joined front)) :
    countBehind front offsets = 0 := by
  refine List.countP_eq_zero.2 fun n hn => ?_
  have := h n hn
  rw [decide_eq_true_eq]
  omega

theorem countBehind_concat {front : List Lexeme} {n : Nat} (offsets : List Nat) (hpos : 0 < n)
    (hn : byteLength (joined front) ≤ n) :
    countBehind front (offsets ++ [n]) = countBehind front offsets + 1 := by
  have hle : max 1 (byteLength (joined front)) ≤ n := Nat.max_le.2 ⟨hpos, hn⟩
  rw [countBehind, List.countP_append, List.countP_singleton, if_pos (decide_eq_true hle)]
  rfl

theorem byteLength_joined_pos {x : Lexeme} {ys : List Lexeme} (hx : x ∈ ys) (htext : x.text ≠ []) :
    0 < byteLength (joined ys) := by
  obtain ⟨us, vs, rfl⟩ := List.append_of_mem hx
  have hpos : byteLength x.text ≠ 0 := (byteLength_eq_zero_iff x.text).not.2 htext
  rw [joined_append, joined_cons, byteLength_append, byteLength_append]
  omega

end Lexeme

open Lexeme

/-- A gap in a text: the blanks, line breaks and comments before a word, and what comes before and after
them. -/
structure Gap (xs : List Lexeme) where
  front : List Lexeme
  trivia : List Lexeme
  word : Lexeme
  back : List Lexeme
  append_eq : front ++ trivia ++ word :: back = xs
  isTrivia : ∀ x ∈ trivia, x.kind.isTrivia
  isTrivia_word : word.kind.isTrivia = false
  /-- A word comes before the gap, if anything does. -/
  isTrivia_getLast : ∀ x ∈ front.getLast?, x.kind.isTrivia = false

namespace Gap

variable {xs : List Lexeme} (g : Gap xs)

/-- The comments of a gap that stand on lines of their own, each with what comes after it in the gap. -/
def comments : List (List Lexeme) := ownLineComments g.front.isEmpty g.trivia

/-- The end of a gap from the comment of the given number on, counted from 0, of those that stand on lines
of their own.  It is empty if there are not so many. -/
def leading (k : Nat) : List Lexeme := (g.comments[k]?).getD []

end Gap

/-- A node begins in a gap with the comment of the given number, or with the word after the gap. -/
structure Node.BeginsIn {xs : List Lexeme} (n : Node) (g : Gap xs) (k : Nat) : Prop where
  start_add : n.start + byteLength (joined (g.leading k)) = byteLength (joined (g.front ++ g.trivia))
  leaves : ∃ inner, Tree.leavesOfAll n.children = g.leading k ++ g.word :: inner

/-- If a node has words, it begins in a gap of the text.  The nodes before it start at the given offsets;
each of them that starts in the gap takes a comment. -/
def Node.Follows (xs : List Lexeme) (starts : List Nat) (n : Node) : Prop :=
  (∃ x ∈ Tree.leavesOfAll n.children, x.kind.isTrivia = false) →
    ∃ g : Gap xs, n.BeginsIn g (countBehind g.front starts)

/-! ### Looking for comments -/

namespace Builder

/-- What is passed over ends before the first comment on a line of its own.  From there on the same comments
are left but the first one. -/
theorem splitLeading_spec {startsLine : Bool} {rest skipped lead back : List Lexeme}
    (h : splitLeading startsLine rest = (skipped, lead ++ back)) (hlead : ∀ x ∈ lead, x.kind.isTrivia) :
    lead = ((ownLineComments startsLine (skipped ++ lead))[0]?).getD [] ∧
      ownLineComments false lead = (ownLineComments startsLine (skipped ++ lead)).tail := by
  induction rest generalizing startsLine skipped with
  | nil =>
    obtain ⟨rfl, hnil⟩ := Prod.mk.inj h
    obtain ⟨rfl, -⟩ := List.append_eq_nil_iff.1 hnil.symm
    exact ⟨rfl, rfl⟩
  | cons x rest ih =>
    rw [splitLeading] at h
    split at h
    · next hstop =>
      obtain ⟨rfl, hrest⟩ := Prod.mk.inj h
      cases lead with
      | nil => exact ⟨rfl, rfl⟩
      | cons y lead =>
        obtain ⟨rfl, -⟩ := List.cons.inj hrest
        have hown : startsLine = true ∧ x.kind = .comment := by
          simpa [hlead x List.mem_cons_self] using hstop
        have hbreak : (TokenKind.comment == TokenKind.newline) = false := rfl
        simp [ownLineComments, hown, hbreak]
    · next hgo =>
      obtain ⟨htrivia, hown⟩ : x.kind.isTrivia = true ∧ ¬ (startsLine && x.kind == .comment) = true := by
        simpa using hgo
      obtain ⟨rfl, hrest⟩ := Prod.mk.inj h
      rw [List.cons_append, ownLineComments, if_neg hown]
      exact ih (Prod.ext rfl hrest)

end Builder

end CRBasic
