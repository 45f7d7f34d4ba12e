import CRBasic.Proofs.Lexer.Found
import CRBasic.Proofs.Text.Problems

/-!
# Tokens line by line

The tokens of a text that ends with a line feed, and of a text after it, are those of the one and those
of the other, moved (`lex_pastLine`).  Nothing is carried over a line break: a reader that has read one
stands where a new reader of the rest of the text does, and no other token goes past it.
-/

namespace CRBasic

/-- The same token in a text that starts `n` bytes earlier. -/
def Token.shift (n : Nat) (t : Token) : Token := ⟨t.kind, t.range.shift n⟩

theorem Lexeme.tokens_shift (n m : Nat) (xs : List Lexeme) :
    tokens (n + m) xs = (tokens m xs).map (·.shift n) := by
  induction xs generalizing m with
  | nil => rfl
  | cons x xs ih =>
    rw [tokens, tokens, List.map_cons, Nat.add_assoc, ih, token, token, Token.shift, ByteRange.shift,
      Nat.add_assoc]

namespace Lexer

variable {source : List Char} {ts : List Token} {t : Token} {r : Lexer}

/-! ### After a line break -/

/-- A line break found by the rules ends a declaration of units, and no lexeme waits behind it. -/
theorem Scan.nextCode_newline {cs : List Char} {units : UnitsProgress} {x : Lexeme} {s : Scan}
    (hunits : units ≠ .awaitingText) (h : nextCode cs units = some (x, s)) (hx : x.kind = .newline) :
    s = ⟨s.rest, [], .outside⟩ := by
  unfold nextCode at h
  split at h
  · cases h
  · next y rest hmunch =>
    split at h
    · next hnumber =>
      -- A number, alone or with what it runs into, is no line break.
      cases h
      split at hx
      · rw [hnumber] at hx
        cases hx
      · cases hx
    · cases h
      rw [hx, after_newline hunits]

/-- A scan that has yielded a line break is a new scan of the rest of its text. -/
theorem Scan.Ready.next_newline {s s' : Scan} (hs : s.Ready) {x : Lexeme} (h : s.next = some (x, s'))
    (hx : x.kind = .newline) : s' = ⟨s'.rest, [], .outside⟩ := by
  unfold Scan.next at h
  split at h
  · next y pending hpending =>
    have hnil := hs.eq_nil_of_pending hpending
    have hunits := hs.ne_awaitingText hpending
    cases h
    rw [hx, after_newline hunits, hnil]
  · split at h
    · split at h
      · cases h
        cases hx
      · cases h
        cases hx
      · exact nextCode_newline (by simp) h hx
    · next hunits => exact nextCode_newline hunits h hx

/-- A reader that has read a line break stands where a new reader of the rest of the text does. -/
theorem Reads.scan_newline (h : Reads source (ts ++ [t]) r) (ht : t.kind = .newline) :
    ∃ rest, dropBytes source t.range.stop = some rest ∧ r.scan = (ofText rest).scan := by
  have hbetween := h.between
  generalize hread : ts ++ [t] = read at h
  cases h with
  | start => simp at hread
  | @next ts' r₀ _ t' hreads hnext =>
    obtain ⟨-, rfl⟩ := List.append_inj' hread rfl |>.imp_right List.singleton_inj.1
    obtain ⟨⟨x, scan⟩, hscan, heq⟩ := Option.map_eq_some_iff.1 hnext
    cases heq
    have hnew : scan = ⟨scan.rest, [], .outside⟩ := hreads.between.ready.next_newline hscan ht
    refine ⟨scan.rest, ?_, hnew⟩
    have htext := hbetween.text_eq
    rw [hnew] at htext
    exact htext

end Lexer

open Lexeme in
/-- The tokens of a text that ends with a line feed and of another text after it are those of the two,
moved.  A reader that has read a line break, in whatever text, goes on as a new reader of the rest, and
all other tokens lie within their lines. -/
theorem lex_pastLine {first : List Char} (h : first.getLast? = some '\n') (second : List Char) :
    lex (first ++ second) = lex first ++ (lex second).map (·.shift (byteLength first)) ∧
      (∀ ts t r, Lexer.Reads (first ++ second) (ts ++ [t]) r → t.kind = .newline →
        ∃ rest, dropBytes (first ++ second) t.range.stop = some rest ∧
          r.scan = (Lexer.ofText rest).scan) ∧
      ∀ t ∈ lex (first ++ second), t.kind ≠ .newline → Unbroken (t.text (first ++ second)) := by
  refine ⟨?_, fun ts t r hreads ht => hreads.scan_newline ht, fun t ht hkind => ?_⟩
  · obtain ⟨line, rfl⟩ := List.getLast?_eq_some_iff.1 h
    have hlexemes : lexemes (line ++ ['\n'] ++ second) = lexemes (line ++ ['\n']) ++ lexemes second := by
      have hnil : lexemes [] = [] := rfl
      rw [← List.append_cons, lexemes_lineFeed, lexemes_lineFeed line [], hnil, List.append_nil]
    have hshift := tokens_shift (byteLength (line ++ ['\n'])) 0 (lexemes second)
    rw [lex, hlexemes, tokens_append, joined_lexemes, Nat.zero_add, lex, lex, ← hshift, Nat.add_zero]
  · obtain ⟨before, after, hlex⟩ := List.append_of_mem ht
    obtain ⟨pre, x, post, hx, hxkind, htext, -⟩ := exists_lexeme_of_lex hlex
    rw [htext]
    exact unbroken_of_mem_lexemes (hx ▸ List.mem_append_right _ List.mem_cons_self) (hxkind ▸ hkind)

/-- The text that follows the `=` of a declaration of units is not looked for on the next line. -/
theorem lex_pastLine_units : "Units a=\n".toList.getLast? = some '\n' ∧
    lex ("Units a=\n".toList ++ "b".toList) =
      lex "Units a=\n".toList ++ (lex "b".toList).map (·.shift 9) ∧
    lex "b".toList = [⟨.ident, 0, 1⟩] := by
  have hend : "Units a=\n".toList.getLast? = some '\n' := by decide
  exact ⟨hend, (lex_pastLine hend "b".toList).1, by decide +kernel⟩

end CRBasic
