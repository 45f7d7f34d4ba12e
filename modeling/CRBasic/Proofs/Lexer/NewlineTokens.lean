import CRBasic.Proofs.Lexer.Found
import CRBasic.Proofs.Lexer.LineStarts
import CRBasic.Proofs.Text.Columns

/-!
# Line breaks are tokens

Two scanners divide a text into lines, the one that reads its tokens and the one that finds where its
lines start.  They agree (`lineStarts_eq_newlines`): a carriage return, a line feed, or the pair of them
is a token of its own exactly where it is a line break, and no other token goes past one.
-/

namespace CRBasic

open Lexer Lexeme

variable {source rest : List Char} {x : Lexeme}

/-- How a lexeme stands to line breaks, before the rest of its text: it lies within a line, or it is a
whole line break. -/
inductive Lexeme.Divides (rest : List Char) : Lexeme → Prop where
  | within {x : Lexeme} (hkind : x.kind ≠ .newline) (hline : Unbroken x.text) : Divides rest x
  | lineFeed : Divides rest lineFeed
  | both : Divides rest bothBreaks
  | carriageReturn (h : rest.head? ≠ some '\n') : Divides rest carriageReturn

/-- A line break takes the line feed behind a carriage return with it. -/
theorem Lexer.Found.divides_of_newline (h : Found x rest) (hkind : x.kind = .newline) :
    x.Divides rest := by
  have hmunch : munch (x.text ++ rest) = some (x, rest) := by
    cases h with
    | rule hmunch => exact hmunch
    | number hmunch => exact hmunch
    | malformed => cases hkind
    | blank => cases hkind
    | units => cases hkind
  have hrules : ∀ r ∈ rules, r.kind = .newline → r.pattern = lineBreak := by
    decide +kernel
  obtain ⟨r, hr, hrkind, hmatch⟩ := exists_rule_of_munch hmunch (by simp [hkind])
  rw [hrules r hr (hrkind.trans hkind)] at hmatch
  obtain ⟨kind, text⟩ := x
  obtain rfl : kind = .newline := hkind
  rcases matches_lineBreak hmatch with htext | htext | htext
  · obtain rfl : text = ['\r', '\n'] := htext
    exact .both
  · obtain rfl : text = ['\n'] := htext
    exact .lineFeed
  · obtain rfl : text = ['\r'] := htext
    refine .carriageReturn fun hhead => ?_
    obtain ⟨rest', rfl⟩ := List.head?_eq_some_iff.1 hhead
    rw [List.singleton_append, munch_both] at hmunch
    cases hmunch

theorem divides_of_lexemes {before after : List Lexeme} (h : lexemes source = before ++ x :: after) :
    x.Divides (joined after) := by
  by_cases hkind : x.kind = .newline
  · exact (found_of_lexemes h).divides_of_newline hkind
  · have hx : x ∈ lexemes source := by simp [h]
    exact .within hkind (unbroken_of_mem_lexemes hx hkind)

namespace LineIndex

/-- A line starts behind a lexeme that is a line break, and none inside of a lexeme. -/
theorem breakEnds_lexeme (h : x.Divides rest) (offset : Nat) :
    breakEnds offset (x.text ++ rest) =
      (if x.kind = .newline then [offset + byteLength x.text] else []) ++
        breakEnds (offset + byteLength x.text) rest := by
  cases h with
  | within hkind hline =>
    rw [if_neg hkind, List.nil_append, breakEnds_append_of_line hline.2 hline.1]
  | lineFeed => rfl
  | both => rfl
  | carriageReturn hrest =>
    have hpair : ∀ w, '\r' = '\r' → rest = '\n' :: w → False := by
      rintro w - rfl
      exact hrest rfl
    exact (breakEnds.eq_3 _ _ _ hpair).trans (if_pos (.inl rfl))

/-- The lines of a text start where those of its lexemes end that are line breaks. -/
theorem breakEnds_joined (offset : Nat) {xs : List Lexeme}
    (h : ∀ before x after, xs = before ++ x :: after → x.Divides (joined after)) :
    breakEnds offset (joined xs) =
      ((tokens offset xs).filter (·.kind == .newline)).map (·.range.stop) := by
  induction xs generalizing offset with
  | nil => rfl
  | cons x xs ih =>
    have hxs := ih (offset + byteLength x.text) fun before y after hy =>
      h (x :: before) y after (by rw [hy, List.cons_append])
    rw [joined_cons, breakEnds_lexeme (h [] x xs rfl), hxs, tokens, List.filter_cons]
    by_cases hkind : x.kind = .newline
    · simp [hkind, token]
    · simp [hkind, token]

theorem breakEnds_eq_newlines (source : List Char) :
    breakEnds 0 source = ((lex source).filter (·.kind == .newline)).map (·.range.stop) := by
  have hdivides : ∀ before x after, lexemes source = before ++ x :: after → x.Divides (joined after) :=
    fun _ _ _ h => divides_of_lexemes h
  have h := breakEnds_joined 0 hdivides
  rwa [joined_lexemes] at h

end LineIndex

/-! ### Tokens and lines -/

namespace Lexeme

theorem start_of_mem_tokens {offset : Nat} {xs : List Lexeme} (hne : ∀ x ∈ xs, x.text ≠ [])
    {t : Token} (ht : t ∈ tokens offset xs) : offset ≤ t.range.start ∧ t.range.start < t.range.stop := by
  obtain ⟨before, x, after, hxs, rfl⟩ := mem_tokens_iff.1 ht
  have hlength := length_le_byteLength x.text
  have hpos := List.length_pos_iff.2 (hne x (by simp [hxs]))
  simp only [token]
  omega

/-- No token ends inside of another, nor where another does. -/
theorem eq_or_of_mem_tokens {offset : Nat} {xs : List Lexeme} (hne : ∀ x ∈ xs, x.text ≠ [])
    {t u : Token} (ht : t ∈ tokens offset xs) (hu : u ∈ tokens offset xs) :
    u = t ∨ u.range.stop ≤ t.range.start ∨ t.range.stop < u.range.stop := by
  induction xs generalizing offset with
  | nil => cases ht
  | cons x xs ih =>
    have hxs := (List.forall_mem_cons.1 hne).2
    rcases List.mem_cons.1 ht with rfl | ht'
    · rcases List.mem_cons.1 hu with rfl | hu'
      · exact .inl rfl
      · obtain ⟨hstart, hstop⟩ := start_of_mem_tokens hxs hu'
        exact .inr (.inr (Nat.lt_of_le_of_lt hstart hstop))
    · rcases List.mem_cons.1 hu with rfl | hu'
      · exact .inr (.inl (start_of_mem_tokens hxs ht').1)
      · exact ih hxs ht' hu'

end Lexeme

namespace LineIndex

variable {t : Token} {m n : Nat}

/-- Offsets are on one line if no line starts behind the first of them, up to the other. -/
theorem line_eq_of_le (hmn : m ≤ n) (hn : n ≤ byteLength source)
    (h : ∀ b ∈ breakEnds 0 source, b ≤ m ∨ n < b) :
    ((ofText source).lineCol n).line = ((ofText source).lineCol m).line := by
  have hall : ∀ b ∈ breaksUpTo source n, b ≤ m := by
    intro b hb
    obtain ⟨hbreak, hle⟩ := mem_breaksUpTo_iff.1 hb
    exact (h b (mem_breakEnds_zero_iff.2 hbreak)).resolve_right (Nat.not_lt.2 hle)
  have hsame : breaksUpTo source m = breaksUpTo source n := by
    rw [← takeWhile_breaksUpTo hmn, List.takeWhile_eq_self_iff]
    simpa using hall
  rw [lineCol_of_le hn, lineCol_of_le (Nat.le_trans hmn hn), hsame]

/-- A token is on the line that it starts on, with its end if it is no line break. -/
theorem line_of_mem_lex (ht : t ∈ lex source) (hstart : t.range.start ≤ n)
    (hstop : n < t.range.stop ∨ n = t.range.stop ∧ t.kind ≠ .newline) :
    ((ofText source).lineCol n).line = ((ofText source).lineCol t.range.start).line := by
  have hle : t.range.stop ≤ byteLength source := by
    obtain ⟨before, x, after, hxs, rfl⟩ := mem_tokens_iff.1 ht
    rw [← joined_lexemes source, hxs]
    simp [token, joined_append]
  refine line_eq_of_le hstart (by omega) fun b hb => ?_
  rw [breakEnds_eq_newlines] at hb
  obtain ⟨u, hu, rfl⟩ := List.mem_map.1 hb
  obtain ⟨hu, hkind⟩ := List.mem_filter.1 hu
  have hne : ∀ x ∈ lexemes source, x.text ≠ [] := fun x => text_ne_nil_of_mem_lexemes
  rcases eq_or_of_mem_tokens hne ht hu with rfl | hends | hends
  · refine .inr (hstop.resolve_right ?_)
    rintro ⟨-, hother⟩
    exact hother (by simpa using hkind)
  · exact .inl hends
  · exact .inr (by omega)

end LineIndex

theorem unbroken_of_mem_lex {t : Token} (ht : t ∈ lex source) (hkind : t.kind ≠ .newline) :
    Unbroken (t.text source) := by
  obtain ⟨before, after, hlex⟩ := List.append_of_mem ht
  obtain ⟨pre, x, post, hxs, hkind', htext, -⟩ := exists_lexeme_of_lex hlex
  have hx : x ∈ lexemes source := by simp [hxs]
  rw [htext]
  exact unbroken_of_mem_lexemes hx (hkind' ▸ hkind)

/-- The lines of a text start at its start, and where its newline tokens end, so there is one more of
them than newline tokens.  No other token holds a carriage return or a line feed.  Every byte of a token
is on the line that the token starts on, and the end of a token that is no newline is too. -/
theorem lineStarts_eq_newlines (source : List Char) :
    (LineIndex.ofText source).lineStarts =
        0 :: ((lex source).filter (·.kind == .newline)).map (·.range.stop) ∧
      (LineIndex.ofText source).lineCount = (lex source).countP (·.kind == .newline) + 1 ∧
      (∀ t ∈ lex source, t.kind ≠ .newline →
        '\r' ∉ t.text source ∧ '\n' ∉ t.text source ∧
          ((LineIndex.ofText source).lineCol t.range.stop).line =
            ((LineIndex.ofText source).lineCol t.range.start).line) ∧
      ∀ t ∈ lex source, ∀ n, t.range.start ≤ n → n < t.range.stop →
        ((LineIndex.ofText source).lineCol n).line =
          ((LineIndex.ofText source).lineCol t.range.start).line := by
  have hstarts := congrArg (0 :: ·) (LineIndex.breakEnds_eq_newlines source)
  refine ⟨hstarts, ?_, fun t ht hkind => ?_, fun t ht n hstart hstop => ?_⟩
  · have hcount := congrArg List.length hstarts
    rwa [List.length_cons, List.length_cons, List.length_map, ← List.countP_eq_length_filter] at hcount
  · obtain ⟨hreturn, hfeed⟩ := unbroken_of_mem_lex ht hkind
    have hne : ∀ x ∈ lexemes source, x.text ≠ [] := fun x => text_ne_nil_of_mem_lexemes
    have hstart := (start_of_mem_tokens hne ht).2
    exact ⟨hreturn, hfeed, LineIndex.line_of_mem_lex ht (Nat.le_of_lt hstart) (.inr ⟨rfl, hkind⟩)⟩
  · exact LineIndex.line_of_mem_lex ht hstart (.inl hstop)

/-- A string that is not closed ends with its line, whose break is a carriage return alone. -/
theorem lineStarts_eq_newlines_string :
    let source := "a\r\n\"b\rc\n".toList
    let string : Token := ⟨.error, 3, 5⟩
    (LineIndex.ofText source).lineStarts = [0, 3, 6, 8] ∧
      (LineIndex.ofText source).lineCount = 4 ∧
      (string ∈ lex source ∧ string.kind ≠ .newline ∧ '\r' ∉ string.text source) ∧
      ((LineIndex.ofText source).lineCol 4).line = ((LineIndex.ofText source).lineCol 3).line := by
  intro source string
  obtain ⟨hstarts, hcount, htext, hline⟩ := lineStarts_eq_newlines source
  have hlex : lex source = [⟨.ident, 0, 1⟩, ⟨.newline, 1, 3⟩, string, ⟨.newline, 5, 6⟩,
      ⟨.ident, 6, 7⟩, ⟨.newline, 7, 8⟩] := by
    decide +kernel
  have hmem : string ∈ lex source := by simp [hlex]
  have hkind : string.kind ≠ .newline := by decide
  refine ⟨?_, ?_, ⟨hmem, hkind, (htext string hmem hkind).1⟩, hline string hmem 4 ?_ ?_⟩
  · rw [hstarts, hlex]
    rfl
  · rw [hcount, hlex]
    rfl
  · decide
  · decide

end CRBasic
