import CRBasic.Lexer.Tokenize
import CRBasic.Proofs.Lexer.Found
import CRBasic.Proofs.Text.Problems

/-!
# Texts in error

A token in error is one character that no rule allows, a string whose line ends before its closing
quote, or a number that runs into words; which of them it is can be told from its text, as its
diagnostic does (`error_tokens`).  Behind a number, in error or not, there is no word.
-/

namespace CRBasic

open Lexer Lexeme Pattern

/-- What is wrong with a text that the given text follows. -/
inductive Fault (rest : List Char) : Cause → List Char → Prop where
  /-- No rule matches any start of the text at the character. -/
  | character {c : Char} (h : ∀ r ∈ rules, ∀ n, ¬ Matches r.pattern ((c :: rest).take n)) :
      Fault rest .invalidCharacter [c]
  /-- A run that starts with a double quote, and that no rule reads as a string. -/
  | openString {cs : List Char} (h : longestMatch ('\x22' :: cs ++ rest) = some (.error, cs.length + 1)) :
      Fault rest .unclosedString ('\x22' :: cs)
  /-- A number with the words that it runs into, as many as there are. -/
  | number {n : Lexeme} {ws : List Lexeme} (hnumber : n.kind = .number)
      (h : munch (n.text ++ (joined ws ++ rest)) = some (n, joined ws ++ rest)) (hws : ws ≠ [])
      (hwords : Words (joined ws ++ rest) ws rest) (hend : NoWord rest) :
      Fault rest .malformedNumber (n.text ++ joined ws)

namespace Lexer

variable {cs rest : List Char} {c : Char} {x : Lexeme}

theorem pattern_rules_error : ∀ r ∈ rules, r.kind = .error → r.pattern = unclosedString := by
  decide +kernel

theorem pattern_rules_number : ∀ r ∈ rules, r.kind = .number →
    r.pattern.startsWithin ['.', '&'] ∨ r.pattern = decimalNumber := by
  decide +kernel

theorem contains_digit : CharSet.digit.contains c = c.isDigit := by
  simp [CharSet.contains, CharSet.digit, Char.isDigit, Char.le_def]

theorem matches_quote : Matches unclosedString ['\x22'] :=
  .seq (u := ['\x22']) (.seq (u := ['\x22']) (.oneOf rfl) (.starNil _)) (.second _ .empty)

theorem matches_digit (hc : c.isDigit) : Matches decimalNumber [c] :=
  .seq (u := [c]) (.seq (u := [c]) (.oneOf (contains_digit.trans hc)) (.starNil _))
    (.seq (u := []) (.second _ .empty) (.seq (u := []) (.second _ .empty) (.second _ .empty)))

/-- The first lexeme is the longest match or, where no rule matches, one character. -/
theorem munch_cases (h : munch cs = some (x, rest)) :
    longestMatch cs = some (x.kind, x.text.length) ∨
      longestMatch cs = none ∧ ∃ c, x = ⟨.error, [c]⟩ ∧ cs = c :: rest := by
  unfold munch at h
  split at h
  · cases h
  · next c cs =>
    split at h
    · next k n hn =>
      cases h
      left
      rw [hn, List.length_take, Nat.min_eq_left (longestMatch_bounds hn).2]
    · next hnone =>
      cases h
      exact .inr ⟨hnone, c, rfl, rfl⟩

/-- A match in error starts with a double quote. -/
theorem head_of_error (h : longestMatch cs = some (.error, x.text.length))
    (htext : x.text ++ rest = cs) : x.text.head? = some '\x22' := by
  rcases exists_rule_of_better h with hnone | ⟨r, hr, hkind, hn⟩
  · cases hnone
  · have hmatch := (longest_eq_some_iff.1 hn).matches_take
    rw [pattern_rules_error r hr hkind, ← htext, List.take_left] at hmatch
    obtain ⟨body, tail, hbody, -⟩ := matches_unclosedString hmatch
    rw [hbody]
    rfl

/-- A number starts with a digit, a point or an ampersand. -/
theorem head_of_number (h : munch cs = some (x, rest)) (hnumber : x.kind = .number) :
    ∃ c v, x.text = c :: v ∧ (c.isDigit ∨ c = '.' ∨ c = '&') := by
  obtain ⟨r, hr, hkind, hmatch⟩ := exists_rule_of_munch h (by simp [hnumber])
  rcases pattern_rules_number r hr (hkind.trans hnumber) with hstarts | hdecimal
  · obtain ⟨c, v, htext, hc⟩ := exists_of_startsWithin hstarts hmatch
    exact ⟨c, v, htext, .inr (by simpa using hc)⟩
  · rw [hdecimal] at hmatch
    obtain ⟨u, v, htext, hu, -⟩ := matches_seq.1 hmatch
    obtain ⟨d, w, rfl, hd, -⟩ := matches_seq.1 hu
    obtain ⟨c, rfl, hc⟩ := matches_oneOf.1 hd
    exact ⟨c, w ++ v, htext, .inl (contains_digit.symm.trans hc)⟩

end Lexer

variable {cs rest : List Char} {cause : Cause}

/-- The cause that is told from a text is the fault that it has. -/
theorem Fault.cause_eq (h : Fault rest cause cs) : Cause.ofErrorText cs = cause := by
  cases h with
  | @character c hnone =>
    have hquote : c ≠ '\x22' := by
      rintro rfl
      exact hnone ⟨.error, unclosedString⟩ (by decide +kernel) 1 matches_quote
    have hdigit : c.isDigit = false := by
      refine Bool.eq_false_iff.2 fun hc => ?_
      exact hnone ⟨.number, decimalNumber⟩ (by decide +kernel) 1 (matches_digit hc)
    rw [Cause.ofErrorText.eq_2 _ _ hquote]
    simp [hdigit]
  | openString h => rfl
  | @number n ws hnumber hmunch hws hwords _ =>
    obtain ⟨c, v, htext, hc⟩ := head_of_number hmunch hnumber
    have hmore : v ++ joined ws ≠ [] := by
      intro hnil
      exact hwords.joined_ne_nil hws (List.append_eq_nil_iff.1 hnil).2
    have hquote : c ≠ '\x22' := by
      rintro rfl
      revert hc
      decide
    rw [htext, List.cons_append, Cause.ofErrorText.eq_2 _ _ hquote]
    rcases hc with hdigit | hmark
    · rw [if_pos hdigit]
    · have hmarked : (c = '.' ∨ c = '&') ∧ v ++ joined ws ≠ [] := ⟨hmark, hmore⟩
      rw [if_pos hmarked, ite_self]

theorem Fault.noWord (h : Fault rest .malformedNumber cs) : NoWord rest := by
  cases h with
  | number _ _ _ _ hend => exact hend

theorem Fault.longestMatch_of_open (h : Fault rest .unclosedString ('\x22' :: cs)) :
    longestMatch ('\x22' :: cs ++ rest) = some (.error, cs.length + 1) := by
  cases h with
  | openString h => exact h

/-- What is found in error has a fault. -/
theorem Lexer.Found.exists_fault {x : Lexeme} (h : Found x rest) (herror : x.kind = .error) :
    ∃ cause, Fault rest cause x.text := by
  cases h with
  | rule h hnumber =>
    rcases munch_cases h with hfound | ⟨hnone, c, rfl, hcs⟩
    · rw [herror] at hfound
      obtain ⟨cs, hcs⟩ := List.head?_eq_some_iff.1 (head_of_error hfound (munch_spec h).1)
      rw [hcs] at hfound ⊢
      exact ⟨.unclosedString, .openString hfound⟩
    · refine ⟨.invalidCharacter, .character fun r hr n => ?_⟩
      rw [hcs] at hnone
      exact longest_eq_none_iff.1 (longest_of_longestMatch_none hnone r hr) n
  | number h hnumber =>
    rw [hnumber] at herror
    cases herror
  | malformed h hnumber hwords hws hend =>
    exact ⟨.malformedNumber, .number hnumber h hws hwords hend⟩
  | blank => cases herror
  | units => cases herror

/-- The diagnostics of the tokens in error. -/
theorem diagnostics_tokenize (source : List Char) : (tokenize source).2 =
    ((lex source).filter (·.kind = .error)).map fun t =>
      ⟨.ofErrorText (t.text source), .ofRange (LineIndex.ofText source) t.range⟩ := by
  have hfrom (pre xs : List Lexeme) (h : joined (pre ++ xs) = source) :
      (Problem.ofLexemes (byteLength (joined pre)) xs).map (Problem.resolve (LineIndex.ofText source)) =
        ((tokens (byteLength (joined pre)) xs).filter (·.kind = .error)).map fun t =>
          ⟨.ofErrorText (t.text source), .ofRange (LineIndex.ofText source) t.range⟩ := by
    induction xs generalizing pre with
    | nil => rfl
    | cons x xs ih =>
      have hnext := ih (pre ++ [x]) (by rw [← h, List.append_assoc, List.singleton_append])
      have htext := text_token (joined pre) (joined xs) x
      rw [List.append_assoc, ← joined_cons, ← joined_append, h] at htext
      rw [joined_append, joined_cons, joined_nil, List.append_nil, byteLength_append] at hnext
      rw [Problem.ofLexemes, List.map_append, hnext, tokens, List.filter_cons, Problem.ofLexeme?]
      by_cases herror : x.kind = .error
      · have hkept : decide ((x.token (byteLength (joined pre))).kind = .error) = true :=
          decide_eq_true herror
        rw [if_pos herror, if_pos hkept, List.map_cons, htext]
        rfl
      · simp [herror, token]
  exact hfrom [] (lexemes source) (joined_lexemes source)

/-- The diagnostics of a text are those of its tokens in error, in their order.  Each of these has exactly
one fault, the one that its diagnostic names.  No number is followed by a word, and no malformed one. -/
theorem error_tokens (source : List Char) :
    (tokenize source).2 = ((lex source).filter (·.kind = .error)).map (fun t =>
        ⟨.ofErrorText (t.text source), .ofRange (LineIndex.ofText source) t.range⟩) ∧
      (∀ t ∈ lex source, t.kind = .error → ∃ rest, dropBytes source t.range.stop = some rest ∧
        ∀ cause, Fault rest cause (t.text source) ↔ cause = .ofErrorText (t.text source)) ∧
      [Cause.invalidCharacter, .unclosedString, .malformedNumber].map Cause.message =
        ["invalid character", "unterminated string literal", "malformed numeric literal"] ∧
      ∀ before t u after rest, lex source = before ++ t :: u :: after →
        dropBytes source t.range.stop = some rest →
        t.kind = .number ∨ t.kind = .error ∧ Fault rest .malformedNumber (t.text source) →
        u.kind.isWord = false := by
  refine ⟨diagnostics_tokenize source, fun t ht herror => ?_, rfl, ?_⟩
  · obtain ⟨before, after, h⟩ := List.append_of_mem ht
    obtain ⟨pre, x, post, hx, hkind, htext, hdrop, -⟩ := exists_lexeme_of_lex h
    obtain ⟨cause, hfault⟩ := (found_of_lexemes hx).exists_fault (hkind.symm.trans herror)
    rw [htext]
    refine ⟨joined post, hdrop, fun cause' => ?_⟩
    constructor
    · exact fun h => h.cause_eq.symm
    · rintro rfl
      rwa [hfault.cause_eq]
  · intro before t u after rest h hrest hnumber
    obtain ⟨pre, x, post, hx, hkind, htext, hdrop, hafter⟩ := exists_lexeme_of_lex h
    obtain ⟨y, post, rfl, hy, -⟩ := List.map_eq_cons_iff.1 hafter.symm
    obtain rfl : joined (y :: post) = rest := Option.some.inj (hdrop.symm.trans hrest)
    have hword : y.kind = u.kind := hy
    rw [← hword]
    refine not_isWord_of_noWord hx ?_
    rcases hnumber with hnumber | ⟨-, hfault⟩
    · exact (found_of_lexemes hx).noWord_of_number (hkind.symm.trans hnumber)
    · exact hfault.noWord

/-- In `2.5.5 x` the second number starts with its point, so the first one runs into it. -/
theorem error_tokens_run : lex "2.5.5 x".toList =
      [⟨.error, 0, 5⟩, ⟨.whitespace, 5, 6⟩, ⟨.ident, 6, 7⟩] ∧
    (∃ rest, dropBytes "2.5.5 x".toList 5 = some rest ∧
      ∀ cause, Fault rest cause "2.5.5".toList ↔ cause = .malformedNumber) := by
  have hlex : lex "2.5.5 x".toList =
      [⟨.error, 0, 5⟩, ⟨.whitespace, 5, 6⟩, ⟨.ident, 6, 7⟩] := by
    decide +kernel
  obtain ⟨rest, hrest, hfault⟩ :=
    (error_tokens "2.5.5 x".toList).2.1 ⟨.error, 0, 5⟩ (by rw [hlex]; exact List.mem_cons_self) rfl
  have htext : Token.text "2.5.5 x".toList ⟨.error, 0, 5⟩ = "2.5.5".toList := by decide +kernel
  rw [htext] at hfault
  exact ⟨hlex, rest, hrest, hfault⟩

end CRBasic
