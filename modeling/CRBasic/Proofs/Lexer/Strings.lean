import CRBasic.Proofs.Lexer.Faults
import Mathlib.Algebra.Ring.Parity

/-!
# Strings and their quotes

A backslash joins the character after it, so the backslashes before a character decide between
themselves whether it is joined: it is after an odd number of them.  A string goes up to the first
double quote on its line that is not joined (`strings_by_backslashes`); where there is none, the whole
line from the opening quote on is in error.
-/

namespace CRBasic

/-- The number of backslashes at the end of a text. -/
def trailingBackslashes (cs : List Char) : Nat := (cs.reverse.takeWhile (· = '\\')).length

/-- Every double quote of a text comes after an odd number of backslashes. -/
def QuotesJoined (cs : List Char) : Prop :=
  ∀ u v, cs = u ++ '\x22' :: v → Odd (trailingBackslashes u)

variable {cs u v rest : List Char} {c : Char}

@[simp] theorem trailingBackslashes_nil : trailingBackslashes [] = 0 := rfl

theorem trailingBackslashes_backslash (cs : List Char) :
    trailingBackslashes (cs ++ ['\\']) = trailingBackslashes cs + 1 := by
  simp [trailingBackslashes]

theorem trailingBackslashes_other (hc : c ≠ '\\') (cs : List Char) :
    trailingBackslashes (cs ++ [c]) = 0 := by
  simp [trailingBackslashes, hc]

/-- A backslash at the end adds no double quote. -/
theorem QuotesJoined.backslash (h : QuotesJoined cs) : QuotesJoined (cs ++ ['\\']) := by
  intro u v hcs
  rcases List.append_eq_append_iff.1 hcs with ⟨w, rfl, hw⟩ | ⟨w, rfl, hw⟩
  · cases w with
    | nil => cases (List.cons.inj hw).1
    | cons d w => cases (List.append_eq_nil_iff.1 (List.cons.inj hw).2.symm).2
  · cases w with
    | nil => cases (List.cons.inj hw).1
    | cons d w =>
      obtain ⟨rfl, -⟩ := List.cons.inj hw
      exact h u w rfl

namespace Lexer

open Lexeme Pattern

/-! ### Parts of strings -/

theorem contains_allBut_iff {ds : List Char} : (CharSet.allBut ds).contains c ↔ c ∉ ds := by
  rw [CharSet.contains_allBut, Bool.not_eq_true', ← Bool.not_eq_true, CharSet.contains_these]

theorem ne_of_plainChars (hc : plainChars.contains c) : c ≠ '\x22' ∧ c ≠ '\\' := by
  constructor <;> rintro rfl <;> cases hc

/-- The parts of a string leave the number of backslashes before them even. -/
theorem even_trailingBackslashes (hu : Even (trailingBackslashes u)) (hv : Matches (star stringItem) v) :
    Even (trailingBackslashes (u ++ v)) := by
  generalize hp : star stringItem = p at hv
  induction hv generalizing u with
  | starNil => rwa [List.append_nil]
  | @starCons p item v hitem _ _ ih =>
    cases hp
    rw [← List.append_assoc]
    refine ih ?_ rfl
    rcases matches_stringItem hitem with ⟨c, rfl, hc⟩ | ⟨c, rfl⟩
    · rw [trailingBackslashes_other (ne_of_plainChars hc).2]
      exact .zero
    · rw [List.append_cons]
      by_cases hc : c = '\\'
      · rw [hc, trailingBackslashes_backslash, trailingBackslashes_backslash]
        exact hu.add ⟨1, rfl⟩
      · rw [trailingBackslashes_other hc]
        exact .zero
  | _ => cases hp

/-- A double quote among the parts of a string is the second character of one. -/
theorem odd_trailingBackslashes (hu : Even (trailingBackslashes u)) (hv : Matches (star stringItem) v)
    {before after : List Char} (h : v = before ++ '\x22' :: after) :
    Odd (trailingBackslashes (u ++ before)) := by
  generalize hp : star stringItem = p at hv
  induction hv generalizing u before with
  | starNil => simp at h
  | @starCons p item v hitem hv _ ih =>
    cases hp
    have heven : Even (trailingBackslashes (u ++ item)) := by
      refine even_trailingBackslashes hu ?_
      have hone := Matches.starCons hitem (.starNil stringItem)
      rwa [List.append_nil] at hone
    rcases matches_stringItem hitem with ⟨c, rfl, hc⟩ | ⟨c, rfl⟩
    · cases before with
      | nil => exact absurd (List.cons.inj h).1 (ne_of_plainChars hc).1
      | cons d before =>
        obtain ⟨rfl, htail⟩ := List.cons.inj h
        have hodd := ih heven htail rfl
        rwa [List.append_assoc] at hodd
    · cases before with
      | nil => cases (List.cons.inj h).1
      | cons d before =>
        obtain ⟨rfl, htail⟩ := List.cons.inj h
        cases before with
        | nil =>
          rw [trailingBackslashes_backslash]
          exact hu.add_one
        | cons e before =>
          obtain ⟨rfl, hrest⟩ := List.cons.inj htail
          have hodd := ih heven hrest rfl
          rwa [List.append_assoc] at hodd
  | _ => cases hp

theorem quotesJoined_of_matches (h : Matches (star stringItem) cs) : QuotesJoined cs := by
  intro u v hcs
  exact odd_trailingBackslashes (u := []) .zero h hcs

/-! ### Where an open string ends -/

theorem matches_unclosed (h : Matches (star stringItem) cs) : Matches unclosedString ('\x22' :: cs) := by
  have hopen : Matches unclosedString (['\x22'] ++ cs ++ []) :=
    .seq (.seq (.oneOf rfl) h) (.second _ .empty)
  rwa [List.append_nil] at hopen

theorem matches_unclosed_backslash (h : Matches (star stringItem) cs) :
    Matches unclosedString ('\x22' :: (cs ++ ['\\'])) :=
  .seq (u := '\x22' :: cs) (.seq (u := ['\x22']) (.oneOf rfl) h) (.first _ (.oneOf rfl))

theorem matches_closed (h : Matches (star stringItem) cs) :
    Matches closedString ('\x22' :: (cs ++ ['\x22'])) :=
  .seq (u := '\x22' :: cs) (.seq (u := ['\x22']) (.oneOf rfl) h) (.oneOf rfl)

/-- No rule matches more of a text than the longest match. -/
theorem length_le_of_matches {k : TokenKind} {n : Nat} (h : longestMatch (u ++ v) = some (k, n)) {r : Rule}
    (hr : r ∈ rules) (hu : Matches r.pattern u) : u.length ≤ n := by
  have htake : Matches r.pattern ((u ++ v).take u.length) := by rwa [List.take_left]
  cases hlongest : r.pattern.longest (u ++ v) with
  | none => exact absurd htake (longest_eq_none_iff.1 hlongest _)
  | some m =>
    have hle := (longest_eq_some_iff.1 hlongest).le (by simp) htake
    exact Nat.le_trans hle (le_of_longestMatch h hr hlongest)

/-- The parts of an open string, the last perhaps a lone backslash. -/
theorem exists_body_of_openString
    (h : longestMatch ('\x22' :: cs ++ rest) = some (.error, cs.length + 1)) :
    ∃ body tail, cs = body ++ tail ∧ Matches (star stringItem) body ∧ (tail = [] ∨ tail = ['\\']) := by
  rcases exists_rule_of_better h with hnone | ⟨r, hr, hkind, hn⟩
  · cases hnone
  · have hmatch := (longest_eq_some_iff.1 hn).matches_take
    rw [pattern_rules_error r hr hkind, ← List.length_cons, List.take_left] at hmatch
    obtain ⟨body, tail, hcs, hbody, htail⟩ := matches_unclosedString hmatch
    exact ⟨body, tail, (List.cons.inj hcs).2, hbody, htail⟩

/-- An open string goes up to the end of its line: any other character would be a part of it, or close
it. -/
theorem break_of_openString
    (h : longestMatch ('\x22' :: cs ++ c :: rest) = some (.error, cs.length + 1)) :
    c = '\r' ∨ c = '\n' := by
  have hopen : (⟨.error, unclosedString⟩ : Rule) ∈ rules := by decide +kernel
  have hclosed : (⟨.quotedString, closedString⟩ : Rule) ∈ rules := by decide +kernel
  obtain ⟨body, tail, rfl, hbody, htail⟩ := exists_body_of_openString h
  have hlonger {r : Rule} (hr : r ∈ rules) : ¬ Matches r.pattern ('\x22' :: (body ++ tail ++ [c])) := by
    intro hmatch
    rw [List.append_cons, List.cons_append] at h
    have hle := length_le_of_matches h hr hmatch
    simp only [List.length_cons, List.length_append, List.length_nil] at hle
    omega
  refine Classical.byContradiction fun hc => ?_
  have hline : (CharSet.allBut ['\r', '\n']).contains c := by
    rw [contains_allBut_iff]
    simpa using hc
  rcases htail with rfl | rfl
  · rw [List.append_nil] at hlonger
    by_cases hquote : c = '\x22'
    · exact hlonger hclosed (hquote ▸ matches_closed hbody)
    · by_cases hback : c = '\\'
      · exact hlonger hopen (hback ▸ matches_unclosed_backslash hbody)
      · refine hlonger hopen (matches_unclosed (matches_star_append hbody (.first _ (.oneOf ?_))))
        have hplain : c ∉ ['\x22', '\\', '\r', '\n'] := by simpa [hquote, hback] using hc
        exact contains_allBut_iff.2 hplain
  · refine hlonger hopen ?_
    rw [List.append_assoc]
    refine matches_unclosed (matches_star_append hbody (.second _ ?_))
    exact .seq (u := ['\\']) (.oneOf rfl) (.oneOf hline)

end Lexer

open Lexer

/-! ### Strings of a text -/

variable {source w : List Char} {x : Lexeme} {pre post : List Lexeme}

/-- The text between the quotes of a string. -/
theorem exists_joined_of_quotedString (hx : x ∈ lexemes source) (hkind : x.kind = .quotedString) :
    ∃ w, x.text = '\x22' :: w ++ ['\x22'] ∧ Unbroken w ∧ QuotesJoined w ∧
      Even (trailingBackslashes w) := by
  obtain ⟨r, hr, hrkind, hmatch⟩ :=
    ruled_of_mem_lexemes hx (by simp [hkind]) (by simp [hkind]) (by simp [hkind])
  rw [pattern_rules_quotedString r hr (hrkind.trans hkind)] at hmatch
  obtain ⟨w, hw, hbody⟩ := matches_closedString hmatch
  have hline := unbroken_of_mem_lexemes hx (by simp [hkind])
  rw [hw] at hline
  exact ⟨w, hw, hline.of_subset (by simp), quotesJoined_of_matches hbody,
    even_trailingBackslashes (u := []) .zero hbody⟩

/-- The rest of a line that an open string takes. -/
theorem rest_of_openString (hx : lexemes source = pre ++ x :: post) (hkind : x.kind = .error)
    (hw : x.text = '\x22' :: w) : QuotesJoined w ∧ Unbroken w ∧
      ∀ c ∈ (Lexeme.joined post).head?, c = '\r' ∨ c = '\n' := by
  have hmem : x ∈ lexemes source := hx ▸ List.mem_append_right _ List.mem_cons_self
  have hline := unbroken_of_mem_lexemes hmem (by simp [hkind])
  obtain ⟨cause, hfault⟩ := (found_of_lexemes hx).exists_fault hkind
  rw [hw] at hline hfault
  obtain rfl : Cause.unclosedString = cause := hfault.cause_eq
  have hopen := hfault.longestMatch_of_open
  refine ⟨?_, hline.of_subset (List.subset_cons_self _ _), fun c hc => ?_⟩
  · obtain ⟨body, tail, rfl, hbody, htail⟩ := exists_body_of_openString hopen
    rcases htail with rfl | rfl
    · rw [List.append_nil]
      exact quotesJoined_of_matches hbody
    · exact .backslash (quotesJoined_of_matches hbody)
  · obtain ⟨rest, hrest⟩ := List.head?_eq_some_iff.1 hc
    rw [hrest] at hopen
    exact break_of_openString hopen

/-- A string ends at the first double quote that comes after an even number of backslashes.  A run that a
double quote opens and that is in error has none, and takes the rest of its line. -/
theorem strings_by_backslashes (source : List Char) :
    (∀ t ∈ lex source, t.kind = .quotedString → ∃ w, t.text source = '\x22' :: w ++ ['\x22'] ∧
        Unbroken w ∧ QuotesJoined w ∧ Even (trailingBackslashes w)) ∧
      ∀ t ∈ lex source, t.kind = .error → ∀ w, t.text source = '\x22' :: w →
        QuotesJoined w ∧ Unbroken w ∧ ∃ rest, dropBytes source t.range.stop = some rest ∧
          ∀ c ∈ rest.head?, c = '\r' ∨ c = '\n' := by
  constructor
  · intro t ht hkind
    obtain ⟨before, after, hlex⟩ := List.append_of_mem ht
    obtain ⟨pre, x, post, hx, hxkind, htext, -⟩ := exists_lexeme_of_lex hlex
    have hmem : x ∈ lexemes source := hx ▸ List.mem_append_right _ List.mem_cons_self
    obtain ⟨w, hw, hinner⟩ := exists_joined_of_quotedString hmem (hxkind.symm.trans hkind)
    exact ⟨w, htext.trans hw, hinner⟩
  · intro t ht hkind w hw
    obtain ⟨before, after, hlex⟩ := List.append_of_mem ht
    obtain ⟨pre, x, post, hx, hxkind, htext, hdrop, -⟩ := exists_lexeme_of_lex hlex
    obtain ⟨hjoined, hline, hend⟩ :=
      rest_of_openString hx (hxkind.symm.trans hkind) (htext.symm.trans hw)
    exact ⟨hjoined, hline, _, hdrop, hend⟩

/-- In `"a\" b\` the second quote is joined, and so the whole line is in error, the backslash at its end
with it. -/
theorem strings_by_backslashes_open :
    let source := "x \"a\\\" b\\\ny".toList
    (⟨.error, 2, 9⟩ : Token) ∈ lex source ∧ QuotesJoined "a\\\" b\\".toList ∧
      ∃ rest, dropBytes source 9 = some rest ∧ ∀ c ∈ rest.head?, c = '\r' ∨ c = '\n' := by
  intro source
  have hmem : (⟨.error, 2, 9⟩ : Token) ∈ lex source := by decide +kernel
  have htext : Token.text source ⟨.error, 2, 9⟩ = '\x22' :: "a\\\" b\\".toList := by decide +kernel
  obtain ⟨hjoined, -, hend⟩ := (strings_by_backslashes source).2 _ hmem rfl _ htext
  exact ⟨hmem, hjoined, hend⟩

end CRBasic
