import CRBasic.Proofs.Lexer.Faults
import CRBasic.Proofs.Lexer.UnitsText

/-!
# What follows the text of a unit

Behind a free text stand the white space that it was trimmed of, at most one comment, and the end of the
line (`unitsText_trailed`).  More characters are white space than the rules take for blanks: each of the
others is in error.
-/

namespace CRBasic

namespace Lexer

open Lexeme Pattern

variable {cs rest blank text : List Char} {c : Char} {k : TokenKind} {x : Lexeme}

/-! ### Lexemes by their first characters -/

/-- The characters with which only rules of one kind begin. -/
def headKinds : List (Char × TokenKind) :=
  [('\r', .newline), ('\n', .newline), ('\x27', .comment), (' ', .whitespace), ('\t', .whitespace),
    ('\x0c', .whitespace)]

theorem headKinds_rules : headKinds.all fun p =>
    (rules.all fun r => r.kind == p.2 || (r.pattern.derivative p.1).isNothing) &&
      rules.any fun r => (r.pattern.derivative p.1).nullable := by
  decide +kernel

/-- Such a character alone tells the kind of the first lexeme. -/
theorem exists_munch_of_head (hc : (c, k) ∈ headKinds) (cs : List Char) : ∃ x rest,
    munch (c :: cs) = some (x, rest) ∧ x.kind = k ∧
      ∃ r ∈ rules, r.kind = x.kind ∧ Matches r.pattern x.text := by
  have htable := List.all_eq_true.1 headKinds_rules _ hc
  rw [Bool.and_eq_true] at htable
  obtain ⟨r, hr, hnull⟩ := List.any_eq_true.1 htable.2
  have hone : Matches r.pattern [c] := matches_derivative.1 (nullable_iff.1 hnull)
  cases hmunch : munch (c :: cs) with
  | none => cases munch_eq_none hmunch
  | some p =>
    obtain ⟨x, rest⟩ := p
    rcases munch_cases hmunch with hmatch | ⟨hnone, -⟩
    · rcases exists_rule_of_better hmatch with hnone | ⟨r, hr, hkind, hn⟩
      · cases hnone
      obtain ⟨htext, hne⟩ := munch_spec hmunch
      have hx := (longest_eq_some_iff.1 hn).matches_take
      rw [← htext, List.take_left] at hx
      refine ⟨x, rest, rfl, ?_, r, hr, hkind, hx⟩
      obtain ⟨d, w, hdw⟩ := List.exists_cons_of_ne_nil hne
      rw [hdw, List.cons_append] at htext
      obtain ⟨rfl, -⟩ := List.cons.inj htext
      have hrule := List.all_eq_true.1 htable.1 r hr
      rw [Bool.or_eq_true, beq_iff_eq] at hrule
      rcases hrule with hrule | hnothing
      · rw [← hkind, hrule]
      · rw [hdw] at hx
        exact absurd hx (not_matches_of_derivative hnothing)
    · exact absurd hone (longest_eq_none_iff.1 (longest_of_longestMatch_none hnone r hr) 1)

/-- Nothing of a text starts with the character, so it is in error. -/
theorem munch_of_derivative (h : ∀ r ∈ rules, (r.pattern.derivative c).isNothing) (cs : List Char) :
    munch (c :: cs) = some (⟨.error, [c]⟩, cs) := by
  refine munch_of_longestMatch_none ?_
  cases hmatch : longestMatch (c :: cs) with
  | none => rfl
  | some p =>
    obtain ⟨k, n⟩ := p
    obtain ⟨hpos, -⟩ := longestMatch_bounds hmatch
    rcases exists_rule_of_better hmatch with hnone | ⟨r, hr, -, hn⟩
    · cases hnone
    · have hx := (longest_eq_some_iff.1 hn).matches_take
      obtain ⟨n, rfl⟩ := Nat.exists_eq_add_one.2 hpos
      exact absurd hx (not_matches_of_derivative (h r hr))

/-- All characters with the property `White_Space`. -/
def whiteSpaces : List Char :=
  whiteSpaceRanges.flatMap fun (lo, hi) => (List.range' lo (hi + 1 - lo)).map Char.ofNat

theorem mem_whiteSpaces_of_isWhiteSpace (h : isWhiteSpace c) : c ∈ whiteSpaces := by
  obtain ⟨⟨lo, hi⟩, hrange, hc⟩ := List.any_eq_true.1 h
  simp only [Bool.and_eq_true, decide_eq_true_eq] at hc
  refine List.mem_flatMap.2 ⟨(lo, hi), hrange, List.mem_map.2 ⟨c.toNat, ?_, Char.ofNat_toNat c⟩⟩
  rw [List.mem_range'_1]
  omega

/-- No rule begins with a white space other than a blank or the end of a line. -/
theorem derivative_whiteSpaces : whiteSpaces.all fun c =>
    [' ', '\t', '\x0c', '\r', '\n'].contains c ||
      rules.all fun r => (r.pattern.derivative c).isNothing := by
  decide +kernel

/-! ### Behind a free text -/

/-- What the rules make of white space within a line: blanks, or a character in error. -/
inductive Trimmed : Lexeme → Prop where
  | blanks {cs : List Char} (h : ∀ c ∈ cs, c ∈ [' ', '\t', '\x0c']) : Trimmed ⟨.whitespace, cs⟩
  | error {c : Char} (hwhite : isWhiteSpace c) (hc : c ∉ [' ', '\t', '\x0c']) : Trimmed ⟨.error, [c]⟩

variable {tail more : List Char}

/-- Blanks at the start of white space are one lexeme, which does not go past the white space. -/
theorem exists_lexemes_blanks (hc : c ∈ [' ', '\t', '\x0c'])
    (hmore : ∀ c ∈ more.head?, c ∉ [' ', '\t', '\x0c']) :
    ∃ x later, lexemes (c :: tail ++ more) = x :: lexemes (later ++ more) ∧ Trimmed x ∧
      c :: tail = x.text ++ later ∧ x.text ≠ [] := by
  have hhead : (c, TokenKind.whitespace) ∈ headKinds := by
    simp only [List.mem_cons, List.not_mem_nil, or_false] at hc
    rcases hc with rfl | rfl | rfl <;> decide
  obtain ⟨x, rest, hmunch, hkind, r, hr, hrkind, hmatch⟩ := exists_munch_of_head hhead (tail ++ more)
  rw [pattern_rules_whitespace r hr (hrkind.trans hkind)] at hmatch
  have hall : ∀ c ∈ x.text, c ∈ [' ', '\t', '\x0c'] := fun c hc =>
    CharSet.contains_these.1 ((contains_of_matches_plus hmatch).2 c hc)
  obtain ⟨htext, hne⟩ := munch_spec hmunch
  have hlexemes := lexemes_of_munch hmunch (by simp [hkind]) (by simp [hkind])
  have htrimmed : Trimmed x := by
    obtain ⟨k, cs⟩ := x
    obtain rfl : k = .whitespace := hkind
    exact .blanks hall
  obtain ⟨later, hlater, rfl⟩ : ∃ later, c :: tail = x.text ++ later ∧ rest = later ++ more := by
    rw [← List.cons_append] at htext
    rcases List.append_eq_append_iff.1 htext with ⟨later, h, hrest⟩ | ⟨past, hpast, hmore'⟩
    · exact ⟨later, h, hrest⟩
    · cases past with
      | nil => exact ⟨[], by simpa using hpast.symm, by simpa using hmore'.symm⟩
      | cons d past =>
        refine absurd (hall d ?_) (hmore d ?_)
        · simp [hpast]
        · simp [hmore']
  exact ⟨x, later, hlexemes, htrimmed, hlater, hne⟩

/-- White space that is no blank is in error. -/
theorem lexemes_whiteSpace (hwhite : isWhiteSpace c) (hc : c ∉ [' ', '\t', '\x0c'])
    (hline : Unbroken [c]) (cs : List Char) : lexemes (c :: cs) = ⟨.error, [c]⟩ :: lexemes cs := by
  have hnone := List.all_eq_true.1 derivative_whiteSpaces c (mem_whiteSpaces_of_isWhiteSpace hwhite)
  have hother : [' ', '\t', '\x0c', '\r', '\n'].contains c = false := by
    simp [Unbroken] at hc hline ⊢
    tauto
  rw [hother, Bool.false_or, List.all_eq_true] at hnone
  exact lexemes_of_munch (munch_of_derivative hnone cs) TokenKind.noConfusion TokenKind.noConfusion

/-- White space within a line becomes lexemes of its own. -/
theorem exists_lexemes_trimmed (htail : ∀ c ∈ tail, isWhiteSpace c) (hline : Unbroken tail)
    (hmore : ∀ c ∈ more.head?, c ∉ [' ', '\t', '\x0c']) :
    ∃ gap, lexemes (tail ++ more) = gap ++ lexemes more ∧ ∀ x ∈ gap, Trimmed x := by
  induction hn : tail.length using Nat.strong_induction_on generalizing tail with
  | _ n ih =>
    subst hn
    cases tail with
    | nil => exact ⟨[], rfl, by simp⟩
    | cons c tail =>
      by_cases hc : c ∈ [' ', '\t', '\x0c']
      · obtain ⟨x, later, hx, htrimmed, htext, hne⟩ := exists_lexemes_blanks hc hmore
        have hlength := congrArg List.length htext
        have hpos := List.length_pos_iff.2 hne
        rw [List.length_append] at hlength
        rw [htext, List.forall_mem_append] at htail
        rw [htext, unbroken_append] at hline
        obtain ⟨gap, hgap, hall⟩ := ih later.length (by omega) htail.2 hline.2 rfl
        exact ⟨x :: gap, by rw [hx, hgap]; rfl, List.forall_mem_cons.2 ⟨htrimmed, hall⟩⟩
      · obtain ⟨hwhite, htail⟩ := List.forall_mem_cons.1 htail
        rw [← List.singleton_append, unbroken_append] at hline
        obtain ⟨gap, hgap, hall⟩ := ih tail.length (by simp) htail hline.2 rfl
        have hx := lexemes_whiteSpace hwhite hc hline.1 (tail ++ more)
        exact ⟨_ :: gap, by rw [List.cons_append, hx, hgap]; rfl,
          List.forall_mem_cons.2 ⟨.error hwhite hc, hall⟩⟩

/-- Where a line ends the next lexeme is a line break, and at the end of the text there is none. -/
theorem newline_of_head (hmore : ∀ c ∈ more.head?, c = '\r' ∨ c = '\n') :
    ∀ x ∈ (lexemes more).head?, x.kind = .newline := by
  cases more with
  | nil => simp [lexemes, Scan.remaining, Scan.size, Scan.take]
  | cons c more =>
    have hhead : (c, TokenKind.newline) ∈ headKinds := by
      rcases hmore c rfl with rfl | rfl <;> decide
    obtain ⟨x, rest, hmunch, hkind, -⟩ := exists_munch_of_head hhead more
    rw [lexemes_of_munch hmunch (by simp [hkind]) (by simp [hkind])]
    simpa using hkind

/-- Behind the white space stand at most a comment and the end of the line. -/
theorem exists_lexemes_comment (hmore : ∀ c ∈ more.head?, c = '\r' ∨ c = '\n' ∨ c = '\x27') :
    ∃ comment later, lexemes more = comment ++ later ∧ comment.length ≤ 1 ∧
      (∀ x ∈ comment, x.kind = .comment) ∧ ∀ x ∈ later.head?, x.kind = .newline := by
  by_cases hcomment : more.head? = some '\x27'
  · obtain ⟨cs, rfl⟩ := List.head?_eq_some_iff.1 hcomment
    obtain ⟨x, rest, hmunch, hkind, r, hr, hrkind, hmatch⟩ :=
      exists_munch_of_head (c := '\x27') (k := .comment) (by decide) cs
    rw [pattern_rules_comment r hr (hrkind.trans hkind)] at hmatch
    have hlexemes := lexemes_of_munch hmunch (by simp [hkind]) (by simp [hkind])
    refine ⟨[x], lexemes rest, hlexemes, by simp, by simpa using hkind, newline_of_head ?_⟩
    intro c hc
    obtain ⟨rest, rfl⟩ := List.head?_eq_some_iff.1 hc
    -- A comment takes the rest of its line.
    have hstop := not_contains_of_munch (k := .comment) (by decide +kernel) hmatch (by simp [hkind])
      hmunch
    rw [CharSet.contains_allBut, Bool.not_eq_false', CharSet.contains_these] at hstop
    simpa using hstop
  · refine ⟨[], lexemes more, rfl, by simp, by simp, newline_of_head fun c hc => ?_⟩
    rcases hmore c hc with h | h | h
    · exact .inl h
    · exact .inr h
    · exact absurd (h ▸ hc) hcomment

/-- Behind a free text stands what its line ends with. -/
theorem Found.exists_tail (h : Found x rest) (hkind : x.kind = .unitsText) :
    ∃ tail more, rest = tail ++ more ∧ (∀ c ∈ tail, isWhiteSpace c) ∧ Unbroken tail ∧
      ∀ c ∈ more.head?, c = '\r' ∨ c = '\n' ∨ c = '\x27' := by
  cases h with
  | rule h => exact absurd hkind (kind_ne_unitsText_of_munch h)
  | number h => exact absurd hkind (kind_ne_unitsText_of_munch h)
  | malformed => cases hkind
  | blank => cases hkind
  | units h =>
    obtain ⟨hfree, hcs⟩ := unitsText?_eq_some_iff.1 h
    obtain ⟨tail, more, hcs', hends⟩ := hfree.exists_tail
    rw [hcs'] at hcs
    exact ⟨tail, more, (List.append_cancel_left (List.append_cancel_left hcs)).symm, hends⟩

/-! ### Readers -/

/-- No lexeme waits behind a free text. -/
theorem Scan.Ready.pending_eq_nil_of_unitsText {s t : Scan} (hs : s.Ready)
    (h : s.next = some (x, t)) (hkind : x.kind = .unitsText) : t.pending = [] := by
  unfold Scan.next at h
  split at h
  · next y pending hpending =>
    cases h
    exact hs.eq_nil_of_pending hpending
  · split at h
    · split at h
      · cases h
        rfl
      · cases h
        cases hkind
      · exact absurd hkind (kind_ne_unitsText_of_nextCode h).1
    · exact absurd hkind (kind_ne_unitsText_of_nextCode h).1

/-- A wait for an `=` ends with it, and the blanks behind it do not begin another. -/
theorem Waits.not_awaitsEq {source : List Char} {ts : List Token} (h : Waits source ts text) :
    ¬ AwaitsEq (ts.map (·.kind)) := by
  obtain ⟨before, e, gap, blank, rfl, hannounced, hgap⟩ := h
  have hsign : ¬ AwaitsEq (before.map (·.kind) ++ [e.kind]) := by
    simp [awaitsEq_concat, hannounced.kind_eq]
  cases hgap with
  | nil => simpa using hsign
  | @blank w hw =>
    rw [List.append_cons, List.map_append, List.map_singleton, awaitsEq_concat, hw]
    simpa using hsign

/-- A scan that has yielded a free text is a new scan of the rest of its text. -/
theorem Reads.scan_unitsText {source : List Char} {ts : List Token} {r : Lexer} {scan : Scan}
    (h : Reads source ts r) (hnext : r.scan.next = some (x, scan)) (hkind : x.kind = .unitsText) :
    scan = ⟨scan.rest, [], .outside⟩ := by
  have hunits : scan.units = .outside := by
    have hnot := ((h.waits_next h.waits hnext).1 hkind).not_awaitsEq
    rw [← progress_eq_awaitingEq_iff, ← h.units_eq] at hnot
    rw [h.between.ready.units_next hnext, hkind]
    cases hunits : r.scan.units with
    | awaitingEq => exact absurd hunits hnot
    | _ => rfl
  rw [← hunits, ← h.between.ready.pending_eq_nil_of_unitsText hnext hkind]

/-- The tokens behind a free text are those of the rest of the text. -/
theorem exists_rest_of_unitsText {source : List Char} {before after : List Token} {t : Token}
    (hlex : lex source = before ++ t :: after) (hkind : t.kind = .unitsText) :
    ∃ front tail more, source = front ++ (tail ++ more) ∧
      after = tokens (byteLength front) (lexemes (tail ++ more)) ∧ (∀ c ∈ tail, isWhiteSpace c) ∧
      Unbroken tail ∧ ∀ c ∈ more.head?, c = '\r' ∨ c = '\n' ∨ c = '\x27' := by
  obtain ⟨r, hr⟩ := exists_reads hlex
  obtain ⟨x, scan, hnext, rfl, hreader⟩ := hr.next_of_lex hlex
  have hbetween := (hr.next hreader).between
  have hnew := hr.scan_unitsText hnext hkind
  generalize scan.rest = rest at hnew
  subst hnew
  have hafter := hbetween.tokens_eq
  rw [hlex, List.append_cons, List.append_cancel_left_eq] at hafter
  obtain ⟨front, hfront, hlength⟩ := append_of_dropBytes hbetween.text_eq
  obtain ⟨pre, y, post, hy, hykind, -, hpost, -⟩ := exists_lexeme_of_lex hlex
  obtain ⟨tail, more, hrest, hends⟩ := (found_of_lexemes hy).exists_tail (hykind.symm.trans hkind)
  obtain rfl : rest = tail ++ more := by
    rw [← hrest]
    exact Option.some.inj (hbetween.text_eq.symm.trans hpost)
  exact ⟨front, tail, more, hfront.symm, hlength ▸ hafter, hends⟩

end Lexer

/-- The kind of a token with its characters. -/
def Token.lexeme (source : List Char) (t : Token) : Lexeme := ⟨t.kind, t.text source⟩

open Lexeme in
theorem Lexeme.map_lexeme_tokens (pre : List Char) (xs : List Lexeme) (rest : List Char) :
    (tokens (byteLength pre) xs).map (·.lexeme (pre ++ (joined xs ++ rest))) = xs := by
  induction xs generalizing pre with
  | nil => rfl
  | cons x xs ih =>
    have hrest := ih (pre ++ x.text)
    rw [byteLength_append] at hrest
    have hx := text_token pre (joined xs ++ rest) x
    simp only [tokens, List.map_cons, joined_cons, List.append_assoc, Token.lexeme] at hrest hx ⊢
    rw [hrest, hx]
    rfl

open Lexer Lexeme in
/-- Behind a free text stand, on its line, the white space that it was trimmed of, as blanks and as single
characters in error, and at most one comment. -/
theorem unitsText_trailed {source : List Char} {before after : List Token} {t : Token}
    (hlex : lex source = before ++ t :: after) (hkind : t.kind = .unitsText) :
    ∃ gap comment later, after = gap ++ (comment ++ later) ∧
      (∀ w ∈ gap, Trimmed (w.lexeme source)) ∧ comment.length ≤ 1 ∧
      (∀ w ∈ comment, w.kind = .comment) ∧ ∀ w ∈ later.head?, w.kind = .newline := by
  obtain ⟨front, tail, more, hsource, hafter, htail, hline, hmore⟩ :=
    exists_rest_of_unitsText hlex hkind
  have hnotBlank : ∀ c ∈ more.head?, c ∉ [' ', '\t', '\x0c'] := by
    intro c hc
    rcases hmore c hc with rfl | rfl | rfl <;> decide
  obtain ⟨gap, hgap, htrimmed⟩ := exists_lexemes_trimmed htail hline hnotBlank
  obtain ⟨comment, later, hcomment, hone, hkinds, hlater⟩ := exists_lexemes_comment hmore
  have hjoined : joined gap ++ joined (comment ++ later) = tail ++ more := by
    rw [← joined_append, ← hcomment, ← hgap, joined_lexemes]
  rw [← hjoined] at hsource
  rw [hgap, hcomment, tokens_append, tokens_append] at hafter
  generalize byteLength front + byteLength (joined gap) = offset at hafter
  have hmap := map_kind_tokens offset comment
  refine ⟨_, _, _, hafter, ?_, ?_, ?_, ?_⟩
  · have hlexemes := map_lexeme_tokens front gap (joined (comment ++ later))
    rw [← hsource] at hlexemes
    intro w hw
    refine htrimmed _ ?_
    rw [← hlexemes]
    exact List.mem_map_of_mem hw
  · have hlength := congrArg List.length hmap
    rw [List.length_map, List.length_map] at hlength
    omega
  · intro w hw
    have hmem : w.kind ∈ comment.map (·.kind) := hmap ▸ List.mem_map_of_mem hw
    obtain ⟨x, hx, hxw⟩ := List.mem_map.1 hmem
    rw [← hxw]
    exact hkinds x hx
  · cases later with
    | nil => simp [tokens]
    | cons x later => simpa [tokens, token] using hlater

open Lexer in
/-- The no-break space after `C` is trimmed of the text of the unit, and then in error. -/
theorem unitsText_trailed_noBreakSpace :
    let source := "Units T=C\u00a0".toList
    let before : List Token :=
      [⟨.kwUnits, 0, 5⟩, ⟨.whitespace, 5, 6⟩, ⟨.ident, 6, 7⟩, ⟨.eq, 7, 8⟩]
    lex source = before ++ ⟨.unitsText, 8, 9⟩ :: [⟨.error, 9, 11⟩] ∧
      ∃ gap comment later, ([⟨.error, 9, 11⟩] : List Token) = gap ++ (comment ++ later) ∧
        (∀ w ∈ gap, Trimmed (w.lexeme source)) ∧ comment.length ≤ 1 ∧
        (∀ w ∈ comment, w.kind = .comment) ∧ ∀ w ∈ later.head?, w.kind = .newline := by
  intro source before
  have hlex : lex source = before ++ ⟨.unitsText, 8, 9⟩ :: [⟨.error, 9, 11⟩] := by decide +kernel
  exact ⟨hlex, unitsText_trailed hlex rfl⟩

end CRBasic
