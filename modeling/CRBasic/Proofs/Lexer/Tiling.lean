import CRBasic.Lexer.Scan
import CRBasic.Proofs.Lexer.Longest

/-!
# Lexemes tile their text

Every step of a scan yields a lexeme that is not empty and leaves the rest of the text as it is, so
the lexemes of a text, one after the other, are the text (`joined_lexemes`).
-/

namespace CRBasic

namespace Lexeme

@[simp] theorem joined_nil : joined [] = [] := rfl

@[simp] theorem joined_cons (x : Lexeme) (xs : List Lexeme) :
    joined (x :: xs) = x.text ++ joined xs := rfl

theorem joined_append (xs ys : List Lexeme) : joined (xs ++ ys) = joined xs ++ joined ys :=
  List.flatMap_append

end Lexeme

namespace Lexer

open Lexeme

/-! ### The rules -/

theorem nullable_rules : ∀ r ∈ rules, r.pattern.nullable = false := by
  decide +kernel

/-- The match that is found is that of a rule. -/
theorem exists_rule_of_better {text : List Char} {rs : List Rule}
    {best : Option (TokenKind × Nat)} {k : TokenKind} {n : Nat}
    (h : rs.foldl (fun best r => better best text r) best = some (k, n)) :
    best = some (k, n) ∨ ∃ r ∈ rs, r.kind = k ∧ r.pattern.longest text = some n := by
  induction rs generalizing best with
  | nil => exact .inl h
  | cons r rs ih =>
    rw [List.foldl_cons] at h
    rcases ih h with h | ⟨r', hr', h'⟩
    · unfold better at h
      split at h
      · cases h
        exact .inr ⟨r, List.mem_cons_self, rfl, ‹_›⟩
      · split at h
        · cases h
          exact .inr ⟨r, List.mem_cons_self, rfl, ‹_›⟩
        · exact .inl h
      · exact .inl h
    · exact .inr ⟨r', List.mem_cons_of_mem _ hr', h'⟩

/-- A match is not empty and does not go past the end of the text. -/
theorem longestMatch_bounds {text : List Char} {k : TokenKind} {n : Nat}
    (h : longestMatch text = some (k, n)) : 0 < n ∧ n ≤ text.length := by
  rcases exists_rule_of_better h with h | ⟨r, hr, -, hn⟩
  · cases h
  · rw [Pattern.longest_eq_some_iff] at hn
    refine ⟨Nat.pos_of_ne_zero ?_, hn.le_length⟩
    rintro rfl
    have hnull := Pattern.nullable_iff.2 hn.matches_take
    rw [nullable_rules r hr] at hnull
    cases hnull

/-! ### Single steps -/

/-- The first lexeme and the rest of a text make up the text. -/
theorem munch_spec {cs rest : List Char} {x : Lexeme} (h : munch cs = some (x, rest)) :
    x.text ++ rest = cs ∧ x.text ≠ [] := by
  unfold munch at h
  split at h
  · cases h
  · next c cs =>
    split at h
    · next k n hn =>
      cases h
      obtain ⟨hpos, -⟩ := longestMatch_bounds hn
      refine ⟨List.take_append_drop n (c :: cs), ?_⟩
      obtain ⟨m, rfl⟩ := Nat.exists_eq_add_one.2 hpos
      simp
    · cases h
      exact ⟨rfl, by simp⟩

theorem munch_eq_none {cs : List Char} (h : munch cs = none) : cs = [] := by
  unfold munch at h
  split at h
  · rfl
  · split at h <;> cases h

/-- The words that a number runs into, the lexeme after them and the rest make up the text. -/
theorem wordRun_spec (n : Nat) (cs : List Char) :
    (wordRun n cs).text ++ (joined (wordRun n cs).next ++ (wordRun n cs).rest) = cs ∧
      ∀ x ∈ (wordRun n cs).next, x.text ≠ [] := by
  induction n generalizing cs with
  | zero => simp [wordRun]
  | succ n ih =>
    rw [wordRun]
    split
    · simp
    · next x rest h =>
      obtain ⟨htext, hne⟩ := munch_spec h
      split
      · obtain ⟨hrun, hnext⟩ := ih rest
        refine ⟨?_, hnext⟩
        simp only [List.append_assoc, hrun, htext]
      · simp [htext, hne]

theorem prefix_trimEnd (cs : List Char) : trimEnd cs <+: cs := by
  obtain ⟨tail, h, -⟩ := exists_trimEnd_append cs
  exact ⟨tail, h.symm⟩

/-- The blanks before a free text, the text and what follows it make up the text. -/
theorem unitsText?_spec {cs blank text rest : List Char}
    (h : unitsText? cs = some (blank, text, rest)) : blank ++ (text ++ rest) = cs ∧ text ≠ [] := by
  simp only [unitsText?] at h
  split at h
  · cases h
  · next hempty =>
    cases h
    refine ⟨?_, fun hnil => hempty (by rw [hnil]; rfl)⟩
    rw [List.prefix_iff_eq_append.1 ((prefix_trimEnd _).trans (List.takeWhile_prefix _)),
      List.prefix_iff_eq_append.1 (List.takeWhile_prefix _)]

/-! ### Scans -/

namespace Scan

/-- The text that a scan has not yet yielded. -/
def text (s : Scan) : List Char := joined s.pending ++ s.rest

/-- No lexeme that waits is empty. -/
def Proper (s : Scan) : Prop := ∀ x ∈ s.pending, x.text ≠ []

theorem length_text (s : Scan) : s.text.length = s.size := by
  simp [text, size]

/-- A scan after a lexeme has the rest of the text. -/
structure Follows (text : List Char) (x : Lexeme) (t : Scan) : Prop where
  text_eq : x.text ++ t.text = text
  ne_nil : x.text ≠ []
  proper : t.Proper

theorem nextCode_spec {cs : List Char} {units : UnitsProgress} {x : Lexeme} {t : Scan}
    (h : nextCode cs units = some (x, t)) : Follows cs x t := by
  unfold nextCode at h
  split at h
  · cases h
  · next y rest hmunch =>
    obtain ⟨htext, hne⟩ := munch_spec hmunch
    split at h
    · obtain ⟨hrun, hnext⟩ := wordRun_spec rest.length rest
      cases h
      split
      · next hempty =>
        rw [List.isEmpty_iff.1 hempty, List.nil_append] at hrun
        exact ⟨by simp [text, hrun, htext], hne, hnext⟩
      · exact ⟨by simp [text, hrun, htext], by simp [hne], hnext⟩
    · cases h
      exact ⟨by simpa [yieldCode, text] using htext, hne, by simp [Proper]⟩

/-- A step of a scan yields a lexeme that is not empty, and leaves the rest of the text. -/
theorem next_spec {s t : Scan} (hs : s.Proper) {x : Lexeme} (h : s.next = some (x, t)) :
    Follows s.text x t := by
  unfold next at h
  split at h
  · next y pending hpending =>
    cases h
    refine ⟨by simp [text, hpending], hs x (by simp [hpending]), fun z hz => ?_⟩
    exact hs z (by rw [hpending]; exact List.mem_cons_of_mem _ hz)
  · next hpending =>
    have htext : s.text = s.rest := by simp [text, hpending]
    rw [htext]
    split at h
    · split at h
      · next hunits =>
        cases h
        obtain ⟨hrest, hne⟩ := unitsText?_spec hunits
        exact ⟨by simpa [text] using hrest, hne, by simp [Proper]⟩
      · next hblank hunits =>
        cases h
        obtain ⟨hrest, hne⟩ := unitsText?_spec hunits
        exact ⟨by simpa [text] using hrest, hblank, by simpa [Proper] using hne⟩
      · exact nextCode_spec h
    · exact nextCode_spec h

theorem nextCode_eq_none {cs : List Char} {units : UnitsProgress}
    (h : nextCode cs units = none) : cs = [] := by
  unfold nextCode at h
  split at h
  · exact munch_eq_none ‹_›
  · split at h <;> cases h

theorem next_eq_none {s : Scan} (h : s.next = none) : s.text = [] := by
  unfold next at h
  split at h
  · cases h
  · next hpending =>
    have htext : s.text = s.rest := by simp [text, hpending]
    rw [htext]
    split at h
    · split at h
      · cases h
      · cases h
      · exact nextCode_eq_none h
    · exact nextCode_eq_none h

/-- A scan that yields nothing is at its end: no lexeme waits, and nothing is left of the text. -/
theorem ended_of_next_none {s : Scan} (hs : s.Proper) (h : s.next = none) :
    s.pending = [] ∧ s.rest = [] := by
  obtain ⟨hjoined, hrest⟩ := List.append_eq_nil_iff.1 (next_eq_none h)
  refine ⟨List.eq_nil_iff_forall_not_mem.2 fun x hx => hs x hx ?_, hrest⟩
  exact List.flatMap_eq_nil_iff.1 hjoined x hx

/-- If a scan yields as many lexemes as it has characters left, or more, they make up its text. -/
theorem joined_take {n : Nat} {s : Scan} (hs : s.Proper) (hn : s.text.length ≤ n) :
    joined (s.take n) = s.text := by
  induction n generalizing s with
  | zero => simpa [take] using (List.eq_nil_of_length_eq_zero (Nat.le_zero.1 hn)).symm
  | succ n ih =>
    rw [take]
    split
    · next h => exact (next_eq_none h).symm
    · next x t h =>
      obtain ⟨htext, hne, ht⟩ := next_spec hs h
      have hlength := congrArg List.length htext
      have hpos := List.length_pos_iff.2 hne
      rw [List.length_append] at hlength
      rw [joined_cons, ih ht (by omega), htext]

/-- What a scan has yet to yield makes up the text that it has not yet yielded. -/
theorem joined_remaining {s : Scan} (hs : s.Proper) : joined s.remaining = s.text :=
  joined_take hs (Nat.le_of_eq (length_text s))

end Scan

end Lexer

/-- The lexemes of a text make up the text. -/
theorem joined_lexemes (source : List Char) : Lexeme.joined (lexemes source) = source := by
  have h := Lexer.Scan.joined_remaining (s := ⟨source, [], .outside⟩) (by simp [Lexer.Scan.Proper])
  simpa [lexemes, Lexer.Scan.text] using h

namespace Lexeme

/-- Every lexeme lies in the text at the range of its token. -/
theorem text_of_mem_zip {pre : List Char} {xs : List Lexeme} {t : Token} {cs : List Char}
    (h : (t, cs) ∈ (tokens (byteLength pre) xs).zip (xs.map (·.text))) :
    t.text (pre ++ joined xs) = cs := by
  induction xs generalizing pre with
  | nil => simp at h
  | cons x xs ih =>
    rw [tokens, List.map_cons, List.zip_cons_cons, List.mem_cons] at h
    rcases h with h | h
    · cases h
      rw [joined_cons, ← List.append_assoc]
      exact text_token pre (joined xs) x
    · rw [← byteLength_append] at h
      have := ih h
      rwa [List.append_assoc] at this

end Lexeme

end CRBasic
