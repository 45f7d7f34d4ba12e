import CRBasic.Proofs.Lexer.Heads
import CRBasic.Proofs.Lexer.Reader

/-!
# How lexemes are found

Every lexeme of a text is found in one of few ways at the place where it stands: by the rules, as a
number with the words that it runs into, or as a part of a declaration of units (`found_of_lexemes`).
What follows it there is the text of the lexemes after it, so a lexeme that goes on as far as it can is
followed by none that it could go on with (`not_isWord_of_noWord`).
-/

namespace CRBasic

namespace Lexeme

theorem map_kind_tokens (offset : Nat) (xs : List Lexeme) :
    (tokens offset xs).map (·.kind) = xs.map (·.kind) := by
  induction xs generalizing offset with
  | nil => rfl
  | cons x xs ih => rw [tokens, List.map_cons, List.map_cons, ih, token]

/-- Tokens are cut where their lexemes are. -/
theorem exists_of_tokens_eq_append {offset : Nat} {xs : List Lexeme} {before after : List Token}
    {t : Token} (h : tokens offset xs = before ++ t :: after) :
    ∃ pre x post, xs = pre ++ x :: post ∧ t = x.token (offset + byteLength (joined pre)) ∧
      after = tokens (offset + byteLength (joined (pre ++ [x]))) post := by
  induction xs generalizing offset before with
  | nil => simp [tokens] at h
  | cons y ys ih =>
    cases before with
    | nil =>
      obtain ⟨rfl, rfl⟩ := List.cons.inj h
      exact ⟨[], y, ys, rfl, by simp, by simp⟩
    | cons b before =>
      obtain ⟨pre, x, post, rfl, rfl, rfl⟩ := ih (List.cons.inj h).2
      exact ⟨y :: pre, x, post, rfl, by simp [Nat.add_assoc], by simp [Nat.add_assoc]⟩

end Lexeme

namespace Lexer

open Lexeme

/-! ### Ways to find a lexeme -/

/-- Words at the start of a text, without a gap, and the text after them. -/
inductive Words : List Char → List Lexeme → List Char → Prop where
  | nil (cs : List Char) : Words cs [] cs
  | cons {cs rest cs' : List Char} {w : Lexeme} {ws : List Lexeme} (h : munch cs = some (w, rest))
      (hword : w.kind.isWord) (hws : Words rest ws cs') : Words cs (w :: ws) cs'

/-- No word stands at the start of a text. -/
def NoWord (cs : List Char) : Prop :=
  ∀ w rest, munch cs = some (w, rest) → w.kind.isWord = false

/-- How a lexeme is found, and the text after it. -/
inductive Found : Lexeme → List Char → Prop where
  | rule {x : Lexeme} {rest : List Char} (h : munch (x.text ++ rest) = some (x, rest))
      (hnumber : x.kind ≠ .number) : Found x rest
  | number {x : Lexeme} {rest : List Char} (h : munch (x.text ++ rest) = some (x, rest))
      (hnumber : x.kind = .number) (hend : NoWord rest) : Found x rest
  | malformed {n : Lexeme} {ws : List Lexeme} {rest : List Char}
      (h : munch (n.text ++ (joined ws ++ rest)) = some (n, joined ws ++ rest))
      (hnumber : n.kind = .number) (hwords : Words (joined ws ++ rest) ws rest) (hws : ws ≠ [])
      (hend : NoWord rest) : Found ⟨.error, n.text ++ joined ws⟩ rest
  | blank {cs blank text rest : List Char} (h : unitsText? cs = some (blank, text, rest)) :
      Found ⟨.whitespace, blank⟩ (text ++ rest)
  | units {cs blank text rest : List Char} (h : unitsText? cs = some (blank, text, rest)) :
      Found ⟨.unitsText, text⟩ rest

variable {cs rest : List Char} {x : Lexeme}

/-! ### Words after a number -/

theorem Words.joined_append {ws : List Lexeme} (h : Words cs ws rest) : joined ws ++ rest = cs := by
  induction h with
  | nil cs => rfl
  | cons hmunch _ _ ih => rw [joined_cons, List.append_assoc, ih, (munch_spec hmunch).1]

theorem Words.joined_ne_nil {ws : List Lexeme} (h : Words cs ws rest) (hws : ws ≠ []) :
    joined ws ≠ [] := by
  cases h with
  | nil cs => exact absurd rfl hws
  | cons hmunch _ _ => exact fun hnil => (munch_spec hmunch).2 (List.append_eq_nil_iff.1 hnil).1

theorem noWord_nil : NoWord [] := by
  intro w rest h
  cases h

theorem found_of_munch (h : munch cs = some (x, rest)) (hnumber : x.kind ≠ .number) : Found x rest :=
  .rule ((munch_spec h).1 ▸ h) hnumber

/-- A run of words takes all there are, and the lexeme that it has found behind them is no word. -/
theorem words_wordRun {n : Nat} (hn : cs.length ≤ n) :
    ∃ ws, (wordRun n cs).text = joined ws ∧
      Words cs ws (joined (wordRun n cs).next ++ (wordRun n cs).rest) ∧
      NoWord (joined (wordRun n cs).next ++ (wordRun n cs).rest) ∧
      ∀ x ∈ (wordRun n cs).next, Found x (wordRun n cs).rest := by
  induction n generalizing cs with
  | zero =>
    obtain rfl := List.eq_nil_of_length_eq_zero (Nat.le_zero.1 hn)
    exact ⟨[], rfl, .nil [], noWord_nil, by simp [wordRun]⟩
  | succ n ih =>
    rw [wordRun]
    split
    · next hmunch =>
      obtain rfl := munch_eq_none hmunch
      exact ⟨[], rfl, .nil [], noWord_nil, by simp⟩
    · next x rest hmunch =>
      obtain ⟨htext, hne⟩ := munch_spec hmunch
      split
      · next hword =>
        have hlength := congrArg List.length htext
        have hpos := List.length_pos_iff.2 hne
        rw [List.length_append] at hlength
        have hshort : rest.length ≤ n := by omega
        obtain ⟨ws, hrun, hwords, hend, hnext⟩ := ih hshort
        exact ⟨x :: ws, congrArg (x.text ++ ·) hrun, .cons hmunch hword hwords, hend, hnext⟩
      · next hword =>
        have hcs : joined [x] ++ rest = cs := by simpa using htext
        have hnumber : x.kind ≠ .number := by
          intro hnumber
          rw [hnumber] at hword
          exact hword rfl
        refine ⟨[], rfl, hcs ▸ .nil cs, ?_, ?_⟩
        · intro w rest' hw
          dsimp only at hw
          rw [hcs, hmunch] at hw
          cases hw
          exact Bool.eq_false_iff.2 hword
        · intro y hy
          obtain rfl := List.mem_singleton.1 hy
          exact found_of_munch hmunch hnumber

/-! ### Scans -/

namespace Scan

variable {s t : Scan}

/-- Every lexeme that waits has been found where it stands, before the text not yet looked at. -/
def AllFound (s : Scan) : Prop := ∀ x ∈ s.pending, Found x s.rest

theorem found_nextCode {units : UnitsProgress} (h : nextCode cs units = some (x, t)) :
    Found x t.text ∧ t.AllFound := by
  unfold nextCode at h
  split at h
  · cases h
  · next y rest hmunch =>
    split at h
    · next hnumber =>
      obtain ⟨ws, htext, hwords, hend, hnext⟩ := words_wordRun (Nat.le_refl rest.length)
      cases h
      refine ⟨?_, hnext⟩
      split
      · next hempty =>
        have hnil : ws = [] := by
          refine Classical.not_not.1 fun hws => hwords.joined_ne_nil hws ?_
          rw [← htext, List.isEmpty_iff.1 hempty]
        rw [hnil] at hwords
        have hrest := hwords.joined_append
        rw [joined_nil, List.nil_append] at hrest
        refine .number ?_ hnumber hend
        rw [text, hrest, (munch_spec hmunch).1]
        exact hmunch
      · next hempty =>
        have hws : ws ≠ [] := by
          rintro rfl
          exact hempty (List.isEmpty_iff.2 htext)
        rw [htext]
        have hrest := hwords.joined_append
        refine .malformed ?_ hnumber ?_ hws hend
        · rw [text, hrest, (munch_spec hmunch).1]
          exact hmunch
        · rw [text, hrest]
          exact hwords
    · next hnumber =>
      cases h
      exact ⟨found_of_munch hmunch hnumber, by simp [AllFound]⟩

/-- A step of a scan yields a lexeme found before the rest of the text. -/
theorem Ready.found_next (hs : s.Ready) (hfound : s.AllFound) (h : s.next = some (x, t)) :
    Found x t.text ∧ t.AllFound := by
  unfold Scan.next at h
  split at h
  · next y pending hpending =>
    obtain rfl := hs.eq_nil_of_pending hpending
    cases h
    exact ⟨hfound x (by simp [hpending]), by simp [AllFound]⟩
  · split at h
    · split at h
      · next hunits =>
        cases h
        exact ⟨.units hunits, by simp [AllFound]⟩
      · next hunits =>
        cases h
        refine ⟨?_, fun y hy => ?_⟩
        · have hblank := Found.blank hunits
          simpa [text] using hblank
        · rw [List.mem_singleton.1 hy]
          exact .units hunits
      · exact found_nextCode h
    · exact found_nextCode h

/-- Every lexeme of a scan is found before the text of those after it. -/
theorem found_of_remaining (hproper : s.Proper) (hs : s.Ready) (hfound : s.AllFound)
    {before after : List Lexeme} (h : s.remaining = before ++ x :: after) : Found x (joined after) := by
  induction before generalizing s with
  | nil =>
    cases hnext : s.next with
    | none =>
      rw [remaining_of_next_none hnext] at h
      cases h
    | some r =>
      obtain ⟨y, t⟩ := r
      obtain ⟨-, -, ht⟩ := next_spec hproper hnext
      rw [remaining_of_next hproper hnext] at h
      obtain ⟨rfl, rfl⟩ := List.cons.inj h
      rw [joined_remaining ht]
      exact (hs.found_next hfound hnext).1
  | cons z before ih =>
    cases hnext : s.next with
    | none =>
      rw [remaining_of_next_none hnext] at h
      cases h
    | some r =>
      obtain ⟨y, t⟩ := r
      obtain ⟨-, -, ht⟩ := next_spec hproper hnext
      rw [remaining_of_next hproper hnext] at h
      exact ih ht (hs.next hnext) (hs.found_next hfound hnext).2 (List.cons.inj h).2

end Scan

/-- A number takes the words that follow it. -/
theorem Found.noWord_of_number (h : Found x rest) (hnumber : x.kind = .number) : NoWord rest := by
  cases h with
  | rule _ hother => exact absurd hnumber hother
  | number _ _ hend => exact hend
  | malformed => cases hnumber
  | blank => cases hnumber
  | units => cases hnumber

theorem Found.munch_of_isWord (h : Found x rest) (hword : x.kind.isWord) :
    munch (x.text ++ rest) = some (x, rest) := by
  cases h with
  | rule h => exact h
  | number h => exact h
  | malformed => cases hword
  | blank => cases hword
  | units => cases hword

end Lexer

open Lexer Lexeme

/-- A token of a text has the kind and the text of a lexeme, and so have the tokens after it. -/
theorem exists_lexeme_of_lex {source : List Char} {before after : List Token} {t : Token}
    (h : lex source = before ++ t :: after) : ∃ pre x post, lexemes source = pre ++ x :: post ∧
      t.kind = x.kind ∧ t.text source = x.text ∧
      dropBytes source t.range.stop = some (joined post) ∧
      after.map (·.kind) = post.map (·.kind) := by
  obtain ⟨pre, x, post, hx, rfl, hafter⟩ := exists_of_tokens_eq_append h
  have hsource : joined pre ++ x.text ++ joined post = source := by
    rw [← joined_lexemes source, hx, joined_append, joined_cons, List.append_assoc]
  have htext := text_token (joined pre) (joined post) x
  have hdrop := dropBytes_append (joined pre ++ x.text) (joined post)
  rw [hsource] at htext hdrop
  rw [byteLength_append] at hdrop
  rw [Nat.zero_add]
  exact ⟨pre, x, post, hx, rfl, htext, hdrop, by rw [hafter, map_kind_tokens]⟩

/-- Every lexeme of a text is found before the text of the lexemes after it. -/
theorem found_of_lexemes {source : List Char} {before after : List Lexeme} {x : Lexeme}
    (h : lexemes source = before ++ x :: after) : Found x (joined after) :=
  Scan.found_of_remaining Scan.proper_nil (.of_pending_eq_nil rfl) (by simp [Scan.AllFound]) h

/-- Where no word stands at the start of the rest of a text, the next lexeme is none. -/
theorem not_isWord_of_noWord {source : List Char} {before after : List Lexeme} {x y : Lexeme}
    (h : lexemes source = before ++ x :: y :: after) (hend : NoWord (joined (y :: after))) :
    y.kind.isWord = false := by
  refine Bool.eq_false_iff.2 fun hword => ?_
  have hy : Found y (joined after) := by
    have hsplit : lexemes source = (before ++ [x]) ++ y :: after := by
      rw [h, List.append_assoc, List.singleton_append]
    exact found_of_lexemes hsplit
  have hfalse := hend y _ (hy.munch_of_isWord hword)
  rw [hword] at hfalse
  cases hfalse

end CRBasic
