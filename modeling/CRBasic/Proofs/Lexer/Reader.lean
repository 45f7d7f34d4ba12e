import CRBasic.Proofs.Lexer.Lines
import CRBasic.Proofs.Text.Boundaries
import Mathlib.Data.List.Chain

/-!
# Tokens tile their text

The tokens of a text lie in it side by side, from its start to its end, and a reader that goes from
token to token never has more than one lexeme waiting (`lex_tiles`).  None waits where a free text
is looked for, so that text is looked for right after the last token that was read.
-/

namespace CRBasic

namespace Token

/-- The offset after tokens that begin at the start of a text. -/
def endOf (ts : List Token) : Nat := (ts.getLast?.map (·.range.stop)).getD 0

/-- Tokens that lie in a text side by side, from its start to its end. -/
structure Tile (source : List Char) (ts : List Token) : Prop where
  nonempty : ∀ t ∈ ts, t.range.start < t.range.stop
  boundary : ∀ t ∈ ts, IsBoundary source t.range.start ∧ IsBoundary source t.range.stop
  adjacent : ts.IsChain fun t u => u.range.start = t.range.stop
  first : ∀ t ∈ ts.head?, t.range.start = 0
  last : endOf ts = byteLength source

@[simp] theorem endOf_concat (ts : List Token) (t : Token) : endOf (ts ++ [t]) = t.range.stop := by
  simp [endOf]

end Token

/-! ### Tokens of lexemes -/

namespace Lexeme

theorem mem_tokens_iff {offset : Nat} {xs : List Lexeme} {t : Token} :
    t ∈ tokens offset xs ↔
      ∃ before x after, xs = before ++ x :: after ∧
        t = x.token (offset + byteLength (joined before)) := by
  induction xs generalizing offset with
  | nil => simp [tokens]
  | cons y ys ih =>
    rw [tokens, List.mem_cons, ih]
    constructor
    · rintro (rfl | ⟨before, x, after, rfl, rfl⟩)
      · exact ⟨[], y, ys, rfl, by simp⟩
      · exact ⟨y :: before, x, after, rfl, by simp [Nat.add_assoc]⟩
    · rintro ⟨before, x, after, hxs, rfl⟩
      cases before with
      | nil =>
        cases hxs
        exact .inl (by simp)
      | cons z before =>
        cases hxs
        exact .inr ⟨before, x, after, rfl, by simp [Nat.add_assoc]⟩

theorem isChain_tokens (offset : Nat) (xs : List Lexeme) :
    (tokens offset xs).IsChain fun t u => u.range.start = t.range.stop := by
  induction xs generalizing offset with
  | nil => exact .nil
  | cons x xs ih =>
    have h := ih (offset + byteLength x.text)
    cases xs with
    | nil => exact .singleton _
    | cons y ys => exact .cons_cons rfl h

theorem tokens_append (offset : Nat) (xs ys : List Lexeme) :
    tokens offset (xs ++ ys) = tokens offset xs ++ tokens (offset + byteLength (joined xs)) ys := by
  induction xs generalizing offset with
  | nil => simp [tokens]
  | cons x xs ih => simp [tokens, ih, Nat.add_assoc]

theorem endOf_tokens (xs : List Lexeme) : Token.endOf (tokens 0 xs) = byteLength (joined xs) := by
  cases List.eq_nil_or_concat xs with
  | inl h =>
    subst h
    rfl
  | inr h =>
    obtain ⟨ys, x, rfl⟩ := h
    rw [List.concat_eq_append, tokens_append]
    simp [tokens, token, joined, byteLength_append]

/-- Lexemes that are not empty tile the text that they make up. -/
theorem tile_tokens {xs : List Lexeme} (h : ∀ x ∈ xs, x.text ≠ []) :
    Token.Tile (joined xs) (tokens 0 xs) where
  nonempty := by
    intro t ht
    obtain ⟨before, x, after, rfl, rfl⟩ := mem_tokens_iff.1 ht
    have hpos := List.length_pos_iff.2 (h x (by simp))
    have hle := length_le_byteLength x.text
    rw [token]
    dsimp only
    omega
  boundary := by
    intro t ht
    obtain ⟨before, x, after, rfl, rfl⟩ := mem_tokens_iff.1 ht
    refine ⟨⟨joined before, joined (x :: after), (joined_append _ _).symm, ?_⟩,
      ⟨joined (before ++ [x]), joined after, ?_, ?_⟩⟩
    · simp [token]
    · rw [← joined_append, List.append_assoc, List.singleton_append]
    · simp [token, joined_append]
  adjacent := isChain_tokens 0 xs
  first := by
    cases xs with
    | nil => simp [tokens]
    | cons x xs => simp [tokens, token]
  last := endOf_tokens xs

end Lexeme

/-! ### What waits -/

namespace Lexer

theorem length_wordRun_next (n : Nat) (cs : List Char) : (wordRun n cs).next.length ≤ 1 := by
  induction n generalizing cs with
  | zero => exact Nat.zero_le 1
  | succ n ih =>
    rw [wordRun]
    split
    · exact Nat.zero_le 1
    · split
      · exact ih _
      · exact Nat.le_refl 1

/-- After a lexeme that is not an `=`, a free text comes next only if it came next before. -/
theorem UnitsProgress.after_ne_awaitingText {units : UnitsProgress} {k : TokenKind}
    (hunits : units ≠ .awaitingText) (hk : k ≠ .eq) : units.after k ≠ .awaitingText := by
  unfold UnitsProgress.after
  split
  · nofun
  · exact absurd rfl hk
  · nofun
  · exact hunits

namespace Scan

/-- At most one lexeme waits, and none where a free text comes next. -/
structure Ready (s : Scan) : Prop where
  length_pending : s.pending.length ≤ 1
  pending_eq_nil : s.units = .awaitingText → s.pending = []

theorem Ready.of_pending_eq_nil {s : Scan} (h : s.pending = []) : s.Ready :=
  ⟨by rw [h]; exact Nat.zero_le 1, fun _ => h⟩

section

variable {s : Scan} {x : Lexeme} {pending : List Lexeme}

/-- No lexeme waits behind the one that waits. -/
theorem Ready.eq_nil_of_pending (hs : s.Ready) (h : s.pending = x :: pending) : pending = [] := by
  have hlength := hs.length_pending
  rw [h, List.length_cons] at hlength
  exact List.length_eq_zero_iff.1 (by omega)

theorem Ready.ne_awaitingText (hs : s.Ready) (h : s.pending = x :: pending) :
    s.units ≠ .awaitingText := by
  intro hunits
  rw [hs.pending_eq_nil hunits] at h
  cases h

end

/-- Only a number leaves a lexeme waiting, and a number does not announce a free text. -/
theorem ready_nextCode {cs : List Char} {units : UnitsProgress} {x : Lexeme} {t : Scan}
    (hunits : units ≠ .awaitingText) (h : nextCode cs units = some (x, t)) : t.Ready := by
  unfold nextCode at h
  split at h
  · cases h
  · next y rest hmunch =>
    split at h
    · next hnumber =>
      cases h
      refine ⟨length_wordRun_next _ _, fun hafter => absurd hafter ?_⟩
      refine UnitsProgress.after_ne_awaitingText hunits ?_
      split
      · rw [hnumber]
        exact TokenKind.noConfusion
      · exact TokenKind.noConfusion
    · cases h
      exact .of_pending_eq_nil rfl

/-- A step of a scan leaves at most one lexeme waiting, and none before a free text. -/
theorem Ready.next {s t : Scan} (hs : s.Ready) {x : Lexeme} (h : s.next = some (x, t)) :
    t.Ready := by
  unfold Scan.next at h
  split at h
  · next y pending hpending =>
    cases h
    exact .of_pending_eq_nil (hs.eq_nil_of_pending hpending)
  · split at h
    · split at h
      · cases h
        exact .of_pending_eq_nil rfl
      · cases h
        exact ⟨Nat.le_refl 1, by nofun⟩
      · exact ready_nextCode (by nofun) h
    · next hunits => exact ready_nextCode hunits h

theorem text_ne_nil_of_mem_take {n : Nat} {s : Scan} (hs : s.Proper) {x : Lexeme}
    (hx : x ∈ s.take n) : x.text ≠ [] := by
  induction n generalizing s with
  | zero => cases hx
  | succ n ih =>
    rw [take] at hx
    split at hx
    · cases hx
    · next y t hnext =>
      obtain ⟨-, hne, ht⟩ := next_spec hs hnext
      rcases List.mem_cons.1 hx with rfl | hx
      · exact hne
      · exact ih ht hx

end Scan

/-! ### Reading from the start -/

/-- The readers of a text, each with the tokens that have been read since the start. -/
inductive Reads (source : List Char) : List Token → Lexer → Prop where
  | start : Reads source [] (ofText source)
  | next {ts : List Token} {r r' : Lexer} {t : Token} :
      Reads source ts r → r.next = some (t, r') → Reads source (ts ++ [t]) r'

/-- A reader between two tokens of its text: what it has read and what it has yet to read are the
tokens of the text, and its scan has the text after those read. -/
structure Between (source : List Char) (ts : List Token) (r : Lexer) : Prop where
  proper : r.scan.Proper
  ready : r.scan.Ready
  tokens_eq : lex source = ts ++ Lexeme.tokens r.offset r.scan.remaining
  offset_eq : r.offset = Token.endOf ts
  text_eq : dropBytes source r.offset = some r.scan.text

theorem between_ofText (source : List Char) : Between source [] (ofText source) where
  proper := Scan.proper_nil
  ready := .of_pending_eq_nil rfl
  tokens_eq := rfl
  offset_eq := rfl
  text_eq := by simp [ofText, Scan.text]

theorem Between.next {source : List Char} {ts : List Token} {r r' : Lexer} {t : Token}
    (hr : Between source ts r) (h : r.next = some (t, r')) : Between source (ts ++ [t]) r' := by
  obtain ⟨⟨x, scan⟩, hnext, heq⟩ := Option.map_eq_some_iff.1 h
  cases heq
  obtain ⟨htext, -, hproper⟩ := Scan.next_spec hr.proper hnext
  refine ⟨hproper, hr.ready.next hnext, ?_, by simp, ?_⟩
  · rw [hr.tokens_eq, Scan.remaining_of_next hr.proper hnext, List.append_assoc]
    rfl
  · obtain ⟨pre, hpre, hlength⟩ := append_of_dropBytes hr.text_eq
    rw [← htext, ← List.append_assoc] at hpre
    rw [← hpre, ← hlength]
    simpa [Lexeme.token] using dropBytes_append (pre ++ x.text) scan.text

theorem Reads.between {source : List Char} {ts : List Token} {r : Lexer} (h : Reads source ts r) :
    Between source ts r := by
  induction h with
  | start => exact between_ofText source
  | next _ hnext ih => exact ih.next hnext

end Lexer

/-- No lexeme of a text is empty. -/
theorem text_ne_nil_of_mem_lexemes {source : List Char} {x : Lexeme} (hx : x ∈ lexemes source) :
    x.text ≠ [] :=
  Lexer.Scan.text_ne_nil_of_mem_take Lexer.Scan.proper_nil hx

/-- The tokens of a text tile it.  A reader of the text reads them in their order and has at most
one lexeme waiting; where it looks for a free text, none waits, and it looks at the text that
follows the tokens read so far. -/
theorem lex_tiles (source : List Char) :
    Token.Tile source (lex source) ∧
      ∀ ts r, Lexer.Reads source ts r →
        ts <+: lex source ∧ (r.next = none → ts = lex source) ∧
        r.offset = Token.endOf ts ∧ r.scan.pending.length ≤ 1 ∧
        (r.scan.units = .awaitingText →
          r.scan.pending = [] ∧ dropBytes source r.offset = some r.scan.rest) := by
  constructor
  · have h := Lexeme.tile_tokens fun x (hx : x ∈ lexemes source) => text_ne_nil_of_mem_lexemes hx
    rwa [joined_lexemes] at h
  · intro ts r hreads
    have h := hreads.between
    refine ⟨⟨_, h.tokens_eq.symm⟩, fun hnone => ?_, h.offset_eq, h.ready.length_pending,
      fun hunits => ?_⟩
    · have hscan : r.scan.next = none := Option.map_eq_none_iff.1 hnone
      rw [h.tokens_eq, Lexer.Scan.remaining_of_next_none hscan]
      simp [Lexeme.tokens]
    · have hpending := h.ready.pending_eq_nil hunits
      refine ⟨hpending, ?_⟩
      rw [h.text_eq, Lexer.Scan.text, hpending]
      rfl

/-- In `Units a=C` the text of the unit is looked for at offset 8, after four tokens. -/
theorem lex_tiles_units :
    ∃ ts r, Lexer.Reads "Units a=C".toList ts r ∧ ts <+: lex "Units a=C".toList ∧
      r.scan.units = .awaitingText ∧ r.scan.pending = [] ∧ r.offset = 8 ∧
      dropBytes "Units a=C".toList r.offset = some r.scan.rest := by
  let source := "Units a=C".toList
  have hunits : (Lexer.ofText source).next =
      some (⟨.kwUnits, 0, 5⟩, ⟨source, 5, ⟨" a=C".toList, [], .awaitingEq⟩⟩) := by
    decide +kernel
  have hblank : Lexer.next ⟨source, 5, ⟨" a=C".toList, [], .awaitingEq⟩⟩ =
      some (⟨.whitespace, 5, 6⟩, ⟨source, 6, ⟨"a=C".toList, [], .awaitingEq⟩⟩) := by
    decide +kernel
  have hname : Lexer.next ⟨source, 6, ⟨"a=C".toList, [], .awaitingEq⟩⟩ =
      some (⟨.ident, 6, 7⟩, ⟨source, 7, ⟨"=C".toList, [], .awaitingEq⟩⟩) := by
    decide +kernel
  have hsign : Lexer.next ⟨source, 7, ⟨"=C".toList, [], .awaitingEq⟩⟩ =
      some (⟨.eq, 7, 8⟩, ⟨source, 8, ⟨['C'], [], .awaitingText⟩⟩) := by
    decide +kernel
  have hreads := (((Lexer.Reads.start.next hunits).next hblank).next hname).next hsign
  obtain ⟨hstart, -, -, -, htext⟩ := (lex_tiles "Units a=C".toList).2 _ _ hreads
  exact ⟨_, _, hreads, hstart, rfl, (htext rfl).1, rfl, (htext rfl).2⟩

end CRBasic
