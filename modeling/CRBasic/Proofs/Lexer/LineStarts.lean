import CRBasic.Proofs.Lexer.LineEnds
import CRBasic.Proofs.Lexer.Reader

/-!
# Where lines start

A scan that has passed a carriage return is as good as new, if no line feed follows (`lexemes_return`),
as one is that has passed a line feed.  So the lexemes from the start of a line on are those of a text of
their own, and do not depend on what is written there in their place (`lexemes_lineStart`).
-/

namespace CRBasic

namespace Lexer

open Lexeme Pattern

variable {u v : List Char} {x : Lexeme} {rest : List Char}

/-! ### Single lexemes -/

theorem munch_return (v : List Char) (h : munch u = some (x, rest)) :
    munch (u ++ '\r' :: v) = some (x, rest ++ '\r' :: v) := by
  refine munch_append (longestMatch_return ?_) h
  rintro rfl
  cases h

/-- A carriage return that no line feed follows is a lexeme of its own. -/
theorem munch_return_nil (hv : v.head? ≠ some '\n') :
    munch ('\r' :: v) = some (carriageReturn, v) := by
  have hreturn : longestMatch ['\r'] = some (.newline, 1) := by decide +kernel
  refine munch_eq (n := 1) ?_
  rw [← hreturn]
  refine longestMatch_append (u := ['\r']) fun r hr w hw hne hmatch => ?_
  rcases avoidsReturn_or_lineBreak_rules r hr with havoids | hbreak
  · exact not_mem_of_avoids havoids hmatch List.mem_cons_self
  · rw [hbreak] at hmatch
    rcases matches_lineBreak hmatch with h | h | h
    · obtain ⟨v', rfl⟩ := hw
      obtain rfl := (List.cons.inj h).2
      exact hv rfl
    · cases h
    · exact hne (List.cons.inj h).2

/-- The lexeme that waits and the text after it, without and with a carriage return and `v` behind. -/
inductive Returned (v : List Char) : List Lexeme → List Char → List Lexeme → List Char → Prop where
  | within {p : List Lexeme} {rest : List Char} : Returned v p rest p (rest ++ '\r' :: v)
  | found : Returned v [] [] [carriageReturn] v

/-- The words that a number runs into are the same before a carriage return. -/
theorem wordRun_return (hv : v.head? ≠ some '\n') {n m : Nat} (hn : u.length ≤ n)
    (hm : u.length < m) :
    (wordRun m (u ++ '\r' :: v)).text = (wordRun n u).text ∧
      Returned v (wordRun n u).next (wordRun n u).rest (wordRun m (u ++ '\r' :: v)).next
        (wordRun m (u ++ '\r' :: v)).rest := by
  have hnil (m : Nat) : wordRun (m + 1) ('\r' :: v) = ⟨[], [carriageReturn], v⟩ := by
    rw [wordRun, munch_return_nil hv]
    rfl
  induction n generalizing u m with
  | zero =>
    obtain rfl := List.eq_nil_of_length_eq_zero (Nat.le_zero.1 hn)
    obtain ⟨m, rfl⟩ := Nat.exists_eq_add_one.2 hm
    rw [List.nil_append, hnil]
    exact ⟨rfl, .found⟩
  | succ n ih =>
    obtain ⟨m, rfl⟩ := Nat.exists_eq_add_one.2 (Nat.zero_lt_of_lt hm)
    cases hmunch : munch u with
    | none =>
      obtain rfl := munch_eq_none hmunch
      rw [List.nil_append, hnil, wordRun, hmunch]
      exact ⟨rfl, .found⟩
    | some r =>
      obtain ⟨x, rest⟩ := r
      obtain ⟨htext, hne⟩ := munch_spec hmunch
      rw [wordRun, munch_return v hmunch, wordRun, hmunch]
      dsimp only
      split
      · have hlength := congrArg List.length htext
        have hpos := List.length_pos_iff.2 hne
        rw [List.length_append] at hlength
        obtain ⟨htext, hrun⟩ := ih (u := rest) (m := m) (by omega) (by omega)
        exact ⟨by rw [htext], hrun⟩
      · exact ⟨rfl, .within⟩

/-! ### Scans -/

namespace Scan

variable {units : UnitsProgress} {s t : Scan}

/-- A scan without, and the same scan with a carriage return and `v` behind its text. -/
inductive BeforeReturn (v : List Char) : Scan → Scan → Prop where
  | within {u : List Char} {p : List Lexeme} {units : UnitsProgress} :
      BeforeReturn v ⟨u, p, units⟩ ⟨u ++ '\r' :: v, p, units⟩
  | found {units : UnitsProgress} (hunits : units ≠ .awaitingText) :
      BeforeReturn v ⟨[], [], units⟩ ⟨v, [carriageReturn], units⟩

theorem beforeReturn_of_returned {p p' : List Lexeme} {rest' : List Char}
    (hunits : units ≠ .awaitingText) (h : Returned v p rest p' rest') :
    BeforeReturn v ⟨rest, p, units⟩ ⟨rest', p', units⟩ := by
  cases h with
  | within => exact .within
  | found => exact .found hunits

theorem nextCode_return (hv : v.head? ≠ some '\n') (hunits : units ≠ .awaitingText)
    (h : nextCode u units = some (x, t)) :
    ∃ t', nextCode (u ++ '\r' :: v) units = some (x, t') ∧ BeforeReturn v t t' := by
  unfold nextCode at h
  split at h
  · cases h
  · next y rest hmunch =>
    unfold nextCode
    rw [munch_return v hmunch]
    dsimp only
    split at h
    · next hnumber =>
      rw [if_pos hnumber]
      obtain ⟨htext, hrun⟩ := wordRun_return hv (Nat.le_refl rest.length)
        (m := (rest ++ '\r' :: v).length) (by simp)
      rw [htext]
      have hafter := after_number units (wordRun rest.length rest) hnumber
      cases h
      exact ⟨_, rfl, beforeReturn_of_returned (by rwa [hafter]) hrun⟩
    · next hnumber =>
      cases h
      refine ⟨⟨rest ++ '\r' :: v, [], units.after x.kind⟩, ?_, .within⟩
      rw [if_neg hnumber, yieldCode]

theorem next_return (hv : v.head? ≠ some '\n') (h : s.next = some (x, t)) :
    ∃ t', (Scan.mk (s.rest ++ '\r' :: v) s.pending s.units).next = some (x, t') ∧
      BeforeReturn v t t' := by
  obtain ⟨u, p, units⟩ := s
  unfold next at h ⊢
  dsimp only at h ⊢
  cases p with
  | cons y p =>
    cases h
    exact ⟨_, rfl, .within⟩
  | nil =>
    dsimp only at h ⊢
    cases units with
    | awaitingText =>
      dsimp only at h ⊢
      rw [unitsText?_break (.inl rfl)]
      cases hunits : unitsText? u with
      | none =>
        rw [hunits] at h
        exact nextCode_return hv UnitsProgress.noConfusion h
      | some r =>
        obtain ⟨blank, text, rest⟩ := r
        rw [hunits] at h
        cases blank <;> cases h <;> exact ⟨_, rfl, .within⟩
    | outside => exact nextCode_return hv UnitsProgress.noConfusion h
    | awaitingEq => exact nextCode_return hv UnitsProgress.noConfusion h

/-- A scan before a carriage return yields the same lexemes, and goes on as a new one. -/
theorem remaining_beforeReturn (hv : v.head? ≠ some '\n') {s s' : Scan} (hs : s.Proper)
    (h : BeforeReturn v s s') : s'.remaining = s.remaining ++ carriageReturn :: lexemes v := by
  induction hn : s.size using Nat.strongRecOn generalizing s s' with
  | _ n ih =>
    cases h with
    | found hunits => exact remaining_break rfl (List.cons_ne_nil _ _) hunits
    | @within u p units =>
      have hs' : (Scan.mk (u ++ '\r' :: v) p units).Proper := hs
      cases hnext : (Scan.mk u p units).next with
      | none =>
        obtain ⟨rfl, rfl⟩ : p = [] ∧ u = [] := ended_of_next_none hs hnext
        rw [remaining_of_next_none hnext,
          remaining_of_next hs' (next_break (.inl rfl) rfl (munch_return_nil hv))]
        rfl
      | some r =>
        obtain ⟨x, t⟩ := r
        obtain ⟨htext, hne, ht⟩ := next_spec hs hnext
        obtain ⟨t', ht', hbefore⟩ := next_return hv hnext
        have hlength := congrArg List.length htext
        have hpos := List.length_pos_iff.2 hne
        rw [List.length_append, length_text, length_text, hn] at hlength
        rw [remaining_of_next hs hnext, remaining_of_next hs' ht', ih t.size (by omega) ht hbefore rfl,
          List.cons_append]

end Scan

end Lexer

open Lexer in
/-- A text, a carriage return and another text, that does not start with a line feed, are read one after
the other. -/
theorem lexemes_return (u : List Char) {v : List Char} (hv : v.head? ≠ some '\n') :
    lexemes (u ++ '\r' :: v) = lexemes u ++ Lexeme.carriageReturn :: lexemes v :=
  Scan.remaining_beforeReturn hv Scan.proper_nil .within

/-- A text that ends with a line break and another text, that does not start with a line feed, are read
one after the other. -/
theorem lexemes_pastBreak (u : List Char) {v : List Char} {c : Char} (hc : c = '\r' ∨ c = '\n')
    (hv : v.head? ≠ some '\n') : lexemes (u ++ c :: v) = lexemes (u ++ [c]) ++ lexemes v := by
  have hnil : lexemes [] = [] := rfl
  rcases hc with rfl | rfl
  · rw [lexemes_return u hv, lexemes_return u (v := []) (Option.some_ne_none _).symm, hnil,
      List.append_assoc]
    rfl
  · rw [lexemes_lineFeed, lexemes_lineFeed u [], hnil, List.append_nil]

open Lexer Pattern in
/-- A line break ends with one of the two characters. -/
theorem exists_break_of_newline {source : List Char} {x : Lexeme} (hx : x ∈ lexemes source)
    (hkind : x.kind = .newline) : ∃ u c, x.text = u ++ [c] ∧ (c = '\r' ∨ c = '\n') := by
  have hrules : ∀ r ∈ rules, r.kind = .newline → r.pattern = lineBreak := by
    decide +kernel
  obtain ⟨r, hr, hrkind, hmatch⟩ :=
    ruled_of_mem_lexemes hx (by simp [hkind]) (by simp [hkind]) (by simp [hkind])
  rw [hrules r hr (hrkind.trans hkind)] at hmatch
  rcases matches_lineBreak hmatch with htext | htext | htext
  · exact ⟨['\r'], '\n', htext, .inr rfl⟩
  · exact ⟨[], '\n', htext, .inr rfl⟩
  · exact ⟨[], '\r', htext, .inl rfl⟩

namespace Lexeme

/-- Lexemes are cut where their text is. -/
theorem append_inj_of_joined {us vs us' vs' : List Lexeme} (h : us ++ vs = us' ++ vs')
    (hjoined : joined us = joined us') (hne : ∀ x ∈ us ++ vs, x.text ≠ []) : us = us' := by
  have hnil {ws : List Lexeme} (hws : ∀ x ∈ ws, x.text ≠ []) (hjoined : joined ws = []) : ws = [] := by
    cases ws with
    | nil => rfl
    | cons w ws => exact absurd (List.append_eq_nil_iff.1 hjoined).1 (hws w List.mem_cons_self)
  rcases List.append_eq_append_iff.1 h with ⟨ws, rfl, rfl⟩ | ⟨ws, rfl, rfl⟩
  · rw [joined_append, List.self_eq_append_right] at hjoined
    rw [hnil (fun x hx => hne x (by simp [hx])) hjoined, List.append_nil]
  · rw [joined_append, List.append_right_eq_self] at hjoined
    rw [hnil (fun x hx => hne x (by simp [hx])) hjoined, List.append_nil]

end Lexeme

open Lexeme in
/-- The lexemes from the start of a line on are those of their own text, and what stands before them is
read alike if another text stands in their place. -/
theorem lexemes_lineStart {source : List Char} {us zs : List Lexeme} {z : Lexeme}
    (h : lexemes source = us ++ z :: zs) (hus : ∀ x ∈ us.getLast?, x.kind = .newline)
    (hz : z.kind ≠ .newline) : lexemes (joined (z :: zs)) = z :: zs ∧
      ∀ v, v.head? ≠ some '\n' → lexemes (joined us ++ v) = us ++ lexemes v := by
  have hsource : joined us ++ joined (z :: zs) = source := by
    rw [← joined_append, ← h, joined_lexemes]
  rcases List.eq_nil_or_concat us with rfl | ⟨us', n, rfl⟩
  · rw [joined_nil, List.nil_append] at hsource
    rw [hsource]
    exact ⟨h, fun v _ => rfl⟩
  · rw [List.concat_eq_append] at *
    have hn : n ∈ lexemes source := by simp [h]
    obtain ⟨t, c, htext, hc⟩ := exists_break_of_newline hn (hus n (by simp))
    have hjoined : joined (us' ++ [n]) = (joined us' ++ t) ++ [c] := by
      simp [joined_append, htext]
    have happend {v : List Char} (hv : v.head? ≠ some '\n') :
        lexemes (joined (us' ++ [n]) ++ v) = lexemes (joined (us' ++ [n])) ++ lexemes v := by
      rw [hjoined, ← List.append_cons, lexemes_pastBreak _ hc hv]
    have hfirst : (joined (z :: zs)).head? ≠ some '\n' := by
      have hmem : z ∈ lexemes source := by simp [h]
      obtain ⟨d, ds, hd⟩ := List.exists_cons_of_ne_nil (text_ne_nil_of_mem_lexemes hmem)
      have hline := (unbroken_of_mem_lexemes hmem hz).2
      rw [joined_cons, hd]
      rintro ⟨⟩
      exact hline (hd ▸ List.mem_cons_self)
    have hsplit := happend hfirst
    rw [hsource, h] at hsplit
    have hfront : us' ++ [n] = lexemes (joined (us' ++ [n])) :=
      append_inj_of_joined hsplit (joined_lexemes _).symm
        fun x hx => text_ne_nil_of_mem_lexemes (h ▸ hx)
    rw [← hfront] at hsplit
    refine ⟨(List.append_cancel_left hsplit).symm, fun v hv => ?_⟩
    rw [happend hv, ← hfront]

end CRBasic
