import CRBasic.Proofs.Lexer.Spaced

/-!
# Lexemes line by line

No lexeme goes past a line feed, and a scan that has passed one is as good as new
(`lexemes_lineFeed`): the lexemes of a text that ends in a line feed, followed by another text, are
those of the two (`lexemes_append`).  Only a carriage return before the line feed becomes one lexeme
with it.
-/

namespace CRBasic

namespace Lexeme

/-- A line feed. -/
def lineFeed : Lexeme := ⟨.newline, ['\n']⟩

/-- A carriage return. -/
def carriageReturn : Lexeme := ⟨.newline, ['\r']⟩

/-- A carriage return with a line feed. -/
def bothBreaks : Lexeme := ⟨.newline, ['\r', '\n']⟩

/-- Lexemes after which a line feed follows. -/
def endLine : List Lexeme → List Lexeme
  | [] => [lineFeed]
  | x :: xs => if x = carriageReturn ∧ xs = [] then [bothBreaks] else x :: endLine xs

theorem endLine_cons {x : Lexeme} {xs : List Lexeme} (h : x ≠ carriageReturn ∨ xs ≠ []) :
    endLine (x :: xs) = x :: endLine xs := by
  rw [endLine, if_neg]
  rintro ⟨hx, hxs⟩
  exact h.elim (· hx) (· hxs)

end Lexeme

namespace Lexer

open Lexeme Pattern

variable {u v w cs : List Char} {c : Char} {x : Lexeme} {p p' : List Lexeme} {rest rest' : List Char}

/-! ### Rules at a line feed -/

theorem avoids_or_lineBreak_rules : ∀ r ∈ rules,
    r.pattern.avoids '\n' ∨ r.pattern = lineBreak := by
  decide +kernel

theorem matches_lineBreak (h : Matches lineBreak u) : u = ['\r', '\n'] ∨ u = ['\n'] ∨ u = ['\r'] := by
  rcases matches_either.1 h with h | h
  · obtain ⟨v, w, rfl, hv, hw⟩ := matches_seq.1 h
    rw [matches_char hv, matches_char hw]
    exact .inl rfl
  · exact .inr ((matches_either.1 h).imp matches_char matches_char)

/-- A lexeme has a line feed only at its end, alone or after a carriage return. -/
theorem of_matches_lineFeed {r : Rule} (hr : r ∈ rules) (h : Matches r.pattern (u ++ '\n' :: w)) :
    w = [] ∧ (u = [] ∨ u = ['\r']) := by
  rcases avoids_or_lineBreak_rules r hr with havoids | hbreak
  · exact absurd (by simp) (not_mem_of_avoids havoids h)
  · rw [hbreak] at h
    rcases matches_lineBreak h with h | h | h
    · rcases u with _ | ⟨a, _ | ⟨b, u⟩⟩ <;> simp_all
    · rcases u with _ | ⟨a, u⟩ <;> simp_all
    · rcases u with _ | ⟨a, u⟩ <;> simp_all

/-- What follows a line feed changes nothing before it. -/
theorem longestMatch_lineFeed (h : u ≠ [] ∧ u ≠ ['\r']) :
    longestMatch (u ++ '\n' :: v) = longestMatch u := by
  refine longestMatch_append fun r hr w hw hne hmatch => ?_
  rcases List.prefix_cons_iff.1 hw with rfl | ⟨w, rfl, -⟩
  · exact hne rfl
  · exact (of_matches_lineFeed hr hmatch).2.elim h.1 h.2

theorem longestMatch_pastLineFeed : longestMatch (u ++ '\n' :: v) = longestMatch (u ++ ['\n']) := by
  rw [List.append_cons u '\n' v]
  refine longestMatch_append fun r hr w _ hne hmatch => ?_
  rw [← List.append_cons] at hmatch
  exact hne (of_matches_lineFeed hr hmatch).1

/-! ### A text and the same text with a line feed after it -/

/-- Lexemes that wait and the text after them, without and with a line feed and `v` behind. -/
inductive Broken (v : List Char) : List Lexeme → List Char → List Lexeme → List Char → Prop where
  | within {p : List Lexeme} {rest : List Char} (h : rest ≠ [] ∨ carriageReturn ∉ p) :
      Broken v p rest p (rest ++ '\n' :: v)
  | lineFeed : Broken v [] [] [lineFeed] v
  | both : Broken v [carriageReturn] [] [bothBreaks] v

theorem longestMatch_nil_lineFeed (v : List Char) :
    longestMatch ('\n' :: v) = some (.newline, 1) := by
  have h : longestMatch ([] ++ ['\n']) = some (.newline, 1) := by decide +kernel
  rw [← h]
  exact longestMatch_pastLineFeed (u := [])

theorem longestMatch_both (v : List Char) :
    longestMatch ('\r' :: '\n' :: v) = some (.newline, 2) := by
  have h : longestMatch (['\r'] ++ ['\n']) = some (.newline, 2) := by decide +kernel
  rw [← h]
  exact longestMatch_pastLineFeed (u := ['\r'])

theorem munch_nil_lineFeed (v : List Char) : munch ('\n' :: v) = some (lineFeed, v) :=
  munch_eq (longestMatch_nil_lineFeed v)

theorem munch_both (v : List Char) : munch ('\r' :: '\n' :: v) = some (bothBreaks, v) :=
  munch_eq (longestMatch_both v)

theorem munch_carriageReturn : munch ['\r'] = some (carriageReturn, []) := by
  have h : longestMatch ['\r'] = some (.newline, 1) := by decide +kernel
  exact munch_eq h

theorem munch_of_longestMatch_none (h : longestMatch (c :: cs) = none) :
    munch (c :: cs) = some (⟨.error, [c]⟩, cs) := by
  unfold munch
  dsimp only
  split
  · next heq =>
    rw [h] at heq
    cases heq
  · rfl

/-- A lexeme that is a carriage return is followed by no line feed. -/
theorem broken_munch (v : List Char) (h : munch u = some (x, rest)) (hu : u ≠ ['\r']) :
    Broken v [x] rest [x] (rest ++ '\n' :: v) := by
  refine .within (Classical.or_iff_not_imp_left.2 fun hrest hx => hu ?_)
  obtain ⟨htext, -⟩ := munch_spec h
  rw [← htext, Classical.not_not.1 hrest, ← List.mem_singleton.1 hx]
  rfl

/-- A text after which the same is read has the same first lexeme. -/
theorem munch_append (hlongest : longestMatch (u ++ v) = longestMatch u)
    (h : munch u = some (x, rest)) : munch (u ++ v) = some (x, rest ++ v) := by
  cases u with
  | nil => cases h
  | cons c cs =>
    cases hmatch : longestMatch (c :: cs) with
    | some r =>
      obtain ⟨k, n⟩ := r
      obtain ⟨-, hle⟩ := longestMatch_bounds hmatch
      rw [hmatch] at hlongest
      rw [munch_eq hmatch] at h
      rw [munch_eq hlongest, List.take_append_of_le_length hle, List.drop_append_of_le_length hle]
      cases h
      rfl
    | none =>
      rw [hmatch] at hlongest
      rw [munch_of_longestMatch_none hmatch] at h
      rw [List.cons_append] at hlongest ⊢
      rw [munch_of_longestMatch_none hlongest]
      cases h
      rfl

/-- The first lexeme of a text is the same before a line feed, but for a carriage return. -/
theorem munch_lineFeed (v : List Char) (h : munch u = some (x, rest)) :
    ∃ y rest', munch (u ++ '\n' :: v) = some (y, rest') ∧ Broken v [x] rest [y] rest' := by
  by_cases hcr : u = ['\r']
  · rw [hcr, munch_carriageReturn] at h
    cases h
    rw [hcr]
    exact ⟨bothBreaks, v, munch_both v, .both⟩
  · have hne : u ≠ [] := by
      rintro rfl
      cases h
    exact ⟨x, rest ++ '\n' :: v, munch_append (longestMatch_lineFeed ⟨hne, hcr⟩) h,
      broken_munch v h hcr⟩

/-! ### Words after a number -/

theorem isWord_eq_false_of_broken {y : Lexeme} (h : Broken v [x] rest [y] rest') :
    y.kind.isWord = x.kind.isWord := by
  cases h <;> rfl

theorem wordRun_nil_lineFeed (v : List Char) (m : Nat) :
    wordRun (m + 1) ('\n' :: v) = ⟨[], [lineFeed], v⟩ := by
  rw [wordRun, munch_nil_lineFeed]
  rfl

/-- The words that a number runs into are the same before a line feed. -/
theorem wordRun_lineFeed (v : List Char) {n m : Nat} (hn : u.length ≤ n) (hm : u.length < m) :
    (wordRun m (u ++ '\n' :: v)).text = (wordRun n u).text ∧
      Broken v (wordRun n u).next (wordRun n u).rest (wordRun m (u ++ '\n' :: v)).next
        (wordRun m (u ++ '\n' :: v)).rest := by
  induction n generalizing u m with
  | zero =>
    obtain rfl := List.eq_nil_of_length_eq_zero (Nat.le_zero.1 hn)
    obtain ⟨m, rfl⟩ := Nat.exists_eq_add_one.2 hm
    rw [List.nil_append, wordRun_nil_lineFeed]
    exact ⟨rfl, .lineFeed⟩
  | succ n ih =>
    obtain ⟨m, rfl⟩ := Nat.exists_eq_add_one.2 (Nat.zero_lt_of_lt hm)
    cases hmunch : munch u with
    | none =>
      obtain rfl := munch_eq_none hmunch
      rw [List.nil_append, wordRun_nil_lineFeed, wordRun, hmunch]
      exact ⟨rfl, .lineFeed⟩
    | some r =>
      obtain ⟨x, rest⟩ := r
      obtain ⟨y, rest', hy, hbroken⟩ := munch_lineFeed v hmunch
      obtain ⟨htext, hne⟩ := munch_spec hmunch
      rw [wordRun, hy, wordRun, hmunch]
      dsimp only
      rw [isWord_eq_false_of_broken hbroken]
      split
      · next hword =>
        cases hbroken with
        | within _ =>
          have hlength := congrArg List.length htext
          have hpos := List.length_pos_iff.2 hne
          rw [List.length_append] at hlength
          obtain ⟨htext, hrun⟩ := ih (u := rest) (m := m) (by omega) (by omega)
          exact ⟨by rw [htext], hrun⟩
        | both => cases hword
      · exact ⟨rfl, hbroken⟩

/-! ### Free text -/

theorem takeWhile_break {f : Char → Bool} (hf : f c = false) (u : List Char) :
    (u ++ c :: v).takeWhile f = u.takeWhile f := by
  induction u with
  | nil => simp [hf]
  | cons d u ih =>
    rw [List.cons_append, List.takeWhile_cons, List.takeWhile_cons, ih]

/-- The free text of a declaration of units ends with its line. -/
theorem unitsText?_break (hc : c = '\r' ∨ c = '\n') (v : List Char) : unitsText? (u ++ c :: v) =
    (unitsText? u).map fun (blank, text, rest) => (blank, text, rest ++ c :: v) := by
  have hblank := takeWhile_break (c := c) (v := v) (f := fun c => c == ' ' || c == '\t')
    (by rcases hc with rfl | rfl <;> rfl) u
  have hblankle := (List.takeWhile_prefix (l := u) fun c => c == ' ' || c == '\t').length_le
  simp only [unitsText?, hblank, List.drop_append_of_le_length hblankle]
  generalize u.drop (u.takeWhile fun c => c == ' ' || c == '\t').length = rest
  have htext := takeWhile_break (c := c) (v := v)
    (f := fun c => !(c == '\r' || c == '\n' || c == '\x27'))
    (by rcases hc with rfl | rfl <;> rfl) rest
  have htextle := ((prefix_trimEnd _).trans (List.takeWhile_prefix (l := rest)
    fun c => !(c == '\r' || c == '\n' || c == '\x27'))).length_le
  rw [htext, List.drop_append_of_le_length htextle]
  split <;> rfl

/-! ### Scans -/

namespace Scan

theorem proper_nil {units : UnitsProgress} : (Scan.mk u [] units).Proper := by
  simp [Proper]

/-- More steps than there are characters yield no more lexemes. -/
theorem take_eq_of_le {s : Scan} (hs : s.Proper) {m n : Nat} (hm : s.text.length ≤ m)
    (hn : s.text.length ≤ n) : s.take m = s.take n := by
  induction m generalizing s n with
  | zero =>
    have htext := List.eq_nil_of_length_eq_zero (Nat.le_zero.1 hm)
    cases n with
    | zero => rfl
    | succ n =>
      rw [take, take]
      split
      · rfl
      · next x t h =>
        obtain ⟨hspec, hne, -⟩ := next_spec hs h
        rw [htext] at hspec
        exact absurd (List.append_eq_nil_iff.1 hspec).1 hne
  | succ m ih =>
    rw [take]
    split
    · next h =>
      cases n with
      | zero => rfl
      | succ n => rw [take, h]
    · next x t h =>
      obtain ⟨htext, hne, ht⟩ := next_spec hs h
      have hlength := congrArg List.length htext
      have hpos := List.length_pos_iff.2 hne
      rw [List.length_append] at hlength
      obtain ⟨n, rfl⟩ : ∃ k, n = k + 1 := ⟨n - 1, by omega⟩
      rw [take, h]
      dsimp only
      rw [ih ht (n := n) (by omega) (by omega)]

/-- What a scan has yet to yield is its next lexeme and what the scan after it has. -/
theorem remaining_of_next {s t : Scan} (hs : s.Proper) {x : Lexeme} (h : s.next = some (x, t)) :
    s.remaining = x :: t.remaining := by
  obtain ⟨htext, hne, ht⟩ := next_spec hs h
  have hlength := congrArg List.length htext
  have hpos := List.length_pos_iff.2 hne
  rw [List.length_append] at hlength
  obtain ⟨n, hn⟩ : ∃ n, s.size = n + 1 := ⟨s.size - 1, by rw [← length_text]; omega⟩
  rw [remaining, hn, take, h]
  dsimp only
  rw [remaining, take_eq_of_le ht (m := n) (n := t.size)]
  · rw [← length_text] at hn
    omega
  · exact Nat.le_of_eq (length_text _)

theorem remaining_of_next_none {s : Scan} (h : s.next = none) : s.remaining = [] := by
  rw [remaining, ← length_text, next_eq_none h]
  rfl

theorem remaining_eq_nil {s : Scan} (hs : s.Proper) : s.remaining = [] ↔ s.text = [] := by
  constructor
  · intro h
    rw [← joined_remaining hs, h]
    rfl
  · intro h
    rw [remaining, ← length_text, h]
    rfl

/-- A scan without, and the same scan with a line feed and `v` behind its text. -/
inductive Before (v : List Char) : Scan → Scan → Prop where
  | within {u : List Char} {p : List Lexeme} {units : UnitsProgress}
      (h : u ≠ [] ∨ carriageReturn ∉ p) : Before v ⟨u, p, units⟩ ⟨u ++ '\n' :: v, p, units⟩
  | lineFeed {units : UnitsProgress} (hunits : units ≠ .awaitingText) :
      Before v ⟨[], [], units⟩ ⟨v, [Lexeme.lineFeed], units⟩
  | both {units : UnitsProgress} (hunits : units ≠ .awaitingText) :
      Before v ⟨[], [carriageReturn], units⟩ ⟨v, [bothBreaks], units⟩

variable {units : UnitsProgress} {s t : Scan}

theorem before_of_broken (hunits : units ≠ .awaitingText) (h : Broken v p rest p' rest') :
    Before v ⟨rest, p, units⟩ ⟨rest', p', units⟩ := by
  cases h with
  | within h => exact .within h
  | lineFeed => exact .lineFeed hunits
  | both => exact .both hunits

/-- A number, or what is malformed about it, has nothing to do with a declaration of units. -/
theorem after_number (units : UnitsProgress) (run : WordRun) (hnumber : x.kind = .number) :
    units.after (if run.text.isEmpty then x else ⟨.error, x.text ++ run.text⟩ : Lexeme).kind =
      units := by
  split
  · rw [hnumber]
    cases units <;> rfl
  · cases units <;> rfl

theorem after_newline (hunits : units ≠ .awaitingText) : units.after .newline = .outside := by
  cases units <;> first | rfl | exact absurd rfl hunits

/-- A step of a scan and the step before a line feed. -/
def StepsBefore (v : List Char) (x : Lexeme) (t : Scan) (next' : Option (Lexeme × Scan)) : Prop :=
  (∃ t', next' = some (x, t') ∧ Before v t t' ∧ (x ≠ carriageReturn ∨ t.text ≠ [])) ∨
    (x = carriageReturn ∧ t.text = [] ∧ next' = some (bothBreaks, ⟨v, [], .outside⟩))

theorem nextCode_lineFeed (v : List Char) (hunits : units ≠ .awaitingText)
    (h : nextCode u units = some (x, t)) :
    StepsBefore v x t (nextCode (u ++ '\n' :: v) units) := by
  unfold nextCode at h
  split at h
  · cases h
  · next y rest hmunch =>
    obtain ⟨y', rest', hy', hbroken⟩ := munch_lineFeed v hmunch
    unfold nextCode
    rw [hy']
    dsimp only
    split at h
    · next hnumber =>
      cases hbroken with
      | both => cases hnumber
      | within _ =>
        rw [if_pos hnumber]
        obtain ⟨htext, hrun⟩ := wordRun_lineFeed v (Nat.le_refl rest.length)
          (m := (rest ++ '\n' :: v).length) (by simp)
        rw [htext]
        dsimp only at h
        have hafter := after_number units (wordRun rest.length rest) hnumber
        cases h
        refine .inl ⟨_, rfl, before_of_broken (by rwa [hafter]) hrun, .inl fun hx => ?_⟩
        have hkind := congrArg Lexeme.kind hx
        split at hkind
        · rw [hnumber] at hkind
          cases hkind
        · cases hkind
    · next hnumber =>
      cases h
      cases hbroken with
      | both =>
        refine .inr ⟨rfl, rfl, ?_⟩
        rw [if_neg (by decide), yieldCode]
        exact congrArg (fun u => some (bothBreaks, Scan.mk v [] u)) (after_newline hunits)
      | within hx =>
        refine .inl ⟨⟨rest ++ '\n' :: v, [], units.after x.kind⟩, ?_,
          .within (.inr List.not_mem_nil), ?_⟩
        · rw [if_neg hnumber, yieldCode]
        · exact hx.symm.imp (fun hx h => hx (by rw [h]; exact List.mem_cons_self)) id

theorem next_lineFeed (v : List Char) (hcr : s.rest ≠ [] ∨ carriageReturn ∉ s.pending)
    (h : s.next = some (x, t)) :
    StepsBefore v x t (Scan.mk (s.rest ++ '\n' :: v) s.pending s.units).next := by
  obtain ⟨u, p, units⟩ := s
  unfold next at h ⊢
  dsimp only at h ⊢ hcr
  cases p with
  | cons y p =>
    cases h
    refine .inl ⟨_, rfl, .within (hcr.imp_right fun hcr hmem => hcr (.tail _ hmem)), ?_⟩
    refine hcr.symm.imp (fun hcr hx => hcr (by rw [hx]; exact List.mem_cons_self)) fun hu htext => ?_
    exact hu (List.append_eq_nil_iff.1 htext).2
  | nil =>
    dsimp only at h ⊢
    cases units with
    | awaitingText =>
      dsimp only at h ⊢
      rw [unitsText?_break (.inr rfl)]
      cases hunits : unitsText? u with
      | none =>
        rw [hunits] at h
        exact nextCode_lineFeed v nofun h
      | some r =>
        obtain ⟨blank, text, rest⟩ := r
        rw [hunits] at h
        cases blank with
        | nil =>
          cases h
          exact .inl ⟨_, rfl, .within (.inr nofun), .inl nofun⟩
        | cons b blank =>
          cases h
          refine .inl ⟨_, rfl, .within (.inr ?_), .inl nofun⟩
          simp [carriageReturn]
    | outside => exact nextCode_lineFeed v nofun h
    | awaitingEq => exact nextCode_lineFeed v nofun h

/-- A line break is found wherever a declaration of units has been read to, and ends it. -/
theorem next_break {y : Lexeme} (hc : c = '\r' ∨ c = '\n') (hkind : y.kind = .newline)
    (h : munch (c :: cs) = some (y, v)) :
    (Scan.mk (c :: cs) [] units).next = some (y, ⟨v, [], .outside⟩) := by
  have hcode (units : UnitsProgress) (hunits : units ≠ .awaitingText) :
      nextCode (c :: cs) units = some (y, ⟨v, [], .outside⟩) := by
    have hnumber : y.kind ≠ .number := hkind ▸ TokenKind.noConfusion
    rw [nextCode, h]
    dsimp only
    rw [if_neg hnumber, yieldCode, hkind, after_newline hunits]
  have hnone : unitsText? ([] ++ c :: cs) = none := by
    rw [unitsText?_break hc]
    rfl
  unfold next
  cases units with
  | awaitingText =>
    rw [List.nil_append] at hnone
    dsimp only
    rw [hnone]
    exact hcode .outside (by simp)
  | outside => exact hcode .outside (by simp)
  | awaitingEq => exact hcode .awaitingEq (by simp)

/-- A scan that has yielded the line feed goes on as a new one. -/
theorem remaining_break {y : Lexeme} (hkind : y.kind = .newline) (htext : y.text ≠ [])
    (hunits : units ≠ .awaitingText) : (Scan.mk v [y] units).remaining = y :: lexemes v := by
  refine remaining_of_next (t := ⟨v, [], .outside⟩) (by simpa [Proper] using htext) ?_
  change some (y, Scan.mk v [] (units.after y.kind)) = _
  rw [hkind, after_newline hunits]

/-- A scan before a line feed yields the same lexemes, but for a carriage return, and goes on as a new
one. -/
theorem remaining_before {s s' : Scan} (hs : s.Proper) (h : Before v s s') :
    s'.remaining = endLine s.remaining ++ lexemes v := by
  induction hn : s.size using Nat.strongRecOn generalizing s s' with
  | _ n ih =>
    cases h with
    | lineFeed hunits => exact remaining_break rfl (List.cons_ne_nil _ _) hunits
    | both hunits =>
      rw [remaining_break rfl (List.cons_ne_nil _ _) hunits,
        remaining_break rfl (List.cons_ne_nil _ _) hunits]
      rfl
    | @within u p units hcr =>
      have hs' : (Scan.mk (u ++ '\n' :: v) p units).Proper := hs
      cases hnext : (Scan.mk u p units).next with
      | none =>
        obtain ⟨rfl, rfl⟩ : p = [] ∧ u = [] := ended_of_next_none hs hnext
        rw [remaining_of_next_none hnext,
          remaining_of_next hs' (next_break (.inr rfl) rfl (munch_nil_lineFeed v))]
        rfl
      | some r =>
        obtain ⟨x, t⟩ := r
        obtain ⟨htext, hne, ht⟩ := next_spec hs hnext
        rw [remaining_of_next hs hnext]
        rcases next_lineFeed v hcr hnext with ⟨t', ht', hbefore, hx⟩ | ⟨rfl, hnil, hboth⟩
        · have hlength := congrArg List.length htext
          have hpos := List.length_pos_iff.2 hne
          rw [List.length_append, length_text, length_text, hn] at hlength
          rw [remaining_of_next hs' ht', ih t.size (by omega) ht hbefore rfl,
            endLine_cons (hx.imp_right (not_congr (remaining_eq_nil ht)).2), List.cons_append]
        · rw [remaining_of_next hs' hboth, (remaining_eq_nil ht).2 hnil]
          rfl

end Scan

end Lexer

open Lexer in
/-- A text, a line feed and another text are read one after the other. -/
theorem lexemes_lineFeed (u v : List Char) :
    lexemes (u ++ '\n' :: v) = Lexeme.endLine (lexemes u) ++ lexemes v :=
  Scan.remaining_before Scan.proper_nil (.within (.inr List.not_mem_nil))

end CRBasic
