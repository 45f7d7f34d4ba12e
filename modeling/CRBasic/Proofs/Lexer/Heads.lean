import CRBasic.Proofs.Lexer.Breaks
import CRBasic.Proofs.Lexer.Lines

/-!
# The first lexeme of a text

Where the first lexeme is no number, does not open a declaration of units and is not in error, the rules
find it, and the lexemes after it are those of the rest of the text (`munch_of_lexemes`).  No rule has a
longer match: after a blank, a name or a comment there is nothing that it may go on with
(`not_contains_of_munch`).
-/

namespace CRBasic

namespace Pattern

variable {p : Pattern} {u v : List Char}

theorem matches_star_append (hu : Matches (.star p) u) (hv : Matches p v) :
    Matches (.star p) (u ++ v) := by
  generalize hq : star p = q at hu
  induction hu with
  | starNil _ =>
    cases hq
    simpa using Matches.starCons hv (.starNil p)
  | starCons hitem _ _ ih =>
    cases hq
    rw [List.append_assoc]
    exact .starCons hitem (ih rfl)
  | _ => cases hq

theorem matches_optional : Matches (optional p) u ↔ Matches p u ∨ u = [] := by
  rw [optional, matches_either, matches_empty]

variable {s : CharSet}

theorem contains_of_matches_star (h : Matches (.star (.oneOf s)) u) : ∀ c ∈ u, s.contains c := by
  generalize hq : star (.oneOf s) = q at h
  induction h with
  | starNil => exact fun c hc => absurd hc List.not_mem_nil
  | starCons hitem _ _ ih =>
    cases hq
    obtain ⟨d, rfl, hd⟩ := matches_oneOf.1 hitem
    exact List.forall_mem_cons.2 ⟨hd, ih rfl⟩
  | _ => cases hq

theorem contains_of_matches_plus (h : Matches (plus (.oneOf s)) u) :
    u ≠ [] ∧ ∀ c ∈ u, s.contains c := by
  obtain ⟨v, w, rfl, hv, hw⟩ := matches_seq.1 h
  obtain ⟨c, rfl, hc⟩ := matches_oneOf.1 hv
  exact ⟨by simp, List.forall_mem_cons.2 ⟨hc, contains_of_matches_star hw⟩⟩

theorem mem_of_matches_chars {cs : List Char} (h : Matches (chars cs) u) : ∃ c ∈ cs, u = [c] := by
  obtain ⟨c, rfl, hc⟩ := matches_oneOf.1 h
  exact ⟨c, CharSet.contains_these.1 hc, rfl⟩

end Pattern

namespace Lexer

open Lexeme Pattern

variable {cs rest : List Char} {c : Char} {x : Lexeme} {xs : List Lexeme} {k : TokenKind} {n : Nat}

theorem pattern_rules_whitespace : ∀ r ∈ rules, r.kind = .whitespace → r.pattern = blanks := by
  decide +kernel

theorem pattern_rules_comment : ∀ r ∈ rules, r.kind = .comment → r.pattern = commentText := by
  decide +kernel

/-! ### The longest match -/

/-- A better match is at least as long as the one found so far and the one of the rule. -/
theorem exists_le_better {best : Option (TokenKind × Nat)} {r : Rule} {m : Nat}
    (hm : (∃ k, best = some (k, m)) ∨ r.pattern.longest cs = some m) :
    ∃ k n, better best cs r = some (k, n) ∧ m ≤ n := by
  unfold better
  rcases hm with ⟨k, rfl⟩ | hm
  · cases r.pattern.longest cs with
    | none => exact ⟨k, m, rfl, Nat.le_refl m⟩
    | some n =>
      dsimp only
      split
      · exact ⟨r.kind, n, rfl, Nat.le_of_lt ‹_›⟩
      · exact ⟨k, m, rfl, Nat.le_refl m⟩
  · rw [hm]
    rcases best with _ | ⟨k, n⟩
    · exact ⟨r.kind, m, rfl, Nat.le_refl m⟩
    · dsimp only
      split
      · exact ⟨r.kind, m, rfl, Nat.le_refl m⟩
      · exact ⟨k, n, rfl, Nat.le_of_not_lt ‹_›⟩

/-- No rule has a longer match than the one that is found. -/
theorem le_of_longestMatch (h : longestMatch cs = some (k, n)) {r : Rule} (hr : r ∈ rules) {m : Nat}
    (hm : r.pattern.longest cs = some m) : m ≤ n := by
  have hfold (rs : List Rule) {best : Option (TokenKind × Nat)}
      (h : rs.foldl (fun best r => better best cs r) best = some (k, n)) :
      (∀ k' m, best = some (k', m) → m ≤ n) ∧
        ∀ r ∈ rs, ∀ m, r.pattern.longest cs = some m → m ≤ n := by
    induction rs generalizing best with
    | nil =>
      rw [List.foldl_nil] at h
      subst h
      refine ⟨fun k' m hbest => ?_, fun r hr => absurd hr List.not_mem_nil⟩
      cases hbest
      exact Nat.le_refl n
    | cons r rs ih =>
      obtain ⟨hbetter, hrs⟩ := ih h
      have hle {m : Nat} (hm : (∃ k, best = some (k, m)) ∨ r.pattern.longest cs = some m) :
          m ≤ n := by
        obtain ⟨k', m', hm', hle⟩ := exists_le_better hm
        exact Nat.le_trans hle (hbetter k' m' hm')
      exact ⟨fun k' m hbest => hle (.inl ⟨k', hbest⟩),
        List.forall_mem_cons.2 ⟨fun m hm => hle (.inr hm), hrs⟩⟩
  exact (hfold rules h).2 r hr m hm

theorem longestMatch_of_munch (h : munch cs = some (x, rest)) (herror : x.kind ≠ .error) :
    longestMatch cs = some (x.kind, x.text.length) := by
  unfold munch at h
  split at h
  · cases h
  · split at h
    · next k n hn =>
      cases h
      rw [hn, List.length_take, Nat.min_eq_left (longestMatch_bounds hn).2]
    · cases h
      exact absurd rfl herror

theorem exists_rule_of_munch (h : munch cs = some (x, rest)) (herror : x.kind ≠ .error) :
    ∃ r ∈ rules, r.kind = x.kind ∧ Matches r.pattern x.text := by
  rcases exists_rule_of_better (longestMatch_of_munch h herror) with hnone | ⟨r, hr, hkind, hn⟩
  · cases hnone
  · have hmatch := (longest_eq_some_iff.1 hn).matches_take
    rw [← (munch_spec h).1, List.take_left] at hmatch
    exact ⟨r, hr, hkind, hmatch⟩

/-- A lexeme is not followed by a character that a rule allows it to go on with. -/
theorem not_contains_of_munch {p : Pattern} {s : CharSet}
    (hrule : ⟨k, .seq p (.star (.oneOf s))⟩ ∈ rules) (hx : Matches (.seq p (.star (.oneOf s))) x.text)
    (herror : x.kind ≠ .error) (h : munch cs = some (x, c :: rest)) : s.contains c = false := by
  refine Bool.eq_false_iff.2 fun hc => ?_
  obtain ⟨u, v, htext, hu, hv⟩ := matches_seq.1 hx
  have hlonger : Matches (.seq p (.star (.oneOf s))) (cs.take (x.text.length + 1)) := by
    have hcs : cs = x.text ++ c :: rest := (munch_spec h).1.symm
    rw [hcs, List.take_length_add_append, List.take_succ_cons, List.take_zero, htext,
      List.append_assoc]
    exact .seq hu (matches_star_append hv (.oneOf hc))
  have hlen : x.text.length + 1 ≤ cs.length := by
    rw [← (munch_spec h).1, List.length_append, List.length_cons]
    omega
  cases hlongest : (Pattern.seq p (.star (.oneOf s))).longest cs with
  | none => exact longest_eq_none_iff.1 hlongest _ hlonger
  | some m =>
    have hle := (longest_eq_some_iff.1 hlongest).le hlen hlonger
    have hm := le_of_longestMatch (longestMatch_of_munch h herror) hrule hlongest
    omega

/-! ### Scans -/

/-- The first lexeme that the rules find, and the lexemes after it. -/
theorem lexemes_of_munch (h : munch cs = some (x, rest)) (hnumber : x.kind ≠ .number)
    (hunits : x.kind ≠ .kwUnits) : lexemes cs = x :: lexemes rest := by
  refine Scan.remaining_of_next Scan.proper_nil ?_
  change Scan.nextCode cs .outside = _
  rw [Scan.nextCode, h]
  dsimp only
  rw [if_neg hnumber, Scan.yieldCode, after_outside hunits]

/-- The rules find the first lexeme, and the rest of the text has the lexemes after it. -/
theorem munch_of_lexemes (h : lexemes cs = x :: xs) (hnumber : x.kind ≠ .number)
    (herror : x.kind ≠ .error) (hunits : x.kind ≠ .kwUnits) :
    munch cs = some (x, joined xs) ∧ lexemes (joined xs) = xs := by
  cases hmunch : munch cs with
  | none =>
    rw [munch_eq_none hmunch] at h
    cases h
  | some r =>
    obtain ⟨y, rest⟩ := r
    -- A number, with the words that it runs into, would be a number or in error.
    have hy : y.kind ≠ .number := by
      intro hy
      have hnext : (Scan.mk cs [] .outside).next = Scan.nextCode cs .outside := rfl
      rw [Scan.nextCode, hmunch] at hnext
      simp only [if_pos hy] at hnext
      rw [lexemes, Scan.remaining_of_next Scan.proper_nil hnext] at h
      have hkind := congrArg Lexeme.kind (List.cons.inj h).1
      split at hkind
      · exact hnumber (hkind ▸ hy)
      · exact herror hkind.symm
    have hnext : (Scan.mk cs [] .outside).next =
        some (y, ⟨rest, [], UnitsProgress.outside.after y.kind⟩) := by
      change Scan.nextCode cs .outside = _
      rw [Scan.nextCode, hmunch]
      dsimp only
      rw [if_neg hy, Scan.yieldCode]
    have hyx := h
    rw [lexemes, Scan.remaining_of_next Scan.proper_nil hnext] at hyx
    obtain rfl := (List.cons.inj hyx).1
    obtain rfl := (List.cons.inj (h.symm.trans (lexemes_of_munch hmunch hnumber hunits))).2
    rw [joined_lexemes]
    exact ⟨rfl, rfl⟩

end Lexer

end CRBasic
