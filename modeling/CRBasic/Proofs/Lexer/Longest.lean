import CRBasic.Lexer.Pattern

/-!
# Longest matches

Reading a text by derivatives finds the longest of its starts that a pattern describes
(`longest_eq_some_iff`), and nothing if there is none (`longest_eq_none_iff`).
-/

namespace CRBasic

namespace Pattern

variable {p q : Pattern} {c : Char} {u v : List Char}

/-! ### The texts of each form -/

theorem not_matches_nothing (u : List Char) : ¬ Matches .nothing u := nofun

theorem matches_empty : Matches .empty u ↔ u = [] := by
  constructor
  · rintro ⟨⟩
    rfl
  · rintro rfl
    exact .empty

theorem matches_oneOf {s : CharSet} : Matches (.oneOf s) u ↔ ∃ c, u = [c] ∧ s.contains c := by
  constructor
  · rintro ⟨⟩
    exact ⟨_, rfl, ‹_›⟩
  · rintro ⟨c, rfl, hc⟩
    exact .oneOf hc

theorem matches_seq : Matches (.seq p q) u ↔ ∃ v w, u = v ++ w ∧ Matches p v ∧ Matches q w := by
  constructor
  · rintro ⟨⟩
    exact ⟨_, _, rfl, ‹_›, ‹_›⟩
  · rintro ⟨v, w, rfl, hv, hw⟩
    exact .seq hv hw

theorem matches_either : Matches (.either p q) u ↔ Matches p u ∨ Matches q u := by
  constructor
  · rintro ⟨⟩
    · exact .inl ‹_›
    · exact .inr ‹_›
  · rintro (h | h)
    · exact .first q h
    · exact .second p h

/-- A text of a repetition that is not empty starts with a text of the item that is not empty. -/
theorem matches_star_cons : Matches (.star p) (c :: u) ↔
    ∃ v w, u = v ++ w ∧ Matches p (c :: v) ∧ Matches (.star p) w := by
  constructor
  · intro h
    generalize hs : Pattern.star p = r at h
    generalize ht : c :: u = text at h
    induction h generalizing u with
    | starNil => cases ht
    | @starCons p' v w hv hw _ ih =>
      cases hs
      cases v with
      | nil => exact ih rfl ht
      | cons d v =>
        cases ht
        exact ⟨v, w, rfl, hv, hw⟩
    | _ => cases hs
  · rintro ⟨v, w, rfl, hv, hw⟩
    exact .starCons hv hw

/-! ### Derivatives -/

theorem nullable_iff : p.nullable ↔ Matches p [] := by
  induction p with
  | nothing => simp [nullable, not_matches_nothing]
  | empty => simp [nullable, matches_empty]
  | oneOf s => simp [nullable, matches_oneOf]
  | seq p q ihp ihq =>
    rw [nullable, Bool.and_eq_true, ihp, ihq, matches_seq]
    constructor
    · rintro ⟨hp, hq⟩
      exact ⟨[], [], rfl, hp, hq⟩
    · rintro ⟨v, w, h, hv, hw⟩
      obtain ⟨rfl, rfl⟩ := List.append_eq_nil_iff.1 h.symm
      exact ⟨hv, hw⟩
  | either p q ihp ihq => simp [nullable, matches_either, ihp, ihq]
  | star p => simp [nullable, Matches.starNil]

theorem matches_andThen : Matches (p.andThen q) u ↔ Matches (.seq p q) u := by
  cases p with
  | nothing => simp [andThen, matches_seq, not_matches_nothing]
  | empty =>
    rw [andThen, matches_seq]
    constructor
    · intro h
      exact ⟨[], u, rfl, .empty, h⟩
    · rintro ⟨v, w, rfl, hv, hw⟩
      rwa [matches_empty.1 hv]
  | _ => rfl

theorem matches_orElse : Matches (p.orElse q) u ↔ Matches (.either p q) u := by
  rw [matches_either]
  unfold orElse
  split
  · simp [not_matches_nothing]
  · simp [not_matches_nothing]
  · exact matches_either

/-- The derivative describes what may follow the character. -/
theorem matches_derivative : Matches (p.derivative c) u ↔ Matches p (c :: u) := by
  induction p generalizing u with
  | nothing => simp [derivative, not_matches_nothing]
  | empty => simp [derivative, not_matches_nothing, matches_empty]
  | oneOf s =>
    rw [derivative]
    split
    · next h =>
      rw [matches_empty, matches_oneOf]
      constructor
      · rintro rfl
        exact ⟨c, rfl, h⟩
      · rintro ⟨d, hd, -⟩
        exact (List.cons.inj hd).2
    · next h =>
      rw [matches_oneOf]
      constructor
      · exact fun hu => absurd hu (not_matches_nothing u)
      · rintro ⟨d, hd, hc⟩
        rw [(List.cons.inj hd).1] at h
        exact absurd hc h
  | either p q ihp ihq => rw [derivative, matches_orElse, matches_either, matches_either, ihp, ihq]
  | star p ih => simp only [derivative, matches_andThen, matches_seq, matches_star_cons, ih]
  | seq p q ihp ihq =>
    have hsplit : Matches (.seq p q) (c :: u) ↔ Matches (.seq (p.derivative c) q) u ∨
        (Matches p [] ∧ Matches q (c :: u)) := by
      simp only [matches_seq, ihp]
      constructor
      · rintro ⟨v, w, h, hv, hw⟩
        cases v with
        | nil => exact .inr ⟨hv, by rwa [h]⟩
        | cons d v =>
          cases h
          exact .inl ⟨v, w, rfl, hv, hw⟩
      · rintro (⟨v, w, rfl, hv, hw⟩ | ⟨hp, hq⟩)
        · exact ⟨c :: v, w, rfl, hv, hw⟩
        · exact ⟨[], c :: u, rfl, hp, hq⟩
    rw [hsplit, ← ihq, ← nullable_iff, derivative]
    split
    · next h => simp [matches_orElse, matches_either, matches_andThen, h]
    · next h => simp [matches_andThen, h]

/-! ### Longest matches -/

/-- The first `n` characters of a text are its longest start that a pattern describes. -/
structure LongestAt (p : Pattern) (text : List Char) (n : Nat) : Prop where
  le_length : n ≤ text.length
  matches_take : Matches p (text.take n)
  le {m : Nat} (hm : m ≤ text.length) (h : Matches p (text.take m)) : m ≤ n

theorem LongestAt.unique {text : List Char} {m n : Nat} (hm : LongestAt p text m)
    (hn : LongestAt p text n) : m = n :=
  Nat.le_antisymm (hn.le hm.le_length hm.matches_take) (hm.le hn.le_length hn.matches_take)

/-- Either a start of the text matches, and `longest` finds the longest one, or none does. -/
theorem longest_spec (p : Pattern) (text : List Char) :
    (∃ n, p.longest text = some n ∧ LongestAt p text n) ∨
      (p.longest text = none ∧ ∀ m, ¬ Matches p (text.take m)) := by
  induction text generalizing p with
  | nil =>
    by_cases h : p.nullable
    · exact .inl ⟨0, by simp [longest, h], Nat.le_refl _, nullable_iff.1 h, fun hm _ => hm⟩
    · refine .inr ⟨by simp [longest, h], fun m hm => h (nullable_iff.2 ?_)⟩
      simpa using hm
  | cons c cs ih =>
    have hstep : (if (p.derivative c).isNothing then none else (p.derivative c).longest cs) =
        (p.derivative c).longest cs := by
      split
      · next h =>
        have hnothing : p.derivative c = .nothing := by
          cases hp : p.derivative c <;> simp_all [isNothing]
        rcases ih (p.derivative c) with ⟨n, -, hn⟩ | ⟨hnone, -⟩
        · exact absurd (hnothing ▸ hn.matches_take) (not_matches_nothing _)
        · exact hnone.symm
      · rfl
    rw [longest]
    simp only [hstep]
    rcases ih (p.derivative c) with ⟨n, hn, hlong⟩ | ⟨hnone, hno⟩
    · refine .inl ⟨n + 1, by rw [hn], ?_, ?_, ?_⟩
      · exact Nat.succ_le_succ hlong.le_length
      · exact matches_derivative.1 hlong.matches_take
      · intro m hm h
        cases m with
        | zero => exact Nat.zero_le _
        | succ m =>
          exact Nat.succ_le_succ (hlong.le (Nat.le_of_succ_le_succ hm) (matches_derivative.2 h))
    · have hzero {m : Nat} (h : Matches p ((c :: cs).take m)) : m = 0 := by
        cases m with
        | zero => rfl
        | succ m => exact absurd (matches_derivative.2 h) (hno m)
      rw [hnone]
      by_cases h : p.nullable
      · refine .inl ⟨0, by simp [h], Nat.zero_le _, nullable_iff.1 h, fun _ hm => ?_⟩
        exact Nat.le_of_eq (hzero hm)
      · refine .inr ⟨by simp [h], fun m hm => h (nullable_iff.2 ?_)⟩
        have := hzero hm
        subst this
        exact hm

theorem longest_eq_some_iff {text : List Char} {n : Nat} :
    p.longest text = some n ↔ LongestAt p text n := by
  rcases p.longest_spec text with ⟨m, hm, hlong⟩ | ⟨hnone, hno⟩
  · rw [hm, Option.some.injEq]
    constructor
    · rintro rfl
      exact hlong
    · exact fun hn => hlong.unique hn
  · rw [hnone]
    exact ⟨nofun, fun hn => absurd hn.matches_take (hno n)⟩

theorem longest_eq_none_iff {text : List Char} :
    p.longest text = none ↔ ∀ m, ¬ Matches p (text.take m) := by
  rcases p.longest_spec text with ⟨m, hm, hlong⟩ | ⟨hnone, hno⟩
  · rw [hm]
    exact ⟨nofun, fun hno => absurd hlong.matches_take (hno m)⟩
  · exact ⟨fun _ => hno, fun _ => hnone⟩

end Pattern

end CRBasic
