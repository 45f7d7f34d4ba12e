import CRBasic.Proofs.Lexer.Ruled

/-!
# Line breaks and lexemes

Only line breaks hold the characters that end a line (`unbroken_of_mem_lexemes`).  The rules of all other
kinds stop at either of the two, one of them alone is never in error, and the free text of a declaration
of units ends with its line.
-/

namespace CRBasic

/-- A text without the characters that end a line. -/
def Unbroken (cs : List Char) : Prop := '\r' ∉ cs ∧ '\n' ∉ cs

variable {cs ds : List Char} {c : Char}

@[simp] theorem unbroken_nil : Unbroken [] := ⟨List.not_mem_nil, List.not_mem_nil⟩

@[simp] theorem unbroken_append : Unbroken (cs ++ ds) ↔ Unbroken cs ∧ Unbroken ds := by
  simp only [Unbroken, List.mem_append, not_or]
  exact and_and_and_comm

theorem Unbroken.of_subset (h : Unbroken ds) (hsub : cs ⊆ ds) : Unbroken cs :=
  ⟨fun hmem => h.1 (hsub hmem), fun hmem => h.2 (hsub hmem)⟩

theorem unbroken_takeWhile {f : Char → Bool} (hreturn : f '\r' = false) (hfeed : f '\n' = false)
    (cs : List Char) : Unbroken (cs.takeWhile f) := by
  have hall {c : Char} (hmem : c ∈ cs.takeWhile f) : f c = true :=
    List.all_eq_true.1 List.all_takeWhile c hmem
  refine ⟨fun hmem => ?_, fun hmem => ?_⟩
  · have := hall hmem
    simp [hreturn] at this
  · have := hall hmem
    simp [hfeed] at this

namespace Lexeme

/-- A lexeme is a line break or lies within a line. -/
def KeepsLine (x : Lexeme) : Prop := x.kind ≠ .newline → Unbroken x.text

theorem unbroken_joined {xs : List Lexeme} (h : ∀ x ∈ xs, Unbroken x.text) :
    Unbroken (joined xs) := by
  refine ⟨fun hmem => ?_, fun hmem => ?_⟩
  · obtain ⟨x, hx, hmem⟩ := List.mem_flatMap.1 hmem
    exact (h x hx).1 hmem
  · obtain ⟨x, hx, hmem⟩ := List.mem_flatMap.1 hmem
    exact (h x hx).2 hmem

end Lexeme

namespace Lexer

open Lexeme Pattern

theorem newline_or_avoids_rules : ∀ r ∈ rules,
    r.kind = .newline ∨ (r.pattern.avoids '\r' ∧ r.pattern.avoids '\n') := by
  decide +kernel

theorem unbroken_of_matches {r : Rule} (hr : r ∈ rules) (hkind : r.kind ≠ .newline)
    (h : Matches r.pattern cs) : Unbroken cs := by
  obtain ⟨hreturn, hfeed⟩ := (newline_or_avoids_rules r hr).resolve_left hkind
  exact ⟨not_mem_of_avoids hreturn h, not_mem_of_avoids hfeed h⟩

theorem better_eq_none_iff {best : Option (TokenKind × Nat)} {r : Rule} :
    better best cs r = none ↔ best = none ∧ r.pattern.longest cs = none := by
  unfold better
  cases r.pattern.longest cs with
  | none => cases best <;> simp
  | some n =>
    cases best with
    | none => simp
    | some b => by_cases h : b.2 < n <;> simp [h]

/-- Where nothing is found, no rule matches. -/
theorem longest_of_longestMatch_none (h : longestMatch cs = none) :
    ∀ r ∈ rules, r.pattern.longest cs = none := by
  have hfold (rs : List Rule) (best : Option (TokenKind × Nat))
      (h : rs.foldl (fun best r => better best cs r) best = none) :
      best = none ∧ ∀ r ∈ rs, r.pattern.longest cs = none := by
    induction rs generalizing best with
    | nil => exact ⟨h, fun _ hr => absurd hr List.not_mem_nil⟩
    | cons r rs ih =>
      obtain ⟨hbest, hrs⟩ := ih _ h
      obtain ⟨hbest, hr⟩ := better_eq_none_iff.1 hbest
      exact ⟨hbest, List.forall_mem_cons.2 ⟨hr, hrs⟩⟩
  exact (hfold rules none h).2

/-- A character that starts no lexeme does not end a line. -/
theorem unbroken_of_longestMatch_none (h : longestMatch (c :: cs) = none) : Unbroken [c] := by
  have hrule : (⟨.newline, lineBreak⟩ : Rule) ∈ rules := by decide +kernel
  have hnone := longest_eq_none_iff.1 (longest_of_longestMatch_none h _ hrule) 1
  refine ⟨fun hmem => hnone ?_, fun hmem => hnone ?_⟩
  · rw [← List.mem_singleton.1 hmem]
    exact .second _ (.second _ (.oneOf rfl))
  · rw [← List.mem_singleton.1 hmem]
    exact .second _ (.first _ (.oneOf rfl))

theorem keepsLine_munch {rest : List Char} {x : Lexeme} (h : munch cs = some (x, rest)) :
    x.KeepsLine := by
  unfold munch at h
  split at h
  · cases h
  · split at h
    · next hmatch =>
      cases h
      intro hkind
      rcases exists_rule_of_better hmatch with hmatch | ⟨r, hr, rfl, hn⟩
      · cases hmatch
      · exact unbroken_of_matches hr hkind (longest_eq_some_iff.1 hn).matches_take
    · next hnone =>
      cases h
      exact fun _ => unbroken_of_longestMatch_none hnone

/-- The words that a number runs into are on its line. -/
theorem unbroken_wordRun (n : Nat) (cs : List Char) : Unbroken (wordRun n cs).text := by
  induction n generalizing cs with
  | zero => exact unbroken_nil
  | succ n ih =>
    rw [wordRun]
    split
    · exact unbroken_nil
    · next x rest hmunch =>
      split
      · next hword =>
        refine unbroken_append.2 ⟨keepsLine_munch hmunch ?_, ih rest⟩
        rintro hkind
        rw [hkind] at hword
        cases hword
      · exact unbroken_nil

theorem unbroken_of_unitsText? {blank text rest : List Char}
    (h : unitsText? cs = some (blank, text, rest)) : Unbroken blank ∧ Unbroken text := by
  simp only [unitsText?] at h
  split at h
  · cases h
  · cases h
    exact ⟨unbroken_takeWhile rfl rfl _,
      (unbroken_takeWhile rfl rfl _).of_subset (prefix_trimEnd _).subset⟩

theorem holdsOfFound_keepsLine : HoldsOfFound KeepsLine where
  munch := keepsLine_munch
  joined hmunch hnumber _ :=
    unbroken_append.2 ⟨keepsLine_munch hmunch (by simp [hnumber]), unbroken_wordRun _ _⟩
  units h := ⟨fun _ => (unbroken_of_unitsText? h).1, fun _ => (unbroken_of_unitsText? h).2⟩

end Lexer

/-- Only line breaks hold the characters that end a line. -/
theorem unbroken_of_mem_lexemes {source : List Char} {x : Lexeme} (hx : x ∈ lexemes source)
    (hkind : x.kind ≠ .newline) : Unbroken x.text :=
  Lexer.holdsOfFound_keepsLine.of_mem_lexemes hx hkind

end CRBasic
