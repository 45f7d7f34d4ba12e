import CRBasic.Proofs.Lexer.Standalone

/-!
# Lexemes and rules

The lexemes of a text are texts of the patterns of the rules for their kinds, apart from those that no
rule has found: what is in error, and the parts of a declaration of units (`ruled_of_mem_lexemes`).
-/

namespace CRBasic

open Pattern

namespace Lexer

/-- A lexeme is a text of the pattern of a rule for its kind, if only rules find lexemes of its
kind. -/
def Ruled (x : Lexeme) : Prop :=
  x.kind ≠ .error → x.kind ≠ .whitespace → x.kind ≠ .unitsText →
    ∃ r ∈ rules, r.kind = x.kind ∧ Matches r.pattern x.text

theorem ruled_munch {cs rest : List Char} {x : Lexeme} (h : munch cs = some (x, rest)) : Ruled x := by
  unfold munch at h
  split at h
  · cases h
  · split at h
    · next c cs k n hn =>
      cases h
      intro _ _ _
      rcases exists_rule_of_better hn with hn | ⟨r, hr, hkind, hn⟩
      · cases hn
      · exact ⟨r, hr, hkind, (longest_eq_some_iff.1 hn).matches_take⟩
    · cases h
      exact fun herror => absurd rfl herror

/-! ### Whatever is found -/

/-- What holds of every lexeme that a scan can find: by a rule, as a number with what it runs into, or as
a part of a declaration of units. -/
structure HoldsOfFound (P : Lexeme → Prop) : Prop where
  munch {cs rest : List Char} {x : Lexeme} (h : munch cs = some (x, rest)) : P x
  joined {cs rest : List Char} {x : Lexeme} (h : Lexer.munch cs = some (x, rest))
      (hnumber : x.kind = .number) : P ⟨.error, x.text ++ (wordRun rest.length rest).text⟩
  units {cs blank text rest : List Char} (h : unitsText? cs = some (blank, text, rest)) :
      P ⟨.whitespace, blank⟩ ∧ P ⟨.unitsText, text⟩

namespace HoldsOfFound

variable {P : Lexeme → Prop} (hP : HoldsOfFound P)
include hP

theorem wordRun (n : Nat) (cs : List Char) : ∀ x ∈ (wordRun n cs).next, P x := by
  induction n generalizing cs with
  | zero => exact fun _ hx => absurd hx List.not_mem_nil
  | succ n ih =>
    rw [Lexer.wordRun]
    split
    · exact fun _ hx => absurd hx List.not_mem_nil
    · next x rest h =>
      split
      · exact ih rest
      · intro y hy
        obtain rfl := List.mem_singleton.1 hy
        exact hP.munch h

theorem nextCode {cs : List Char} {units : UnitsProgress} {x : Lexeme} {t : Scan}
    (h : Scan.nextCode cs units = some (x, t)) : P x ∧ ∀ y ∈ t.pending, P y := by
  unfold Scan.nextCode at h
  split at h
  · cases h
  · next y rest hmunch =>
    split at h
    · next hnumber =>
      cases h
      refine ⟨?_, hP.wordRun rest.length rest⟩
      split
      · exact hP.munch hmunch
      · exact hP.joined hmunch hnumber
    · cases h
      exact ⟨hP.munch hmunch, fun _ hy => absurd hy List.not_mem_nil⟩

theorem next {s t : Scan} (hs : ∀ y ∈ s.pending, P y) {x : Lexeme} (h : s.next = some (x, t)) :
    P x ∧ ∀ y ∈ t.pending, P y := by
  unfold Scan.next at h
  split at h
  · next y pending hpending =>
    cases h
    rw [hpending] at hs
    exact List.forall_mem_cons.1 hs
  · split at h
    · split at h
      · next hunits =>
        cases h
        exact ⟨(hP.units hunits).2, fun _ hy => absurd hy List.not_mem_nil⟩
      · next hunits =>
        cases h
        refine ⟨(hP.units hunits).1, fun y hy => ?_⟩
        rw [List.mem_singleton.1 hy]
        exact (hP.units hunits).2
      · exact hP.nextCode h
    · exact hP.nextCode h

theorem take {s : Scan} (hs : ∀ y ∈ s.pending, P y) (n : Nat) : ∀ x ∈ s.take n, P x := by
  induction n generalizing s with
  | zero => exact fun _ hx => absurd hx List.not_mem_nil
  | succ n ih =>
    rw [Scan.take]
    split
    · exact fun _ hx => absurd hx List.not_mem_nil
    · next x t h =>
      obtain ⟨hx, ht⟩ := hP.next hs h
      exact List.forall_mem_cons.2 ⟨hx, ih ht⟩

theorem of_mem_lexemes {source : List Char} {x : Lexeme} (hx : x ∈ lexemes source) : P x :=
  hP.take (s := ⟨source, [], .outside⟩) (fun _ hy => absurd hy List.not_mem_nil) _ x hx

end HoldsOfFound

/-- A lexeme of a text is found by a rule for its kind, if only rules find lexemes of the kind. -/
theorem ruled_of_mem_lexemes {source : List Char} {x : Lexeme} (hx : x ∈ lexemes source) : Ruled x :=
  HoldsOfFound.of_mem_lexemes (P := Ruled)
    { munch := ruled_munch
      joined := fun _ _ herror => absurd rfl herror
      units := fun _ => ⟨fun _ hblank => absurd rfl hblank, fun _ _ hunits => absurd rfl hunits⟩ } hx

/-- A string of a text has both of its quotes. -/
theorem exists_body_of_mem_lexemes {source : List Char} {x : Lexeme} (hx : x ∈ lexemes source)
    (hkind : x.kind = .quotedString) : ∃ body, x.text = '\x22' :: body ++ ['\x22'] := by
  obtain ⟨r, hr, hrkind, hmatch⟩ :=
    ruled_of_mem_lexemes hx (by simp [hkind]) (by simp [hkind]) (by simp [hkind])
  rw [pattern_rules_quotedString r hr (hrkind.trans hkind)] at hmatch
  obtain ⟨body, hbody, -⟩ := matches_closedString hmatch
  exact ⟨body, hbody⟩

end Lexer

end CRBasic
