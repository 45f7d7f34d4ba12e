import CRBasic.Text.Range

/-!
# Character boundaries

A byte offset of a text is a character boundary when it is the length of a front of the text.  At
no other offset can the text be cut (`isBoundary_iff`).
-/

namespace CRBasic

/-- Whether a text can be cut at a byte offset: no character lies on both sides of it. -/
def IsBoundary (source : List Char) (n : Nat) : Prop :=
  ∃ pre rest, pre ++ rest = source ∧ byteLength pre = n

theorem isBoundary_byteLength (pre rest : List Char) :
    IsBoundary (pre ++ rest) (byteLength pre) :=
  ⟨pre, rest, rfl, rfl⟩

theorem IsBoundary.le {source : List Char} {n : Nat} (h : IsBoundary source n) :
    n ≤ byteLength source := by
  obtain ⟨pre, rest, rfl, rfl⟩ := h
  rw [byteLength_append]
  exact Nat.le_add_right _ _

/-- Of two fronts of a text the shorter one is a front of the other. -/
theorem prefix_of_byteLength_le {s u v : List Char} (hu : u <+: s) (hv : v <+: s)
    (h : byteLength u ≤ byteLength v) : u <+: v := by
  rcases List.prefix_or_prefix_of_prefix hu hv with hprefix | ⟨w, rfl⟩
  · exact hprefix
  · have hlength := length_le_byteLength w
    rw [byteLength_append] at h
    have hnil : w = [] := List.eq_nil_of_length_eq_zero (by omega)
    simp [hnil]

/-- Fronts of a text of the same length are the same. -/
theorem eq_of_byteLength_eq {s u v : List Char} (hu : u <+: s) (hv : v <+: s)
    (h : byteLength u = byteLength v) : u = v :=
  (prefix_of_byteLength_le hu hv (Nat.le_of_eq h)).eq_of_length_le
    (prefix_of_byteLength_le hv hu (Nat.le_of_eq h.symm)).length_le

/-- What is left of a text from an offset on follows a front of that length. -/
theorem append_of_dropBytes {source rest : List Char} {n : Nat}
    (h : dropBytes source n = some rest) : ∃ pre, pre ++ rest = source ∧ byteLength pre = n := by
  induction source generalizing n with
  | nil =>
    cases n with
    | zero => exact ⟨[], by simpa using h.symm, rfl⟩
    | succ n => cases h
  | cons c cs ih =>
    cases n with
    | zero => exact ⟨[], by simpa using h.symm, rfl⟩
    | succ n =>
      rw [dropBytes] at h
      split at h
      · obtain ⟨pre, rfl, hlength⟩ := ih h
        exact ⟨c :: pre, rfl, by rw [byteLength_cons]; omega⟩
      · cases h

/-- A text can be cut at the character boundaries only. -/
theorem isBoundary_iff {source : List Char} {n : Nat} :
    IsBoundary source n ↔ (dropBytes source n).isSome := by
  constructor
  · rintro ⟨pre, rest, rfl, rfl⟩
    rw [dropBytes_append]
    rfl
  · intro h
    obtain ⟨rest, hrest⟩ := Option.isSome_iff_exists.1 h
    obtain ⟨pre, hpre, hlength⟩ := append_of_dropBytes hrest
    exact ⟨pre, rest, hpre, hlength⟩

instance (source : List Char) (n : Nat) : Decidable (IsBoundary source n) :=
  decidable_of_iff _ isBoundary_iff.symm

end CRBasic
