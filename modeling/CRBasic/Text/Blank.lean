/-!
# White space

The characters with the property `White_Space`, which end a free text without being part of it.
-/

namespace CRBasic

/-- The ranges of the property `White_Space`. -/
def whiteSpaceRanges : List (Nat × Nat) :=
  [(0x09, 0x0D), (0x20, 0x20), (0x85, 0x85), (0xA0, 0xA0), (0x1680, 0x1680), (0x2000, 0x200A),
   (0x2028, 0x2029), (0x202F, 0x202F), (0x205F, 0x205F), (0x3000, 0x3000)]

/-- Whether a character is white space. -/
def isWhiteSpace (c : Char) : Bool :=
  whiteSpaceRanges.any fun (lo, hi) => lo ≤ c.toNat && c.toNat ≤ hi

/-- A text without the white space at its end. -/
def trimEnd : List Char → List Char
  | [] => []
  | c :: cs =>
    match trimEnd cs with
    | [] => if isWhiteSpace c then [] else [c]
    | ds => c :: ds

theorem isWhiteSpace_space : isWhiteSpace ' ' = true := by decide

theorem isWhiteSpace_tab : isWhiteSpace '\t' = true := by decide

/-- Trimming takes white space only, and takes it from the end. -/
theorem exists_trimEnd_append (cs : List Char) :
    ∃ tail, cs = trimEnd cs ++ tail ∧ ∀ c ∈ tail, isWhiteSpace c := by
  induction cs with
  | nil => exact ⟨[], rfl, by simp⟩
  | cons c cs ih =>
    obtain ⟨tail, hcs, htail⟩ := ih
    cases ht : trimEnd cs with
    | nil =>
      rw [ht, List.nil_append] at hcs
      by_cases hc : isWhiteSpace c
      · exact ⟨c :: cs, by simp [trimEnd, ht, hc], by simpa [hc, hcs] using htail⟩
      · exact ⟨tail, by simp [trimEnd, ht, hc, ← hcs], htail⟩
    | cons d ds =>
      refine ⟨tail, ?_, htail⟩
      rw [ht] at hcs
      simp [trimEnd, ht, ← hcs]

end CRBasic
