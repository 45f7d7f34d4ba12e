import CRBasic.Proofs.Lexer.Faults
import CRBasic.Proofs.Number.Spelling
import CRBasic.Proofs.Number.Value

/-!
# Spellings of the numbers of a text

Every number that a text is cut into is spelled as a literal (`spelled_of_mem_lexemes`): with digits
only, or as a decimal number with a point or an exponent.
-/

namespace CRBasic

open Pattern

/-! ### Digits -/

theorem CharSet.lt_of_contains {s : CharSet} {c : Char} (hset : s.complement = false)
    (hranges : s.ranges.all fun (_, hi) => decide (hi.toNat < 128)) (h : s.contains c) :
    c.toNat < 128 := by
  rw [contains, hset, Bool.bne_false, List.any_eq_true] at h
  obtain ⟨⟨lo, hi⟩, hmem, hc⟩ := h
  have hhi := List.all_eq_true.1 hranges _ hmem
  simp only [Bool.and_eq_true, decide_eq_true_eq] at hc hhi
  have : c.toNat ≤ hi.toNat := hc.2
  omega

/-- The characters of the digits that a rule for numbers reads after the mark of a radix. -/
def NumericBase.digitSet : NumericBase → CharSet
  | .binary => .these ['0', '1']
  | .hexadecimal => .hexDigit
  | .decimal => .digit

theorem NumericBase.mem_digitChars {base : NumericBase} {c : Char} (h : base.digitSet.contains c) :
    c ∈ base.digitChars := by
  have hsmall : c.toNat < 128 := by
    cases base <;> exact CharSet.lt_of_contains rfl (by decide) h
  have hall : ∀ n < 128, base.digitSet.contains (Char.ofNat n) → Char.ofNat n ∈ base.digitChars := by
    cases base <;> decide
  have hc := hall c.toNat hsmall
  rw [Char.ofNat_toNat] at hc
  exact hc h

theorem NumericBase.digitChars_alphabet (base : NumericBase) :
    base.digitChars.all base.alphabet.contains := by
  cases base <;> decide

theorem NumericBase.mem_alphabet {base : NumericBase} {c : Char} (h : c ∈ base.digitChars) :
    c ∈ base.alphabet := by
  simpa using List.all_eq_true.1 base.digitChars_alphabet c h

namespace Lexer

variable {base : NumericBase} {u : List Char}

/-! ### Suffixes -/

/-- What a rule for numbers reads behind the digits of a radix. -/
def suffixOf : NumericBase → Pattern
  | .hexadecimal => hexSuffix
  | _ => numberSuffix

theorem longSuffix_spelling {p : Pattern} (hp : p ∈ longSuffixes) (h : Matches p u) :
    u.map Char.toLower ∈ NumericSuffix.unsignedLong.spellings := by
  have hpairs {c d : Char} (hc : c ∈ ['u', 'U']) (hd : d ∈ ['l', 'L']) :
      [c, d].map Char.toLower ∈ NumericSuffix.unsignedLong.spellings ∧
      [d, c].map Char.toLower ∈ NumericSuffix.unsignedLong.spellings := by
    simp only [List.mem_cons, List.not_mem_nil, or_false] at hc hd
    rcases hc with rfl | rfl <;> rcases hd with rfl | rfl <;> decide
  obtain rfl | rfl : p = sequence [chars ['u', 'U'], chars ['l', 'L']] ∨
      p = sequence [chars ['l', 'L'], chars ['u', 'U']] := by simpa [longSuffixes] using hp
  all_goals
    obtain ⟨v, w, rfl, hv, hw⟩ := matches_seq.1 h
    obtain ⟨c, hc, rfl⟩ := mem_of_matches_chars hv
    obtain ⟨d, hd, rfl⟩ := mem_of_matches_chars hw
  · exact (hpairs hc hd).1
  · exact (hpairs hd hc).2

theorem longSuffix_cases {p : Pattern} (h : Matches (anyOf (longSuffixes ++ [p])) u) :
    u.map Char.toLower ∈ NumericSuffix.unsignedLong.spellings ∨ Matches p u := by
  rcases matches_either.1 h with h | h
  · exact .inl (longSuffix_spelling List.mem_cons_self h)
  rcases matches_either.1 h with h | h
  · exact .inl (longSuffix_spelling (List.mem_cons_of_mem _ List.mem_cons_self) h)
  · exact .inr h

theorem suffix_of_letter {c : Char} (hc : c ∈ ['l', 'L', 'u', 'U']) :
    ∃ s : NumericSuffix, [c].map Char.toLower ∈ s.spellings ∧ s.suits base := by
  simp only [List.mem_cons, List.not_mem_nil, or_false] at hc
  rcases hc with rfl | rfl | rfl | rfl
  · exact ⟨.long, by decide, by cases base <;> rfl⟩
  · exact ⟨.long, by decide, by cases base <;> rfl⟩
  · exact ⟨.unsigned, by decide, by cases base <;> rfl⟩
  · exact ⟨.unsigned, by decide, by cases base <;> rfl⟩

theorem suffix_of_matches (h : Matches (suffixOf base) u) :
    ∃ s : NumericSuffix, u.map Char.toLower ∈ s.spellings ∧ s.suits base := by
  have hlong (h : u.map Char.toLower ∈ NumericSuffix.unsignedLong.spellings) :
      ∃ s : NumericSuffix, u.map Char.toLower ∈ s.spellings ∧ s.suits base :=
    ⟨.unsignedLong, h, by cases base <;> rfl⟩
  have hnumber (hbase : base ≠ .hexadecimal) (h : Matches numberSuffix u) :
      ∃ s : NumericSuffix, u.map Char.toLower ∈ s.spellings ∧ s.suits base := by
    rcases longSuffix_cases h with h | h
    · exact hlong h
    · obtain ⟨c, hc, rfl⟩ := mem_of_matches_chars h
      by_cases hletter : c ∈ ['l', 'L', 'u', 'U']
      · exact suffix_of_letter hletter
      · have hfloat : c = 'f' ∨ c = 'F' := by
          simp at hc hletter
          tauto
        refine ⟨.float, by rcases hfloat with rfl | rfl <;> decide, ?_⟩
        cases base with
        | hexadecimal => exact absurd rfl hbase
        | _ => rfl
  cases base with
  | hexadecimal =>
    rcases longSuffix_cases h with h | h
    · exact hlong h
    · obtain ⟨c, hc, rfl⟩ := mem_of_matches_chars h
      exact suffix_of_letter hc
  | _ => exact hnumber NumericBase.noConfusion h

/-- What stands behind the digits is the spelling of a suffix, or nothing. -/
theorem exists_suffix (h : Matches (optional (suffixOf base)) u) : ∃ suffix? : Option NumericSuffix,
    (suffix? = none → u = []) ∧
      ∀ s ∈ suffix?, u.map Char.toLower ∈ s.spellings ∧ s.suits base := by
  rcases matches_optional.1 h with h | rfl
  · obtain ⟨s, hs⟩ := suffix_of_matches h
    exact ⟨some s, by simp, by simpa using hs⟩
  · exact ⟨none, by simp, by simp⟩

/-! ### Numbers -/

/-- What the text of a number is: digits only, or a decimal number with a point or an exponent, between a
mark and a suffix. -/
def Spelled (u : List Char) : Prop :=
  ∃ (x : NumericLiteral) (suffix? : Option NumericSuffix), x.Spells suffix? u ∧
    ((∀ c ∈ x.digits, c ∈ x.base.digitChars) ∨
      ∃ d : Decimal, d.isWhole = false ∧ x.base = .decimal ∧ x.digits = d.text)

/-- A number behind the mark of a radix. -/
theorem spelled_of_marked (base : NumericBase) {lower upper : Char}
    (hmarks : base.marks = [['&', lower], ['&', upper]])
    (h : Matches (sequence [chars ['&'], chars [lower, upper], plus (.oneOf base.digitSet),
      optional (suffixOf base)]) u) : Spelled u := by
  obtain ⟨v₁, w, rfl, hand, h⟩ := matches_seq.1 h
  obtain ⟨v₂, w, rfl, hmark, h⟩ := matches_seq.1 h
  obtain ⟨digits, suffix, rfl, hdigits, hsuffix⟩ := matches_seq.1 h
  obtain ⟨a, ha, rfl⟩ := mem_of_matches_chars hand
  obtain rfl := List.mem_singleton.1 ha
  obtain ⟨c, hc, rfl⟩ := mem_of_matches_chars hmark
  obtain ⟨hne, hall⟩ := contains_of_matches_plus hdigits
  obtain ⟨suffix?, hnone, hsome⟩ := exists_suffix hsuffix
  have hchars (d : Char) (hd : d ∈ digits) : d ∈ base.digitChars := NumericBase.mem_digitChars (hall d hd)
  refine ⟨⟨base, digits, suffix⟩, suffix?, ⟨⟨['&', c], ?_, rfl⟩, hne, ?_, hnone, hsome⟩, .inl hchars⟩
  · rw [hmarks]
    simpa using hc
  · exact fun d hd => NumericBase.mem_alphabet (hchars d hd)

theorem exists_exponent (h : Matches (optional exponent) u) :
    ∃ e? : Option Exponent, u = e?.elim [] Exponent.text := by
  rcases matches_optional.1 h with h | rfl
  · obtain ⟨v, w, rfl, hmark, h⟩ := matches_seq.1 h
    obtain ⟨sign, digits, rfl, hsign, hdigits⟩ := matches_seq.1 h
    obtain ⟨c, hc, rfl⟩ := mem_of_matches_chars hmark
    obtain ⟨hne, hall⟩ := contains_of_matches_plus hdigits
    have hsign : sign = [] ∨ sign = ['+'] ∨ sign = ['-'] := by
      rcases matches_optional.1 hsign with h | h
      · obtain ⟨d, hd, rfl⟩ := mem_of_matches_chars h
        simpa using hd
      · exact .inl h
    exact ⟨some { mark := c, sign, digits, mark_eq := by simpa using hc, sign_eq := hsign,
                  digits_ne_nil := hne, digit := fun d hd => NumericBase.mem_digitChars (hall d hd) }, rfl⟩
  · exact ⟨none, rfl⟩

theorem exists_fraction (h : Matches (optional (sequence [chars ['.'], star (.oneOf .digit)])) u) :
    ∃ fraction? : Option (List Char), u = (fraction?.elim [] fun cs => '.' :: cs) ∧
      ∀ c ∈ fraction?.getD [], c ∈ NumericBase.decimal.digitChars := by
  rcases matches_optional.1 h with h | rfl
  · obtain ⟨v, w, rfl, hpoint, hw⟩ := matches_seq.1 h
    obtain ⟨c, hc, rfl⟩ := mem_of_matches_chars hpoint
    obtain rfl := List.mem_singleton.1 hc
    exact ⟨some w, rfl, fun d hd => NumericBase.mem_digitChars (contains_of_matches_star hw d hd)⟩
  · exact ⟨none, rfl, by simp⟩

theorem mem_alphabet_of_text (d : Decimal) : ∀ c ∈ d.text, c ∈ NumericBase.decimal.alphabet := by
  intro c hc
  rcases List.mem_append.1 hc with hc | hc
  · exact NumericBase.mem_alphabet (d.whole_digit hc)
  rcases List.mem_append.1 hc with hc | hc
  · rcases d.pointed_cases hc with rfl | hc
    · decide
    · exact NumericBase.mem_alphabet hc
  · rcases d.scaled_cases hc with hc | hc
    · simp only [List.mem_cons, List.not_mem_nil, or_false] at hc
      rcases hc with rfl | rfl | rfl | rfl <;> decide
    · exact NumericBase.mem_alphabet hc

/-- A decimal number and what stands behind it. -/
theorem spelled_of_decimal (d : Decimal) (h : Matches (optional (suffixOf .decimal)) u) :
    Spelled (d.text ++ u) := by
  obtain ⟨suffix?, hnone, hsome⟩ := exists_suffix h
  refine ⟨⟨.decimal, d.text, u⟩, suffix?,
    ⟨⟨[], List.mem_cons_self, rfl⟩, d.text_ne_nil, mem_alphabet_of_text d, hnone, hsome⟩, ?_⟩
  by_cases hwhole : d.isWhole
  · left
    intro c hc
    have hdigit : c ∈ d.whole := d.text_of_isWhole hwhole ▸ hc
    exact d.whole_digit hdigit
  · exact .inr ⟨d, Bool.eq_false_iff.2 hwhole, rfl, rfl⟩

theorem spelled_of_decimalNumber (h : Matches decimalNumber u) : Spelled u := by
  obtain ⟨whole, w, rfl, hwhole, h⟩ := matches_seq.1 h
  obtain ⟨pointed, w, rfl, hpointed, h⟩ := matches_seq.1 h
  obtain ⟨scaled, suffix, rfl, hscaled, hsuffix⟩ := matches_seq.1 h
  obtain ⟨hne, hall⟩ := contains_of_matches_plus hwhole
  obtain ⟨fraction?, rfl, hfraction⟩ := exists_fraction hpointed
  obtain ⟨exponent?, rfl⟩ := exists_exponent hscaled
  have hdigit : ∀ c ∈ whole ++ fraction?.getD [], c ∈ NumericBase.decimal.digitChars :=
    List.forall_mem_append.2 ⟨fun c hc => NumericBase.mem_digitChars (hall c hc), hfraction⟩
  have hspelled := spelled_of_decimal
    { whole, fraction?, exponent?, digit := hdigit, digits_ne_nil := by simp [hne] } hsuffix
  simpa [Decimal.text, Decimal.pointed, Decimal.scaled] using hspelled

theorem spelled_of_fractionNumber (h : Matches fractionNumber u) : Spelled u := by
  obtain ⟨point, w, rfl, hpoint, h⟩ := matches_seq.1 h
  obtain ⟨fraction, w, rfl, hfraction, h⟩ := matches_seq.1 h
  obtain ⟨scaled, suffix, rfl, hscaled, hsuffix⟩ := matches_seq.1 h
  obtain ⟨c, hc, rfl⟩ := mem_of_matches_chars hpoint
  obtain rfl := List.mem_singleton.1 hc
  obtain ⟨hne, hall⟩ := contains_of_matches_plus hfraction
  obtain ⟨exponent?, rfl⟩ := exists_exponent hscaled
  have hspelled := spelled_of_decimal
    { whole := [], fraction? := some fraction, exponent?,
      digit := fun c hc => NumericBase.mem_digitChars (hall c hc), digits_ne_nil := hne } hsuffix
  simpa [Decimal.text, Decimal.pointed, Decimal.scaled] using hspelled

theorem number_patterns : ∀ r ∈ rules, r.kind = .number →
    r.pattern = binaryNumber ∨ r.pattern = hexNumber ∨ r.pattern = decimalNumber ∨
      r.pattern = fractionNumber := by
  decide +kernel

end Lexer

open Lexer in
/-- Every number of a text is spelled as a literal. -/
theorem spelled_of_mem_lexemes {source : List Char} {x : Lexeme} (hx : x ∈ lexemes source)
    (hkind : x.kind = .number) : Spelled x.text := by
  obtain ⟨r, hr, hrkind, hmatch⟩ :=
    ruled_of_mem_lexemes hx (by simp [hkind]) (by simp [hkind]) (by simp [hkind])
  rcases number_patterns r hr (hrkind.trans hkind) with h | h | h | h
  · rw [h] at hmatch
    exact spelled_of_marked .binary rfl hmatch
  · rw [h] at hmatch
    exact spelled_of_marked .hexadecimal rfl hmatch
  · exact spelled_of_decimalNumber (h ▸ hmatch)
  · exact spelled_of_fractionNumber (h ▸ hmatch)

end CRBasic
