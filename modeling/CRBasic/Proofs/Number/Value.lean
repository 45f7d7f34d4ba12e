import CRBasic.Number.Literal
import Mathlib.Data.Nat.Digits.Lemmas

/-!
# Values of digits

Digits stand for a number by their places (`positional`), and that is how they are read
(`NumericLiteral.digitsValue?_eq`).  A decimal number has a whole part, perhaps a point and a fraction, and
perhaps an exponent (`Decimal`); it is a float if it has one of the two, and then its value is the number
nearest to the one that it stands for (`NumericLiteral.value?_decimal`).
-/

namespace CRBasic

namespace NumericBase

/-- The digits of a radix, in either case. -/
def digitChars : NumericBase → List Char
  | .binary => "01".toList
  | .hexadecimal => "0123456789abcdefABCDEF".toList
  | .decimal => "0123456789".toList

/-- The number that digits stand for by their places: the last one counts once, the one before it as often
as the radix says, and so on. -/
def positional (base : NumericBase) (digits : List Char) : Nat :=
  Nat.ofDigits base.radix
    (digits.reverse.map fun c => "0123456789abcdef".toList.idxOf c.toLower)

theorem digitValue?_digitChars (base : NumericBase) : base.digitChars.all fun c =>
    NumericLiteral.digitValue? base.radix c = some ("0123456789abcdef".toList.idxOf c.toLower) := by
  cases base <;> decide

end NumericBase

namespace NumericLiteral

variable {base : NumericBase} {cs digits : List Char}

theorem digitsValueFrom?_eq (h : ∀ c ∈ cs, c ∈ base.digitChars) (n : Nat) :
    digitsValueFrom? base.radix n cs = some (base.radix ^ cs.length * n + base.positional cs) := by
  induction cs generalizing n with
  | nil => simp [digitsValueFrom?, NumericBase.positional]
  | cons c cs ih =>
    obtain ⟨hc, hcs⟩ := List.forall_mem_cons.1 h
    have hdigit := List.all_eq_true.1 base.digitValue?_digitChars c hc
    rw [decide_eq_true_eq] at hdigit
    rw [digitsValueFrom?, hdigit, Option.bind_some, ih hcs]
    simp only [NumericBase.positional, List.reverse_cons, List.map_append, List.map_singleton,
      Nat.ofDigits_append, Nat.ofDigits_singleton, List.length_map, List.length_reverse,
      List.length_cons, Option.some.injEq, pow_succ]
    ring

/-- Digits are read by their places. -/
theorem digitsValue?_eq (hne : cs ≠ []) (h : ∀ c ∈ cs, c ∈ base.digitChars) :
    digitsValue? base.radix cs = some (base.positional cs) := by
  obtain ⟨c, cs, rfl⟩ := List.exists_cons_of_ne_nil hne
  have hvalue := digitsValueFrom?_eq h 0
  rwa [Nat.mul_zero, Nat.zero_add] at hvalue

end NumericLiteral

/-! ### Decimal numbers -/

/-- The exponent of a decimal number: its mark, perhaps a sign, and digits. -/
structure Exponent where
  mark : Char
  sign : List Char
  digits : List Char
  mark_eq : mark = 'e' ∨ mark = 'E'
  sign_eq : sign = [] ∨ sign = ['+'] ∨ sign = ['-']
  digits_ne_nil : digits ≠ []
  digit : ∀ c ∈ digits, c ∈ NumericBase.decimal.digitChars

/-- A decimal number: digits with perhaps a point in front of, among or behind them, and perhaps an
exponent. -/
structure Decimal where
  whole : List Char
  /-- The digits behind the point, if there is one. -/
  fraction? : Option (List Char)
  exponent? : Option Exponent
  digit : ∀ c ∈ whole ++ fraction?.getD [], c ∈ NumericBase.decimal.digitChars
  digits_ne_nil : whole ++ fraction?.getD [] ≠ []

theorem digit_plain : NumericBase.decimal.digitChars.all fun c =>
    !(c == '.' || c == 'e' || c == 'E' || c == '+' || c == '-') := by
  decide

theorem ne_of_mem_digitChars {c : Char} (h : c ∈ NumericBase.decimal.digitChars) :
    c ≠ '.' ∧ c ≠ 'e' ∧ c ≠ 'E' ∧ c ≠ '+' ∧ c ≠ '-' := by
  have hplain := List.all_eq_true.1 digit_plain c h
  simp only [Bool.not_eq_true', Bool.or_eq_false_iff, beq_eq_false_iff_ne] at hplain
  tauto

namespace Exponent

def text (e : Exponent) : List Char := e.mark :: (e.sign ++ e.digits)

def value (e : Exponent) : Int :=
  if e.sign = ['-'] then -(NumericBase.decimal.positional e.digits : Int)
  else NumericBase.decimal.positional e.digits

theorem exponentValue?_eq (e : Exponent) :
    NumericLiteral.exponentValue? (e.sign ++ e.digits) = some e.value := by
  have hvalue : NumericLiteral.digitsValue? 10 e.digits = some (NumericBase.decimal.positional e.digits) :=
    NumericLiteral.digitsValue?_eq e.digits_ne_nil e.digit
  obtain ⟨c, cs, hdigits⟩ := List.exists_cons_of_ne_nil e.digits_ne_nil
  have hc := ne_of_mem_digitChars (e.digit c (hdigits ▸ List.mem_cons_self))
  rcases e.sign_eq with h | h | h
  · rw [h, List.nil_append, NumericLiteral.exponentValue?, hvalue]
    · simp [value, h]
    · rintro cs' h'
      rw [hdigits] at h'
      exact hc.2.2.2.2 (List.cons.inj h').1
    · rintro cs' h'
      rw [hdigits] at h'
      exact hc.2.2.2.1 (List.cons.inj h').1
  · simp [h, NumericLiteral.exponentValue?, hvalue, value]
  · simp [h, NumericLiteral.exponentValue?, hvalue, value]

theorem text_cases (e : Exponent) {c : Char} (hc : c ∈ e.text) :
    c ∈ ['e', 'E', '+', '-'] ∨ c ∈ NumericBase.decimal.digitChars := by
  rcases List.mem_cons.1 hc with rfl | hc
  · rcases e.mark_eq with h | h <;> simp [h]
  · rcases List.mem_append.1 hc with hc | hc
    · left
      rcases e.sign_eq with h | h | h <;> rw [h] at hc <;> simp at hc
      · simp [hc]
      · simp [hc]
    · exact .inr (e.digit c hc)

end Exponent

namespace Decimal

/-- The digits behind the point. -/
def fraction (d : Decimal) : List Char := d.fraction?.getD []

/-- The point and the digits behind it. -/
def pointed (d : Decimal) : List Char := d.fraction?.elim [] fun cs => '.' :: cs

/-- The exponent as written. -/
def scaled (d : Decimal) : List Char := d.exponent?.elim [] Exponent.text

def text (d : Decimal) : List Char := d.whole ++ (d.pointed ++ d.scaled)

/-- The number that is scaled by a power of ten. -/
def significand (d : Decimal) : Nat := NumericBase.decimal.positional (d.whole ++ d.fraction)

/-- The power of ten by which the digits are scaled. -/
def power (d : Decimal) : Int := d.exponent?.elim 0 Exponent.value - d.fraction.length

/-- Whether a number has neither a point nor an exponent. -/
def isWhole (d : Decimal) : Bool := d.fraction?.isNone && d.exponent?.isNone

variable (d : Decimal)

theorem whole_digit {c : Char} (hc : c ∈ d.whole) : c ∈ NumericBase.decimal.digitChars :=
  d.digit c (List.mem_append_left _ hc)

theorem pointed_cases {c : Char} (hc : c ∈ d.pointed) :
    c = '.' ∨ c ∈ NumericBase.decimal.digitChars := by
  have hdigit := d.digit
  rw [pointed] at hc
  cases hfraction : d.fraction? with
  | none => simp [hfraction] at hc
  | some cs =>
    rw [hfraction] at hc hdigit
    rcases List.mem_cons.1 hc with hc | hc
    · exact .inl hc
    · exact .inr (hdigit c (List.mem_append_right _ hc))

theorem scaled_cases {c : Char} (hc : c ∈ d.scaled) :
    c ∈ ['e', 'E', '+', '-'] ∨ c ∈ NumericBase.decimal.digitChars := by
  rw [scaled] at hc
  cases hexponent : d.exponent? with
  | none => simp [hexponent] at hc
  | some e =>
    rw [hexponent] at hc
    exact e.text_cases hc

theorem head_scaled {c : Char} (hc : c ∈ d.scaled.head?) : c = 'e' ∨ c = 'E' := by
  rw [scaled] at hc
  cases hexponent : d.exponent? with
  | none => simp [hexponent] at hc
  | some e =>
    rw [hexponent] at hc
    obtain rfl : e.mark = c := Option.some.inj hc
    exact e.mark_eq

theorem text_ne_nil : d.text ≠ [] := by
  intro h
  obtain ⟨hwhole, h⟩ := List.append_eq_nil_iff.1 h
  obtain ⟨hpointed, -⟩ := List.append_eq_nil_iff.1 h
  have hne := d.digits_ne_nil
  rw [pointed] at hpointed
  cases hfraction : d.fraction? with
  | none => simp [hwhole, hfraction] at hne
  | some cs => simp [hfraction] at hpointed

theorem text_of_isWhole (h : d.isWhole) : d.text = d.whole := by
  rw [isWhole, Bool.and_eq_true, Option.isNone_iff_eq_none, Option.isNone_iff_eq_none] at h
  simp [text, pointed, scaled, h.1, h.2]

/-- A text is cut where a test first fails. -/
theorem takeWhile_append {f : Char → Bool} {us vs : List Char} (hus : ∀ c ∈ us, f c)
    (hvs : ∀ c ∈ vs.head?, f c = false) :
    (us ++ vs).takeWhile f = us ∧ (us ++ vs).dropWhile f = vs := by
  rw [List.takeWhile_append_of_pos hus, List.dropWhile_append_of_pos hus]
  cases vs with
  | nil => simp
  | cons c vs => simp [hvs c rfl]

/-- The exponent is found by its mark. -/
theorem cut_at_mark : d.text.takeWhile (fun c => !(c == 'e' || c == 'E')) = d.whole ++ d.pointed ∧
    d.text.dropWhile (fun c => !(c == 'e' || c == 'E')) = d.scaled := by
  rw [text, ← List.append_assoc]
  apply takeWhile_append
  · intro c hc
    have hother : c = '.' ∨ c ∈ NumericBase.decimal.digitChars := by
      rcases List.mem_append.1 hc with hc | hc
      · exact .inr (d.whole_digit hc)
      · exact d.pointed_cases hc
    rcases hother with rfl | hc
    · rfl
    · have hplain := ne_of_mem_digitChars hc
      simp [hplain.2.1, hplain.2.2.1]
  · intro c hc
    rcases d.head_scaled hc with rfl | rfl <;> rfl

/-- The fraction is found by the point. -/
theorem cut_at_point : (d.whole ++ d.pointed).takeWhile (· != '.') = d.whole ∧
    ((d.whole ++ d.pointed).dropWhile (· != '.')).drop 1 = d.fraction := by
  have hwhole : ∀ c ∈ d.whole, (c != '.') = true := by
    intro c hc
    simpa using (ne_of_mem_digitChars (d.whole_digit hc)).1
  have hpointed : ∀ c ∈ d.pointed.head?, (c != '.') = false := by
    intro c hc
    rw [pointed] at hc
    cases hfraction : d.fraction? with
    | none => simp [hfraction] at hc
    | some cs =>
      rw [hfraction] at hc
      obtain rfl : '.' = c := Option.some.inj hc
      rfl
  obtain ⟨htake, hdrop⟩ := takeWhile_append hwhole hpointed
  refine ⟨htake, ?_⟩
  rw [hdrop, pointed, fraction]
  cases d.fraction? <;> rfl

/-- A float is the number nearest to what its text stands for. -/
theorem floatBits?_text : NumericLiteral.floatBits? d.text =
    some (Binary64.ofDecimal d.significand d.power) := by
  have hdigits : NumericLiteral.digitsValue? 10 (d.whole ++ d.fraction) = some d.significand :=
    NumericLiteral.digitsValue?_eq d.digits_ne_nil d.digit
  obtain ⟨hmantissa, hexponent⟩ := d.cut_at_mark
  obtain ⟨hwhole, hfraction⟩ := d.cut_at_point
  simp only [NumericLiteral.floatBits?, hmantissa, hexponent, hwhole, hfraction, hdigits]
  cases h : d.exponent? with
  | none => simp [scaled, power, h]
  | some e => simp [scaled, power, h, Exponent.text, e.exponentValue?_eq]

theorem any_mark : (d.text.any fun c => c == 'e' || c == 'E') = d.exponent?.isSome := by
  have hmantissa : (d.whole ++ d.pointed).any (fun c => c == 'e' || c == 'E') = false := by
    obtain ⟨htake, -⟩ := d.cut_at_mark
    rw [← htake, List.any_eq_false]
    intro c hc
    simpa using List.all_eq_true.1 List.all_takeWhile c hc
  rw [text, ← List.append_assoc, List.any_append, hmantissa, Bool.false_or, scaled]
  cases d.exponent? with
  | none => rfl
  | some e => rcases e.mark_eq with h | h <;> simp [Exponent.text, h]

theorem any_point : (d.text.any fun c => c == '.') = d.fraction?.isSome := by
  have hwhole : d.whole.any (fun c => c == '.') = false := by
    rw [List.any_eq_false]
    intro c hc
    simpa using (ne_of_mem_digitChars (d.whole_digit hc)).1
  have hscaled : d.scaled.any (fun c => c == '.') = false := by
    rw [List.any_eq_false]
    intro c hc
    rcases d.scaled_cases hc with hc | hc
    · simp only [List.mem_cons, List.not_mem_nil, or_false] at hc
      rcases hc with rfl | rfl | rfl | rfl <;> decide
    · simpa using (ne_of_mem_digitChars hc).1
  rw [text, List.any_append, List.any_append, hwhole, hscaled, pointed]
  cases d.fraction? <;> simp

theorem isScientific_text (suffixText : List Char) :
    (NumericLiteral.mk .decimal d.text suffixText).isScientific = d.exponent?.isSome := by
  rw [NumericLiteral.isScientific, ← d.any_mark]
  rfl

theorem isFractional_text (suffixText : List Char) :
    (NumericLiteral.mk .decimal d.text suffixText).isFractional = !d.isWhole := by
  have hany : (d.text.any fun c => c == '.' || c == 'e' || c == 'E') =
      (d.fraction?.isSome || d.exponent?.isSome) := by
    rw [← d.any_mark, ← d.any_point, Bool.eq_iff_iff]
    simp only [Bool.or_assoc, Bool.or_eq_true, List.any_eq_true, and_or_left, exists_or]
  have hdecimal : (NumericLiteral.mk .decimal d.text suffixText).isFractional =
      d.text.any fun c => c == '.' || c == 'e' || c == 'E' := rfl
  rw [hdecimal, hany, isWhole]
  cases d.fraction? <;> cases d.exponent? <;> rfl

end Decimal

namespace NumericLiteral

/-- The value of a literal of digits only: their value by place, if that fits into 63 bits. -/
theorem value?_integer {x : NumericLiteral} (hne : x.digits ≠ [])
    (hdigits : ∀ c ∈ x.digits, c ∈ x.base.digitChars) :
    x.value? = if x.base.positional x.digits ≤ 2 ^ 63 - 1
      then some (.integer (x.base.positional x.digits)) else none := by
  have hwhole : x.isFractional = false := by
    rw [isFractional, Bool.and_eq_false_imp]
    intro hbase
    rw [List.any_eq_false]
    intro c hc
    have hplain := ne_of_mem_digitChars (eq_of_beq hbase ▸ hdigits c hc)
    simp [hplain.1, hplain.2.1, hplain.2.2.1]
  have hmax : maxInteger = 2 ^ 63 - 1 := by decide
  rw [value?, if_neg (by simp [hwhole]), digitsValue?_eq hne hdigits, hmax]
  by_cases hle : x.base.positional x.digits ≤ 2 ^ 63 - 1
  · rw [if_pos hle, Option.filter_some, if_pos (decide_eq_true hle)]
    rfl
  · rw [if_neg hle, Option.filter_some, if_neg (by rwa [decide_eq_true_eq])]
    rfl

/-- The value of a decimal number with a point or an exponent: the float nearest to it. -/
theorem value?_float (d : Decimal) (h : d.isWhole = false) (suffixText : List Char) :
    value? ⟨.decimal, d.text, suffixText⟩ = some (.float (Binary64.ofDecimal d.significand d.power)) := by
  have hfractional := d.isFractional_text suffixText
  rw [h, Bool.not_false] at hfractional
  rw [value?, if_pos hfractional, d.floatBits?_text]
  rfl

end NumericLiteral

end CRBasic
