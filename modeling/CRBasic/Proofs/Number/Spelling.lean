import CRBasic.Number.Literal

/-!
# Spellings of numeric literals

A text has at most one way to be a mark, digits of the radix of the mark and the spelling of a suffix, and
a literal is split that way (`NumericLiteral.Spells.ofText_eq`): no letter of a suffix is a digit, so what
is taken from the end stops at the digits and leaves nothing of the suffix behind.
-/

namespace CRBasic

namespace NumericBase

/-- The marks of a radix. -/
def marks : NumericBase → List (List Char)
  | .binary => [['&', 'b'], ['&', 'B']]
  | .hexadecimal => [['&', 'h'], ['&', 'H']]
  | .decimal => [[]]

/-- The characters that digits are written with.  Those of a decimal number may hold a point and an
exponent. -/
def alphabet : NumericBase → List Char
  | .binary => "01".toList
  | .hexadecimal => "0123456789abcdefABCDEF".toList
  | .decimal => "0123456789.eE+-".toList

theorem alphabet_not_suffixLetters (base : NumericBase) :
    base.alphabet.all fun c => !base.suffixLetters.contains c.toLower := by
  cases base <;> decide

theorem mark_not_mem_alphabet : '&' ∉ decimal.alphabet := by
  decide

end NumericBase

namespace NumericSuffix

/-- The spellings of a suffix, in lower case. -/
def spellings : NumericSuffix → List (List Char)
  | .long => [['l']]
  | .unsigned => [['u']]
  | .unsignedLong => [['u', 'l'], ['l', 'u']]
  | .float => [['f']]

/-- Whether a suffix may stand behind digits of a radix. -/
def suits (base : NumericBase) (s : NumericSuffix) : Bool :=
  !(base == .hexadecimal && s == .float)

theorem ofText?_of_mem {s : NumericSuffix} {text : List Char}
    (h : text.map Char.toLower ∈ s.spellings) : ofText? text = some s := by
  rw [ofText?]
  generalize text.map Char.toLower = lower at h ⊢
  cases s <;> simp only [spellings, List.mem_cons, List.not_mem_nil, or_false] at h
  case unsignedLong => obtain rfl | rfl := h <;> rfl
  all_goals
    subst h
    rfl

theorem spellings_suffixLetters (base : NumericBase) (s : NumericSuffix) (hs : s.suits base) :
    s.spellings.all fun text => text.all base.suffixLetters.contains := by
  cases base <;> cases s <;> first | decide | cases hs

end NumericSuffix

namespace NumericLiteral

/-- How a text is spelled: it is a mark, digits and the spelling of a suffix, if there is one. -/
structure Spells (x : NumericLiteral) (suffix? : Option NumericSuffix) (text : List Char) : Prop where
  text_eq : ∃ mark ∈ x.base.marks, text = mark ++ (x.digits ++ x.suffixText)
  digits_ne_nil : x.digits ≠ []
  digit : ∀ c ∈ x.digits, c ∈ x.base.alphabet
  none : suffix? = none → x.suffixText = []
  some : ∀ s ∈ suffix?, x.suffixText.map Char.toLower ∈ s.spellings ∧ s.suits x.base

variable {x : NumericLiteral} {suffix? : Option NumericSuffix} {text letters digits suffix : List Char}

/-! ### Suffixes -/

theorem splitSuffix_suffix (h : ∀ c ∈ suffix, letters.contains c.toLower) :
    splitSuffix letters suffix = ([], suffix) := by
  induction suffix with
  | nil => rfl
  | cons c suffix ih =>
    obtain ⟨hc, hsuffix⟩ := List.forall_mem_cons.1 h
    rw [splitSuffix, ih hsuffix]
    simp only [hc, if_true]

/-- Letters are taken from the end until one is none of the suffix. -/
theorem splitSuffix_append (hdigits : ∀ c ∈ digits, letters.contains c.toLower = false)
    (hsuffix : ∀ c ∈ suffix, letters.contains c.toLower) :
    splitSuffix letters (digits ++ suffix) = (digits, suffix) := by
  induction digits with
  | nil => exact splitSuffix_suffix hsuffix
  | cons c digits ih =>
    obtain ⟨hc, hdigits⟩ := List.forall_mem_cons.1 hdigits
    rw [List.cons_append, splitSuffix, ih hdigits]
    cases digits with
    | nil => simp only [hc, Bool.false_eq_true, if_false]
    | cons d digits => rfl

theorem Spells.ofBody_eq (h : x.Spells suffix? text) :
    ofBody x.base (x.digits ++ x.suffixText) = x := by
  have hdigits : ∀ c ∈ x.digits, x.base.suffixLetters.contains c.toLower = false := by
    intro c hc
    simpa using List.all_eq_true.1 x.base.alphabet_not_suffixLetters c (h.digit c hc)
  have hsuffix : ∀ c ∈ x.suffixText, x.base.suffixLetters.contains c.toLower := by
    cases suffix? with
    | none => simp [h.none rfl]
    | some s =>
      obtain ⟨hmem, hsuits⟩ := h.some s rfl
      have hall := List.all_eq_true.1 (NumericSuffix.spellings_suffixLetters x.base s hsuits) _ hmem
      intro c hc
      exact List.all_eq_true.1 hall _ (List.mem_map_of_mem hc)
  rw [ofBody, splitSuffix_append hdigits hsuffix]

theorem Spells.suffix?_eq (h : x.Spells suffix? text) : x.suffix? = suffix? := by
  cases suffix? with
  | none =>
    rw [NumericLiteral.suffix?, h.none rfl]
    rfl
  | some s => exact NumericSuffix.ofText?_of_mem (h.some s rfl).1

/-- A text is split into the parts that it is spelled with. -/
theorem Spells.ofText_eq (h : x.Spells suffix? text) : ofText text = x := by
  have hbody := h.ofBody_eq
  obtain ⟨mark, hmark, rfl⟩ := h.text_eq
  obtain ⟨base, digits, suffixText⟩ := x
  cases base with
  | decimal =>
    obtain rfl : mark = [] := by simpa [NumericBase.marks] using hmark
    cases digits with
    | nil => exact absurd rfl h.digits_ne_nil
    | cons c digits =>
      have hc : c ≠ '&' := by
        rintro rfl
        exact NumericBase.mark_not_mem_alphabet (h.digit '&' List.mem_cons_self)
      rw [List.nil_append, List.cons_append, ofText]
      · exact hbody
      all_goals
        intro body hother
        exact hc (List.cons.inj hother).1
  | binary =>
    obtain rfl | rfl : mark = ['&', 'b'] ∨ mark = ['&', 'B'] := by simpa [NumericBase.marks] using hmark
    · exact hbody
    · exact hbody
  | hexadecimal =>
    obtain rfl | rfl : mark = ['&', 'h'] ∨ mark = ['&', 'H'] := by simpa [NumericBase.marks] using hmark
    · exact hbody
    · exact hbody

/-- Only the empty text spells no suffix. -/
theorem Spells.suffix?_eq_none_iff (h : x.Spells suffix? text) : suffix? = .none ↔ x.suffixText = [] := by
  cases suffix? with
  | none => simp [h.none rfl]
  | some s =>
    have hmem := (h.some s rfl).1
    constructor
    · exact fun hnone => by cases hnone
    · intro hnil
      rw [hnil] at hmem
      cases s <;> simp [NumericSuffix.spellings] at hmem

/-- There is only one way to spell a text. -/
theorem Spells.unique (h : x.Spells suffix? text) {y : NumericLiteral} {other? : Option NumericSuffix}
    (hy : y.Spells other? text) : y = x ∧ other? = suffix? := by
  obtain rfl : y = x := hy.ofText_eq.symm.trans h.ofText_eq
  exact ⟨rfl, hy.suffix?_eq.symm.trans h.suffix?_eq⟩

end NumericLiteral

end CRBasic
