import CRBasic.Proofs.Number.Lexing
import CRBasic.Proofs.Roles.Operands

/-!
# Numbers

Every number of a tree has one word, a number of the text, and its parts are those with which this is
spelled (`number_decoded`).
-/

namespace CRBasic

open Grammar

theorem Grammar.Arises.exists_number {words : List Word} {n : Nat} {problems : List Report} {d : Draft}
    (h : Arises words problems n d) (hkind : d.kind = .numberLiteral) :
    ∃ w : Word, d.pieces = [.word w] ∧ w.kind = .number := by
  cases h with
  | loop => cases hkind
  | conditional => cases hkind
  | scan hscan => rcases hscan with rfl | rfl <;> cases hkind
  | operation _ _ hbinary => cases hkind.symm.trans hbinary
  | @number w hw => exact ⟨w, rfl, hw⟩
  | other h =>
    rw [hkind] at h
    rcases h with h | h <;> cases h

/-- Whether a literal is an integer: a decimal one has neither a point nor an exponent. -/
def NumericLiteral.IsIntegral (x : NumericLiteral) : Prop :=
  x.base = .decimal → ∀ c ∈ x.digits, c ≠ '.' ∧ c ≠ 'e' ∧ c ≠ 'E'

theorem NumericLiteral.isIntegral_of_digits {x : NumericLiteral}
    (h : ∀ c ∈ x.digits, c ∈ x.base.digitChars) : x.IsIntegral := by
  intro hbase c hc
  have hplain := ne_of_mem_digitChars (hbase ▸ h c hc)
  exact ⟨hplain.1, hplain.2.1, hplain.2.2.1⟩

theorem Decimal.not_isIntegral (d : Decimal) (h : d.isWhole = false) (suffixText : List Char) :
    ¬ (NumericLiteral.mk .decimal d.text suffixText).IsIntegral := by
  intro hintegral
  have hfractional := d.isFractional_text suffixText
  rw [h, Bool.not_false, NumericLiteral.isFractional, Bool.and_eq_true, List.any_eq_true] at hfractional
  obtain ⟨-, c, hc, hmark⟩ := hfractional
  obtain ⟨hpoint, he, hE⟩ := hintegral rfl c hc
  simp [hpoint, he, hE] at hmark

namespace View

/-- Every number of a tree has one word, which is a number of the text. -/
theorem exists_numberWord (options : ParseOptions) (source : List Char) (v : View .numberLiteral)
    (hv : v.node ∈ (parseWith options source).tree.nodes 0) :
    ∃ x : Leaf, v.node.words = [x] ∧ x.kind = .number ∧ x.lexeme ∈ lexemes source := by
  obtain ⟨d, front, hstands, harises⟩ := exists_arises options source hv
  obtain ⟨w, hpieces, hw⟩ := harises.exists_number (hstands.kind_eq.symm.trans v.kind_eq)
  have hshow : Element.ShowAll v.node.elements ([] ++ .word w :: []) := hpieces ▸ hstands.showAll
  obtain ⟨us, x, vs, hes, hx, hlexeme, hus, hvs⟩ := hshow.exists_word
  have hkind : x.kind = .number := (congrArg Lexeme.kind hlexeme).trans hw
  obtain ⟨⟨back, hback⟩, -⟩ := hstands.exists_back hes
  have hnoWord {es : List Element} (h : Element.ShowAll es []) : es.filterMap (·.word?) = [] :=
    List.filterMap_eq_nil_iff.2 (@Element.ShowAll.of_node es none h).2
  refine ⟨x, ?_, hkind, ?_⟩
  · have hword : (Element.leaf x).word? = some x := by
      rw [Element.word?_leaf, hx]
      rfl
    rw [Node.words, hes, List.filterMap_append, hnoWord hus, List.filterMap_cons_some hword,
      hnoWord hvs]
    rfl
  · rw [hback]
    simp [Element.lexemes]

end View

/-- Every number of a tree is a word of the text, and its parts are those with which this is spelled, in the
only way there is.  Its value is that of its digits: as an integer, if that fits into 63 bits, or as the
float nearest to it. -/
theorem number_decoded (options : ParseOptions) (source : List Char) (v : View .numberLiteral)
    (hv : v.node ∈ (parseWith options source).tree.nodes 0) :
    ∃ (x : Leaf) (z : NumericLiteral) (suffix? : Option NumericSuffix),
      v.numberWord? = some x ∧ x.lexeme ∈ lexemes source ∧ z.Spells suffix? x.text ∧
      (∀ z' other?, z'.Spells other? x.text → z' = z ∧ other? = suffix?) ∧
      v.base? = some z.base ∧ v.suffix? = suffix? ∧ (v.suffix? = none ↔ z.suffixText = []) ∧
      (v.isScientific ↔ z.base = .decimal ∧ ∃ c ∈ z.digits, c = 'e' ∨ c = 'E') ∧
      (z.IsIntegral → v.numberValue? =
        if z.base.positional z.digits ≤ 2 ^ 63 - 1 then some (.integer (z.base.positional z.digits))
        else none) ∧
      (¬ z.IsIntegral → ∃ d : Decimal, z.digits = d.text ∧ v.isScientific = d.exponent?.isSome ∧
        v.numberValue? = some (.float (Binary64.ofDecimal d.significand d.power))) := by
  obtain ⟨x, hwords, hkind, hmem⟩ := v.exists_numberWord options source hv
  obtain ⟨z, suffix?, hspells, hdigits⟩ := spelled_of_mem_lexemes hmem hkind
  have hword : v.numberWord? = some x := by
    rw [View.numberWord?, Node.firstWord?, hwords]
    simp [hkind]
  have hliteral : v.literal? = some z := by
    rw [View.literal?, hword, Option.map_some]
    exact congrArg some hspells.ofText_eq
  have hsuffix : v.suffix? = suffix? := by
    rw [View.suffix?, hliteral, Option.bind_some, hspells.suffix?_eq]
  have hscientific : v.isScientific = z.isScientific := by
    rw [View.isScientific, hliteral, Option.any_some]
  have hvalue : v.numberValue? = z.value? := by
    rw [View.numberValue?, hliteral, Option.bind_some]
  refine ⟨x, z, suffix?, hword, hmem, hspells, fun _ _ h => hspells.unique h, ?_, hsuffix, ?_, ?_, ?_, ?_⟩
  · rw [View.base?, hliteral, Option.map_some]
  · rw [hsuffix, hspells.suffix?_eq_none_iff]
  · rw [hscientific, NumericLiteral.isScientific]
    simp
  · intro hintegral
    rcases hdigits with hdigits | ⟨d, hd, hbase, htext⟩
    · rw [hvalue, NumericLiteral.value?_integer hspells.digits_ne_nil hdigits]
    · obtain ⟨base, digits, suffixText⟩ := z
      obtain rfl : base = .decimal := hbase
      obtain rfl : digits = d.text := htext
      exact absurd hintegral (d.not_isIntegral hd suffixText)
  · intro hfloat
    rcases hdigits with hdigits | ⟨d, hd, hbase, htext⟩
    · exact absurd (NumericLiteral.isIntegral_of_digits hdigits) hfloat
    · obtain ⟨base, digits, suffixText⟩ := z
      obtain rfl : base = .decimal := hbase
      obtain rfl : digits = d.text := htext
      refine ⟨d, rfl, ?_, ?_⟩
      · rw [hscientific, d.isScientific_text]
      · rw [hvalue, NumericLiteral.value?_float d hd]

/-- In `x = 1.5E-3f` the `E` belongs to the digits and the `f` is the suffix. -/
theorem number_decoded_scientific :
    ∃ v : View .numberLiteral, v.node ∈ (parseWith {} "x = 1.5E-3f".toList).tree.nodes 0 ∧
      ∃ (x : Leaf) (z : NumericLiteral) (suffix? : Option NumericSuffix),
        v.numberWord? = some x ∧ x.text = "1.5E-3f".toList ∧ z.Spells suffix? x.text ∧
        suffix? = some .float ∧ z.base = .decimal ∧ z.digits = "1.5E-3".toList ∧ v.isScientific := by
  have hnodes : (((parseWith {} "x = 1.5E-3f".toList).tree.nodes 0).filterMap
      (View.ofNode? .numberLiteral)).map (fun v => (v.numberWord?.map (·.text), v.suffix?, v.isScientific)) =
        [(some "1.5E-3f".toList, some .float, true)] := by
    decide +kernel
  obtain ⟨v, vs, hviews, hparts, -⟩ := List.map_eq_cons_iff.1 hnodes
  obtain ⟨htext, hfloat, hscientific⟩ : v.numberWord?.map (·.text) = some "1.5E-3f".toList ∧
      v.suffix? = some .float ∧ v.isScientific = true := by simpa using hparts
  have hmem : v.node ∈ (parseWith {} "x = 1.5E-3f".toList).tree.nodes 0 :=
    View.node_mem (by rw [hviews]; exact List.mem_cons_self)
  obtain ⟨x, z, suffix?, hword, -, hspells, -, -, hsuffix, -⟩ := number_decoded {} _ v hmem
  rw [hword, Option.map_some, Option.some.injEq] at htext
  have hliteral : z = ⟨.decimal, "1.5E-3".toList, ['f']⟩ := by
    rw [← hspells.ofText_eq, htext]
    decide
  refine ⟨v, hmem, x, z, suffix?, hword, htext, hspells, hsuffix.symm.trans hfloat, ?_, ?_, hscientific⟩
  · rw [hliteral]
  · rw [hliteral]

end CRBasic
