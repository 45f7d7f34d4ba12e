import CRBasic.Proofs.Lexer.Tiling

/-!
# Lexemes that stand alone

A name, a number, a string or a spelled lexeme is read as such also when a space follows, whatever
comes after the space (`standalone_of_longestMatch`).
-/

namespace CRBasic

theorem CharSet.contains_these {cs : List Char} {c : Char} :
    (CharSet.these cs).contains c ↔ c ∈ cs := by
  have hbounds (d : Char) : d ≤ c ∧ c ≤ d ↔ d = c := by
    constructor
    · exact fun h => Char.le_antisymm h.1 h.2
    · rintro rfl
      exact ⟨Char.le_refl d, Char.le_refl d⟩
  simp [CharSet.contains, CharSet.these, List.any_map, hbounds]

theorem CharSet.contains_allBut {cs : List Char} {c : Char} :
    (CharSet.allBut cs).contains c = !(CharSet.these cs).contains c := by
  simp only [contains, allBut, these, Bool.bne_true, Bool.bne_false]

namespace Pattern

variable {p : Pattern} {c : Char} {u v : List Char}

/-! ### Characters of a pattern -/

/-- Whether no set of a pattern holds a character. -/
def avoids (c : Char) : Pattern → Bool
  | .nothing | .empty => true
  | .oneOf s => !s.contains c
  | .seq p q | .either p q => p.avoids c && q.avoids c
  | .star p => p.avoids c

theorem not_mem_of_avoids (h : p.avoids c) (hu : Matches p u) : c ∉ u := by
  induction hu with
  | empty => exact List.not_mem_nil
  | oneOf hd =>
    rintro (_ | ⟨_, ⟨⟩⟩)
    simp [avoids, hd] at h
  | seq _ _ ihu ihv =>
    rw [avoids, Bool.and_eq_true] at h
    rw [List.mem_append]
    exact fun hc => hc.elim (ihu h.1) (ihv h.2)
  | first q _ ih =>
    rw [avoids, Bool.and_eq_true] at h
    exact ih h.1
  | second p _ ih =>
    rw [avoids, Bool.and_eq_true] at h
    exact ih h.2
  | starNil => exact List.not_mem_nil
  | starCons _ _ ihu ihv =>
    rw [List.mem_append]
    exact fun hc => hc.elim (ihu h) (ihv h)

/-- Whether a pattern is a sequence that starts with one of some characters. -/
def startsWithin (cs : List Char) : Pattern → Bool
  | .oneOf s => !s.complement && s.ranges.all fun (lo, hi) => lo == hi && cs.contains lo
  | .seq p _ => p.startsWithin cs
  | _ => false

theorem exists_of_startsWithin {cs : List Char} (h : p.startsWithin cs) (hu : Matches p u) :
    ∃ c v, u = c :: v ∧ c ∈ cs := by
  induction hu with
  | @oneOf s c hc =>
    simp only [startsWithin, Bool.and_eq_true, Bool.not_eq_true', List.all_eq_true,
      beq_iff_eq, List.contains_eq_mem, decide_eq_true_eq] at h
    obtain ⟨hcomplement, hranges⟩ := h
    rw [CharSet.contains, hcomplement, Bool.bne_false, List.any_eq_true] at hc
    obtain ⟨⟨lo, hi⟩, hmem, hbounds⟩ := hc
    obtain ⟨heq, hlo⟩ : lo = hi ∧ lo ∈ cs := hranges (lo, hi) hmem
    rw [Bool.and_eq_true, decide_eq_true_eq, decide_eq_true_eq, ← heq] at hbounds
    rw [Char.le_antisymm hbounds.1 hbounds.2] at hlo
    exact ⟨c, [], rfl, hlo⟩
  | seq _ _ ihu _ =>
    obtain ⟨c, w, rfl, hc⟩ := ihu h
    exact ⟨c, _, rfl, hc⟩
  | _ => cases h

theorem not_matches_of_derivative (h : (p.derivative c).isNothing) : ¬ Matches p (c :: u) := by
  rw [← matches_derivative]
  cases hp : p.derivative c with
  | nothing => exact not_matches_nothing u
  | _ => simp [hp, isNothing] at h

/-! ### Longest matches of longer texts -/

/-- Text after a start that no match goes past changes nothing. -/
theorem longest_append (h : ∀ w, w <+: v → w ≠ [] → ¬ Matches p (u ++ w)) :
    p.longest (u ++ v) = p.longest u := by
  have hle {m : Nat} (hm : m ≤ (u ++ v).length) (hmatch : Matches p ((u ++ v).take m)) :
      m ≤ u.length := by
    refine Nat.le_of_not_lt fun hlt => ?_
    obtain ⟨j, rfl⟩ := Nat.exists_eq_add_of_lt hlt
    rw [Nat.add_assoc, List.take_length_add_append] at hmatch
    refine h _ (List.take_prefix (j + 1) v) (fun hnil => ?_) hmatch
    rcases List.take_eq_nil_iff.1 hnil with hj | rfl
    · cases hj
    · rw [List.append_nil] at hm
      omega
  cases hlongest : p.longest (u ++ v) with
  | none =>
    rw [longest_eq_none_iff] at hlongest
    refine (longest_eq_none_iff.2 fun m hm => ?_).symm
    rcases Nat.le_total m u.length with hm' | hm'
    · exact hlongest m (by rwa [List.take_append_of_le_length hm'])
    · rw [List.take_of_length_le hm'] at hm
      exact hlongest u.length (by rwa [List.take_left])
  | some n =>
    rw [longest_eq_some_iff] at hlongest
    have hn := hle hlongest.le_length hlongest.matches_take
    refine (longest_eq_some_iff.2 ⟨hn, ?_, fun {m} hm hmatch => ?_⟩).symm
    · have hmatch := hlongest.matches_take
      rwa [List.take_append_of_le_length hn] at hmatch
    · refine hlongest.le (Nat.le_trans hm ?_) (by rwa [List.take_append_of_le_length hm])
      rw [List.length_append]
      exact Nat.le_add_right _ _

end Pattern

namespace Lexer

open Pattern

variable {c : Char} {u v text : List Char} {k : TokenKind} {n : Nat}

/-! ### Longest matches of the rules -/

/-- Text after a start that no match of a rule goes past changes nothing. -/
theorem longestMatch_append
    (h : ∀ r ∈ rules, ∀ w, w <+: v → w ≠ [] → ¬ Matches r.pattern (u ++ w)) :
    longestMatch (u ++ v) = longestMatch u := by
  unfold longestMatch
  generalize (none : Option (TokenKind × Nat)) = best
  revert h
  generalize rules = rs
  intro h
  induction rs generalizing best with
  | nil => rfl
  | cons r rs ih =>
    have hr := longest_append (h r List.mem_cons_self)
    simp only [List.foldl_cons, better, hr]
    exact ih _ fun r' hr' => h r' (List.mem_cons_of_mem r hr')

/-- Spaces, tabs, form feeds, apostrophes and double quotes. -/
def blanksAndQuotes : List Char := [' ', '\t', '\x0c', '\x27', '\x22']

theorem avoids_or_startsWithin_rules : ∀ r ∈ rules,
    r.pattern.avoids ' ' ∨ r.pattern.startsWithin blanksAndQuotes := by
  decide +kernel

/-- A text that does not start with a blank or a quote is read alike before a space. -/
theorem longestMatch_append_space (hc : c ∉ blanksAndQuotes) :
    longestMatch (c :: u ++ ' ' :: v) = longestMatch (c :: u) := by
  refine longestMatch_append fun r hr w hw hne hmatch => ?_
  obtain ⟨w, rfl⟩ : ∃ w', w = ' ' :: w' := by
    rcases List.prefix_cons_iff.1 hw with rfl | ⟨w', rfl, -⟩
    · exact absurd rfl hne
    · exact ⟨w', rfl⟩
  rcases avoids_or_startsWithin_rules r hr with havoids | hstarts
  · exact not_mem_of_avoids havoids hmatch (by simp)
  · obtain ⟨d, w', heq, hmem⟩ := exists_of_startsWithin hstarts hmatch
    cases heq
    exact hc hmem

/-! ### Strings -/

/-- The characters that stand for themselves in a string. -/
def plainChars : CharSet := .allBut ['\x22', '\\', '\r', '\n']

/-- What may stand in a string: one character, or a backslash and the character after it. -/
def stringItem : Pattern :=
  .either (.oneOf plainChars) (.seq (chars ['\\']) (.oneOf (.allBut ['\r', '\n'])))

theorem matches_char (h : Matches (chars [c]) u) : u = [c] := by
  obtain ⟨d, rfl, hd⟩ := matches_oneOf.1 h
  rw [List.mem_singleton.1 (CharSet.contains_these.1 hd)]

theorem matches_stringItem (h : Matches stringItem u) :
    (∃ c, u = [c] ∧ plainChars.contains c) ∨ ∃ c, u = ['\\', c] := by
  rcases matches_either.1 h with h | h
  · exact .inl (matches_oneOf.1 h)
  · obtain ⟨v, w, rfl, hv, hw⟩ := matches_seq.1 h
    obtain ⟨c, rfl, -⟩ := matches_oneOf.1 hw
    rw [matches_char hv]
    exact .inr ⟨c, rfl⟩

/-- Between its quotes a string has no quote that a backslash does not join. -/
theorem not_isPrefix_of_matches {body : List Char} (hu : Matches (star stringItem) u)
    (hbody : Matches (star stringItem) body) : ¬ u ++ ['\x22'] <+: body := by
  generalize hp : star stringItem = p at hu
  induction hu generalizing body with
  | starNil p =>
    rintro ⟨v, rfl⟩
    refine not_matches_of_derivative ?_ hbody
    decide
  | @starCons p u v hu _ _ ih =>
    cases hp
    rintro ⟨w, rfl⟩
    rcases matches_stringItem hu with ⟨c, rfl, hc⟩ | ⟨c, rfl⟩
    · obtain ⟨x, y, heq, hx, hy⟩ := matches_star_cons.1 hbody
      rcases matches_stringItem hx with ⟨d, hd, -⟩ | ⟨d, hd⟩
      · cases hd
        exact ih hy rfl ⟨w, heq⟩
      · cases hd
        cases hc
    · obtain ⟨x, y, heq, hx, hy⟩ := matches_star_cons.1 hbody
      rcases matches_stringItem hx with ⟨d, hd, hplain⟩ | ⟨d, hd⟩
      · cases hd
        cases hplain
      · cases hd
        cases heq
        exact ih hy rfl ⟨w, rfl⟩
  | _ => cases hp

/-- A string, open or closed, that starts with a closed one is that one. -/
theorem eq_nil_of_open {body w x : List Char} (hu : Matches (star stringItem) u)
    (hbody : Matches (star stringItem) body) (hx : x.length ≤ 1)
    (h : '\x22' :: u ++ ['\x22'] ++ w = '\x22' :: body ++ x) : w = [] := by
  have heq : u ++ ['\x22'] ++ w = body ++ x := (List.cons.inj h).2
  have hlength := congrArg List.length heq
  by_cases hw : w = []
  · exact hw
  have hpos := List.length_pos_iff.2 hw
  exfalso
  refine not_isPrefix_of_matches hu hbody ?_
  refine List.prefix_of_prefix_length_le (heq ▸ List.prefix_append _ w)
    (List.prefix_append body x) ?_
  simp only [List.length_append] at hlength ⊢
  omega

theorem matches_closedString (h : Matches closedString u) :
    ∃ body, u = '\x22' :: body ++ ['\x22'] ∧ Matches (star stringItem) body := by
  obtain ⟨v, w, rfl, hv, hw⟩ := matches_seq.1 h
  obtain ⟨x, body, rfl, hx, hbody⟩ := matches_seq.1 hv
  rw [matches_char hx, matches_char hw]
  exact ⟨body, rfl, hbody⟩

theorem matches_unclosedString (h : Matches unclosedString u) :
    ∃ body x, u = '\x22' :: body ++ x ∧ Matches (star stringItem) body ∧
      (x = [] ∨ x = ['\\']) := by
  obtain ⟨v, w, rfl, hv, hw⟩ := matches_seq.1 h
  obtain ⟨x, body, rfl, hx, hbody⟩ := matches_seq.1 hv
  rw [matches_char hx]
  refine ⟨body, w, rfl, hbody, ?_⟩
  exact (matches_either.1 hw).symm.imp matches_empty.1 matches_char

theorem quote_rules : ∀ r ∈ rules, r.pattern = closedString ∨ r.pattern = unclosedString ∨
    (r.pattern.derivative '\x22').isNothing := by
  decide +kernel

/-- A closed string is read alike before any text. -/
theorem longestMatch_append_of_closed (h : Matches closedString u) :
    longestMatch (u ++ v) = longestMatch u := by
  obtain ⟨body, rfl, hbody⟩ := matches_closedString h
  refine longestMatch_append fun r hr w _ hne hmatch => ?_
  rcases quote_rules r hr with hr | hr | hr
  · rw [hr] at hmatch
    obtain ⟨body', heq, hbody'⟩ := matches_closedString hmatch
    exact hne (eq_nil_of_open hbody hbody' (Nat.le_refl ['\x22'].length) heq)
  · rw [hr] at hmatch
    obtain ⟨body', x, heq, hbody', hx⟩ := matches_unclosedString hmatch
    have hlength : x.length ≤ 1 := by rcases hx with rfl | rfl <;> decide
    exact hne (eq_nil_of_open hbody hbody' hlength heq)
  · exact not_matches_of_derivative hr hmatch

/-! ### Lexemes before a space -/

/-- A lexeme that is read as such at the end of a text and before a space. -/
structure Standalone (x : Lexeme) : Prop where
  atEnd : longestMatch x.text = some (x.kind, x.text.length)
  beforeSpace : ∀ v, longestMatch (x.text ++ ' ' :: v) = some (x.kind, x.text.length)
  head : ∃ c cs, x.text = c :: cs ∧ c ∉ [' ', '\t', '\x0c']
  kind_ne : x.kind ≠ .kwUnits

theorem standalone_of_head {x : Lexeme} (h : longestMatch x.text = some (x.kind, x.text.length))
    (hhead : ∃ c cs, x.text = c :: cs ∧ c ∉ blanksAndQuotes) (hkind : x.kind ≠ .kwUnits) :
    Standalone x := by
  obtain ⟨c, cs, htext, hc⟩ := hhead
  refine ⟨h, fun v => ?_, ⟨c, cs, htext, fun hmem => hc ?_⟩, hkind⟩
  · rw [← h, htext]
    exact longestMatch_append_space hc
  · exact List.mem_append_left ['\x27', '\x22'] hmem

/-- A lexeme is a text of the pattern of a rule for its kind. -/
theorem exists_rule_of_longestMatch {x : Lexeme}
    (h : longestMatch x.text = some (x.kind, x.text.length)) :
    ∃ r ∈ rules, r.kind = x.kind ∧ Matches r.pattern x.text := by
  rcases exists_rule_of_better h with h | ⟨r, hr, hkind, hn⟩
  · cases h
  · have hmatch := (longest_eq_some_iff.1 hn).matches_take
    rw [List.take_length] at hmatch
    exact ⟨r, hr, hkind, hmatch⟩

theorem exists_head {x : Lexeme} (h : longestMatch x.text = some (x.kind, x.text.length)) :
    ∃ c cs, x.text = c :: cs :=
  List.exists_cons_of_length_pos (longestMatch_bounds h).1

theorem derivative_rules_wordLike : ∀ r ∈ rules, r.kind = .ident ∨ r.kind = .number →
    blanksAndQuotes.all fun c => (r.pattern.derivative c).isNothing := by
  decide +kernel

theorem standalone_of_wordLike {x : Lexeme} (hkind : x.kind = .ident ∨ x.kind = .number)
    (h : longestMatch x.text = some (x.kind, x.text.length)) : Standalone x := by
  obtain ⟨r, hr, hrkind, hmatch⟩ := exists_rule_of_longestMatch h
  obtain ⟨c, cs, htext⟩ := exists_head h
  rw [htext] at hmatch
  have hunits : x.kind ≠ .kwUnits := by rcases hkind with hk | hk <;> simp [hk]
  refine standalone_of_head h ⟨c, cs, htext, fun hc => ?_⟩ hunits
  have hall := derivative_rules_wordLike r hr (hrkind ▸ hkind)
  exact not_matches_of_derivative (List.all_eq_true.1 hall c hc) hmatch

theorem pattern_rules_quotedString : ∀ r ∈ rules, r.kind = .quotedString →
    r.pattern = closedString := by
  decide +kernel

theorem closedString_of_quotedString {x : Lexeme} (hkind : x.kind = .quotedString)
    (h : longestMatch x.text = some (x.kind, x.text.length)) : Matches closedString x.text := by
  obtain ⟨r, hr, hrkind, hmatch⟩ := exists_rule_of_longestMatch h
  rwa [pattern_rules_quotedString r hr (hrkind.trans hkind)] at hmatch

theorem standalone_of_quotedString {x : Lexeme} (hkind : x.kind = .quotedString)
    (h : longestMatch x.text = some (x.kind, x.text.length)) : Standalone x := by
  have hmatch := closedString_of_quotedString hkind h
  refine ⟨h, fun v => h ▸ longestMatch_append_of_closed hmatch, ?_, by simp [hkind]⟩
  obtain ⟨body, htext, -⟩ := matches_closedString hmatch
  exact ⟨'\x22', body ++ ['\x22'], htext, by decide⟩

/-! ### Blanks -/

theorem blanks_rules : ∀ r ∈ rules, r.pattern = blanks ∨
    [' ', '\t', '\x0c'].all fun c => (r.pattern.derivative c).isNothing := by
  decide +kernel

theorem head_of_matches_blanks (h : Matches blanks u) : ∃ c w, u = c :: w ∧ c ∈ [' ', '\t', '\x0c'] := by
  obtain ⟨v, w, rfl, hv, -⟩ := matches_seq.1 h
  obtain ⟨c, rfl, hc⟩ := matches_oneOf.1 hv
  exact ⟨c, w, rfl, CharSet.contains_these.1 hc⟩

/-- Blanks are read alike before something else than a blank. -/
theorem longestMatch_blanks (hu : Matches blanks u) (hc : c ∉ [' ', '\t', '\x0c']) :
    longestMatch (u ++ c :: v) = longestMatch u := by
  obtain ⟨d, u, rfl, hd⟩ := head_of_matches_blanks hu
  refine longestMatch_append fun r hr w hw hne hmatch => ?_
  obtain ⟨w, rfl⟩ : ∃ w', w = c :: w' := by
    rcases List.prefix_cons_iff.1 hw with rfl | ⟨w', rfl, -⟩
    · exact absurd rfl hne
    · exact ⟨w', rfl⟩
  rcases blanks_rules r hr with hr | hr
  · rw [hr] at hmatch
    refine not_mem_of_avoids (c := c) ?_ hmatch (by simp)
    have hset : (CharSet.these [' ', '\t', '\x0c']).contains c = false := by
      rw [← Bool.not_eq_true, CharSet.contains_these]
      exact hc
    simp [blanks, plus, chars, avoids, hset]
  · exact not_matches_of_derivative (List.all_eq_true.1 hr d hd) hmatch

/-- A space before something else than a blank is read alone. -/
theorem longestMatch_space (hc : c ∉ [' ', '\t', '\x0c']) :
    longestMatch (' ' :: c :: u) = some (.whitespace, 1) := by
  have hspace : longestMatch [' '] = some (.whitespace, 1) := by decide +kernel
  have hblank : Matches blanks ([' '] ++ []) := .seq (.oneOf rfl) (.starNil _)
  rw [List.append_nil] at hblank
  rw [← hspace]
  exact longestMatch_blanks (u := [' ']) hblank hc

end Lexer

end CRBasic
