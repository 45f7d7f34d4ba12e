import CRBasic.Proofs.Lexer.Case
import CRBasic.Proofs.Lexer.Heads
import CRBasic.Proofs.Lexer.LineStarts
import CRBasic.Proofs.Spelling.Words
import Mathlib.Data.List.DropRight

/-!
# `Else If` in the place of `ElseIf`

At the start of a line, after blanks at most, the word `ElseIf` may be written as two words with a space
between them: the lexemes around it stay as they are (`lexemes_respelled`).
-/

namespace CRBasic

/-- The words `Else` and `If` with a space between them. -/
def Lexeme.elseIf : List Lexeme := [⟨.kwElse, "Else".toList⟩, Lexeme.space, ⟨.kwIf, "If".toList⟩]

namespace Lexer

open Lexeme Pattern

variable {cs rest u v : List Char} {c : Char} {e x y : Lexeme} {vs ys zs : List Lexeme}

/-! ### The two words -/

/-- The word `ElseIf` has the form of a name. -/
theorem matches_nameText_of_kwElseIf (h : munch cs = some (e, rest)) (he : e.kind = .kwElseIf) :
    Matches nameText e.text := by
  have hrules : ∀ r ∈ rules, r.kind = .kwElseIf → r.pattern = caseless "ElseIf" := by
    decide +kernel
  have hname : nameText.longest (lowered "ElseIf".toList) = some 6 := by decide +kernel
  obtain ⟨r, hr, hkind, hmatch⟩ := exists_rule_of_munch h (by simp [he])
  rw [hrules r hr (hkind.trans he)] at hmatch
  have hlowered := lowered_of_matches_caseless hmatch
  rw [← hlowered, longest_lowered (by decide +kernel), longest_eq_some_iff] at hname
  have hlength : e.text.length = 6 := by
    rw [← length_lowered, hlowered]
    rfl
  have hmatch := hname.matches_take
  rwa [List.take_of_length_le (Nat.le_of_eq hlength)] at hmatch

/-- After the letters of `If` every rule goes on with what a name goes on with, or not at all. -/
theorem derivative_rules_if : ∀ r ∈ rules,
    (r.pattern.derivative 'I').derivative 'f' ∈ [nothing, empty, star (.oneOf .nameRest)] := by
  decide +kernel

theorem longestMatch_if (hv : ∀ c, v.head? = some c → CharSet.nameRest.contains c = false) :
    longestMatch ('I' :: 'f' :: v) = some (.kwIf, 2) := by
  have hif : longestMatch ['I', 'f'] = some (.kwIf, 2) := by decide +kernel
  rw [← hif]
  refine longestMatch_append (u := ['I', 'f']) fun r hr w hw hne hmatch => ?_
  rw [List.cons_append, List.singleton_append, ← matches_derivative, ← matches_derivative] at hmatch
  have hrule := derivative_rules_if r hr
  simp only [List.mem_cons, List.not_mem_nil, or_false] at hrule
  rcases hrule with hrule | hrule | hrule <;> rw [hrule] at hmatch
  · exact not_matches_nothing w hmatch
  · exact hne (matches_empty.1 hmatch)
  · obtain ⟨c, w, rfl⟩ := List.exists_cons_of_ne_nil hne
    obtain ⟨v', rfl⟩ := hw
    obtain ⟨x, z, -, hx, -⟩ := matches_star_cons.1 hmatch
    obtain ⟨d, hd, hc⟩ := matches_oneOf.1 hx
    obtain ⟨rfl, -⟩ := List.cons.inj hd
    rw [hv c rfl] at hc
    cases hc

/-- The two words in the place of the one, at the start of a text. -/
theorem lexemes_twoWords (h : lexemes cs = e :: ys) (he : e.kind = .kwElseIf) :
    lexemes ("Else If".toList ++ joined ys) = Lexeme.elseIf ++ ys := by
  obtain ⟨hmunch, hys⟩ := munch_of_lexemes h (by simp [he]) (by simp [he]) (by simp [he])
  have hend : ∀ c, (joined ys).head? = some c → CharSet.nameRest.contains c = false := by
    intro c hc
    obtain ⟨rest, hrest⟩ := List.head?_eq_some_iff.1 hc
    rw [hrest] at hmunch
    exact not_contains_of_munch (k := .ident) (by decide +kernel)
      (matches_nameText_of_kwElseIf hmunch he) (by simp [he]) hmunch
  have helse : longestMatch ("Else".toList ++ ' ' :: ('I' :: 'f' :: joined ys)) =
      some (.kwElse, 4) := by
    have helse : longestMatch "Else".toList = some (.kwElse, 4) := by decide +kernel
    rw [← helse]
    exact longestMatch_append_space (by decide)
  have hspace : munch (' ' :: 'I' :: 'f' :: joined ys) = some (space, 'I' :: 'f' :: joined ys) :=
    munch_space (by decide)
  have hif : munch ('I' :: 'f' :: joined ys) = some (⟨.kwIf, "If".toList⟩, joined ys) :=
    munch_eq (longestMatch_if hend)
  have hfirst : munch ("Else".toList ++ ' ' :: ('I' :: 'f' :: joined ys)) =
      some (⟨.kwElse, "Else".toList⟩, ' ' :: 'I' :: 'f' :: joined ys) := munch_eq helse
  change lexemes ("Else".toList ++ ' ' :: ('I' :: 'f' :: joined ys)) = _
  rw [lexemes_of_munch hfirst TokenKind.noConfusion TokenKind.noConfusion,
    lexemes_of_munch hspace TokenKind.noConfusion TokenKind.noConfusion,
    lexemes_of_munch hif TokenKind.noConfusion TokenKind.noConfusion, hys]
  rfl

/-! ### What stands before a word on its line -/

/-- Of the blanks and comments at the start of a text, one that is followed on its line is a blank, which
is whole. -/
theorem matches_blanks_of_lexemes (h : lexemes cs = x :: y :: zs) (hx : x.kind.isTrivia)
    (hxline : x.kind ≠ .newline) (hyline : y.kind ≠ .newline) :
    x.kind = .whitespace ∧ Matches blanks x.text ∧
      ∃ c rest, joined (y :: zs) = c :: rest ∧ c ∉ [' ', '\t', '\x0c'] := by
  have hkind : x.kind = .whitespace ∨ x.kind = .comment := by
    cases hk : x.kind <;> simp_all [TokenKind.isTrivia]
  have hkinds : x.kind ≠ .number ∧ x.kind ≠ .error ∧ x.kind ≠ .kwUnits := by
    rcases hkind with hkind | hkind <;> simp [hkind]
  obtain ⟨hmunch, hrest⟩ := munch_of_lexemes h hkinds.1 hkinds.2.1 hkinds.2.2
  obtain ⟨r, hr, hrkind, hmatch⟩ := exists_rule_of_munch hmunch hkinds.2.1
  have hy : y ∈ lexemes (joined (y :: zs)) := by
    rw [hrest]
    exact List.mem_cons_self
  obtain ⟨c, cs', hc⟩ := List.exists_cons_of_ne_nil (text_ne_nil_of_mem_lexemes hy)
  have hline := unbroken_of_mem_lexemes hy hyline
  have hjoined : joined (y :: zs) = c :: (cs' ++ joined zs) := by
    rw [joined_cons, hc, List.cons_append]
  rw [hjoined] at hmunch
  rcases hkind with hkind | hkind
  · rw [pattern_rules_whitespace r hr (hrkind.trans hkind)] at hmatch
    have hcontains := not_contains_of_munch (k := .whitespace) (by decide +kernel) hmatch hkinds.2.1
      hmunch
    refine ⟨hkind, hmatch, c, _, hjoined, fun hmem => ?_⟩
    rw [CharSet.contains_these.2 hmem] at hcontains
    cases hcontains
  · -- A comment takes the rest of its line.
    rw [pattern_rules_comment r hr (hrkind.trans hkind)] at hmatch
    have hcontains := not_contains_of_munch (k := .comment) (by decide +kernel) hmatch hkinds.2.1
      hmunch
    rw [CharSet.contains_allBut, Bool.not_eq_false', CharSet.contains_these] at hcontains
    simp only [List.mem_cons, List.not_mem_nil, or_false] at hcontains
    rcases hcontains with rfl | rfl
    · exact absurd (hc ▸ List.mem_cons_self) hline.1
    · exact absurd (hc ▸ List.mem_cons_self) hline.2

/-- Before a word on its line stands at most one lexeme, a blank. -/
theorem eq_nil_or_blank (h : lexemes cs = vs ++ e :: ys)
    (hvs : ∀ x ∈ vs, x.kind.isTrivia ∧ x.kind ≠ .newline) (he : e.kind = .kwElseIf) :
    vs = [] ∨ ∃ x, vs = [x] ∧ x.kind = .whitespace ∧ Matches blanks x.text := by
  have heline : e.kind ≠ .newline := by simp [he]
  rcases vs with _ | ⟨x, _ | ⟨y, vs⟩⟩
  · exact .inl rfl
  · obtain ⟨hx, hxline⟩ := hvs x List.mem_cons_self
    obtain ⟨hkind, hmatch, -⟩ := matches_blanks_of_lexemes h hx hxline heline
    exact .inr ⟨x, rfl, hkind, hmatch⟩
  · -- After a blank the next lexeme is none, and after it stands another one on the line.
    rw [List.cons_append, List.cons_append] at h
    obtain ⟨hx, hxline⟩ := hvs x List.mem_cons_self
    obtain ⟨hy, hyline⟩ := hvs y (by simp)
    obtain ⟨hkind, -, c, rest, hc, hblank⟩ := matches_blanks_of_lexemes h hx hxline hyline
    obtain ⟨-, hrest⟩ := munch_of_lexemes h (by simp [hkind]) (by simp [hkind]) (by simp [hkind])
    obtain ⟨z, zs, hz, hzline⟩ : ∃ z zs, vs ++ e :: ys = z :: zs ∧ z.kind ≠ .newline := by
      cases vs with
      | nil => exact ⟨e, ys, rfl, heline⟩
      | cons z vs => exact ⟨z, vs ++ e :: ys, rfl, (hvs z (by simp)).2⟩
    rw [hz] at hrest hc
    obtain ⟨-, hmatch, -⟩ := matches_blanks_of_lexemes hrest hy hyline hzline
    obtain ⟨d, w, htext, hd⟩ := head_of_matches_blanks hmatch
    rw [joined_cons, htext] at hc
    obtain ⟨rfl, -⟩ := List.cons.inj hc
    exact absurd hd hblank

/-- The two words in the place of the one, at the start of a line. -/
theorem lexemes_twoWords_onLine (h : lexemes cs = vs ++ e :: ys)
    (hvs : ∀ x ∈ vs, x.kind.isTrivia ∧ x.kind ≠ .newline) (he : e.kind = .kwElseIf) :
    lexemes (joined vs ++ ("Else If".toList ++ joined ys)) = vs ++ (Lexeme.elseIf ++ ys) := by
  rcases eq_nil_or_blank h hvs he with rfl | ⟨x, rfl, hkind, hblanks⟩
  · exact lexemes_twoWords h he
  · rw [List.singleton_append] at h
    obtain ⟨hx, hxline⟩ := hvs x List.mem_cons_self
    obtain ⟨-, -, c, rest, hc, hblank⟩ := matches_blanks_of_lexemes h hx hxline (by simp [he])
    obtain ⟨hmunch, hrest⟩ := munch_of_lexemes h (by simp [hkind]) (by simp [hkind]) (by simp [hkind])
    have hmatch := longestMatch_of_munch hmunch (by simp [hkind])
    have hcs := (munch_spec hmunch).1
    rw [hc] at hcs
    rw [← hcs, longestMatch_blanks hblanks hblank,
      ← longestMatch_blanks (v := "lse If".toList ++ joined ys) hblanks (c := 'E') (by decide)] at hmatch
    have hfirst := munch_eq hmatch
    rw [List.take_left, List.drop_left] at hfirst
    rw [joined_cons, joined_nil, List.append_nil]
    change lexemes (x.text ++ 'E' :: ("lse If".toList ++ joined ys)) = x :: (Lexeme.elseIf ++ ys)
    rw [lexemes_of_munch hfirst (by simp [hkind]) (by simp [hkind])]
    exact congrArg (x :: ·) (lexemes_twoWords hrest he)

end Lexer

namespace Lexeme

/-- The lexemes on the line of the next one, up to it, stand behind a line break or at the start. -/
theorem exists_lineStart (xs : List Lexeme) : ∃ us vs, xs = us ++ vs ∧
    vs = xs.rtakeWhile (·.kind ≠ .newline) ∧ (∀ x ∈ us.getLast?, x.kind = .newline) ∧
      ∀ x ∈ vs, x.kind ≠ .newline := by
  refine ⟨xs.rdropWhile (·.kind ≠ .newline), _, List.rdropWhile_append_rtakeWhile.symm, rfl,
    fun x hx => ?_, fun x hx => of_decide_eq_true (List.mem_rtakeWhile_imp
      (p := fun x : Lexeme => decide (x.kind ≠ .newline)) hx)⟩
  obtain ⟨hne, rfl⟩ := List.mem_getLast?_eq_getLast hx
  simpa using List.rdropWhile_last_not _ _ hne

end Lexeme

open Lexeme in
/-- The word `ElseIf`, the first one of its line, is written as two words with a space between them. -/
theorem lexemes_respelled {source : List Char} {xs ys : List Lexeme} {e : Lexeme}
    (h : lexemes source = xs ++ e :: ys) (he : e.kind = .kwElseIf)
    (hfirst : ∀ x ∈ xs.rtakeWhile (·.kind ≠ .newline), x.kind.isTrivia) :
    lexemes (joined xs ++ "Else If".toList ++ joined ys) = xs ++ elseIf ++ ys := by
  obtain ⟨us, vs, rfl, hvs, hus, hline⟩ := exists_lineStart xs
  rw [← hvs] at hfirst
  obtain ⟨z, zs, hz, hzline⟩ : ∃ z zs, vs ++ e :: ys = z :: zs ∧ z.kind ≠ .newline := by
    cases vs with
    | nil => exact ⟨e, ys, rfl, by simp [he]⟩
    | cons z vs => exact ⟨z, vs ++ e :: ys, rfl, hline z List.mem_cons_self⟩
  rw [List.append_assoc, hz] at h
  obtain ⟨hself, hmoved⟩ := lexemes_lineStart h hus hzline
  rw [← hz] at hself
  have hwords := Lexer.lexemes_twoWords_onLine hself (fun x hx => ⟨hfirst x hx, hline x hx⟩) he
  have hhead : (joined vs ++ ("Else If".toList ++ joined ys)).head? ≠ some '\n' := by
    cases vs with
    | nil => exact fun hhead => absurd (Option.some.inj hhead) (by decide)
    | cons x vs =>
      have hx : x ∈ lexemes source := by
        obtain ⟨rfl, -⟩ := List.cons.inj hz
        simp [h]
      obtain ⟨c, cs, hc⟩ := List.exists_cons_of_ne_nil (text_ne_nil_of_mem_lexemes hx)
      have hfeed := (unbroken_of_mem_lexemes hx (hline x List.mem_cons_self)).2
      rw [joined_cons, hc]
      rintro ⟨⟩
      exact hfeed (hc ▸ List.mem_cons_self)
  rw [joined_append, List.append_assoc, List.append_assoc, hmoved _ hhead, hwords]
  simp only [List.append_assoc]

/-! ### Words -/

namespace Word

open Lexeme

variable {us vs zs : List Lexeme}

/-- The words from the start of a line on. -/
theorem ofLexemes_lineStart (hus : ∀ x ∈ us.getLast?, x.kind = .newline) {startsLine : Bool}
    (hstarts : us = [] → startsLine) : ofLexemes startsLine (us ++ zs) =
      ofLexemes startsLine us ++ ofLexemes true zs := by
  induction us generalizing startsLine with
  | nil => rw [hstarts rfl]; rfl
  | cons x us ih =>
    have hlast : ∀ y ∈ us.getLast?, y.kind = .newline := by
      intro y hy
      refine hus y ?_
      rw [List.getLast?_cons, hy]
      rfl
    have hone : us = [] → x.kind = .newline := by
      rintro rfl
      exact hus x rfl
    rw [List.cons_append, ofLexemes, ofLexemes]
    split
    · refine ih hlast fun hnil => ?_
      rw [hone hnil]
      simp
    · next hword =>
      rw [ih hlast fun hnil => absurd (by rw [hone hnil]; rfl) hword, List.cons_append]

theorem ofLexemes_trivia (hvs : ∀ x ∈ vs, x.kind.isTrivia) :
    ofLexemes true (vs ++ zs) = ofLexemes true zs := by
  induction vs with
  | nil => rfl
  | cons x vs ih =>
    obtain ⟨hx, hvs⟩ := List.forall_mem_cons.1 hvs
    rw [List.cons_append, ofLexemes, if_pos hx, Bool.true_or, ih hvs]

/-- The words of a text in which a word `ElseIf`, the first one of its line, is written as two words. -/
theorem respelled_ofLexemes {xs ys : List Lexeme} {e : Lexeme} (he : e.kind = .kwElseIf)
    (hfirst : ∀ x ∈ xs.rtakeWhile (·.kind ≠ .newline), x.kind.isTrivia) :
    Respelled (ofLexemes true (xs ++ e :: ys)) (ofLexemes true (xs ++ elseIf ++ ys)) := by
  obtain ⟨us, vs, rfl, hvs, hus, -⟩ := exists_lineStart xs
  rw [← hvs] at hfirst
  have hword : e.kind.isTrivia = false := by simp [he, TokenKind.isTrivia]
  rw [List.append_assoc, List.append_assoc, List.append_assoc,
    ofLexemes_lineStart hus fun _ => rfl, ofLexemes_lineStart hus fun _ => rfl,
    ofLexemes_trivia hfirst, ofLexemes_trivia hfirst, ofLexemes_word hword]
  exact .middle ⟨he, rfl, rfl, rfl, rfl, rfl⟩ _ _

end Word

end CRBasic
