import CRBasic.Parse
import CRBasic.Proofs.Parsing.Case

/-!
# Problems of texts in lower case

A text in lower case has its tokens, lines and words at the same places (`tokens_lowered`,
`ofText_lowered`, `rangesFrom_lowered`).  Problems keep their order when their names are put in lower
case (`sortByStart_lowered`), and their messages are the same in lower case (`lowered_message`).
-/

namespace CRBasic

/-! ### Places -/

namespace Lexeme

theorem token_lowered (x : Lexeme) (offset : Nat) : x.lowered.token offset = x.token offset := by
  rw [token, token, lowered, byteLength_lowered]

theorem tokens_lowered (offset : Nat) (xs : List Lexeme) :
    tokens offset (xs.map lowered) = tokens offset xs := by
  induction xs generalizing offset with
  | nil => rfl
  | cons x xs ih =>
    have hlength : byteLength x.lowered.text = byteLength x.text := byteLength_lowered x.text
    rw [List.map_cons, tokens, tokens, token_lowered, hlength, ih]

end Lexeme

theorem Word.rangesFrom_lowered (offset : Nat) (xs : List Lexeme) :
    rangesFrom offset (xs.map Lexeme.lowered) = rangesFrom offset xs := by
  induction xs generalizing offset with
  | nil => rfl
  | cons x xs ih =>
    have hkind : x.lowered.kind = x.kind := rfl
    simp only [List.map_cons, rangesFrom, Lexeme.token_lowered, hkind, ih]

namespace LineIndex

theorem toLower_eq_return_iff {c : Char} : c.toLower = '\r' ↔ c = '\r' :=
  toLower_eq_iff (by decide)

theorem toLower_eq_lineFeed_iff {c : Char} : c.toLower = '\n' ↔ c = '\n' :=
  toLower_eq_iff (by decide)

theorem isBreak_lowered {c : Char} :
    (c.toLower = '\r' ∨ c.toLower = '\n') ↔ (c = '\r' ∨ c = '\n') :=
  or_congr toLower_eq_return_iff toLower_eq_lineFeed_iff

/-- A text in lower case starts with a carriage return and a line feed only if the text does. -/
theorem noPair_lowered {c : Char} {cs : List Char} (h : ∀ ds, c = '\r' → cs = '\n' :: ds → False) :
    ∀ ds, c.toLower = '\r' → CRBasic.lowered cs = '\n' :: ds → False := by
  intro ds hc hcs
  obtain ⟨d, es, rfl, hd, -⟩ := List.map_eq_cons_iff.1 hcs
  exact h es (toLower_eq_return_iff.1 hc) (congrArg (· :: es) (toLower_eq_lineFeed_iff.1 hd))

theorem breakEnds_lowered (offset : Nat) (cs : List Char) :
    breakEnds offset (CRBasic.lowered cs) = breakEnds offset cs := by
  fun_induction breakEnds offset cs with
  | case1 => rfl
  | case2 offset cs ih => exact congrArg _ ih
  | case3 offset c cs hpair hbreak ih =>
    rw [lowered_cons, breakEnds.eq_3 _ _ _ (noPair_lowered hpair),
      if_pos (isBreak_lowered.2 hbreak), ih]
  | case4 offset c cs hpair hbreak ih =>
    have hsize : c.toLower.utf8Size = c.utf8Size := apply_toLower (by decide) c
    rw [lowered_cons, breakEnds.eq_3 _ _ _ (noPair_lowered hpair),
      if_neg (mt isBreak_lowered.1 hbreak), hsize, ih]

theorem wideCharsFrom_lowered (offset : Nat) (cs : List Char) :
    wideCharsFrom offset (CRBasic.lowered cs) = wideCharsFrom offset cs := by
  induction cs generalizing offset with
  | nil => rfl
  | cons c cs ih =>
    have hnarrow : decide (c.toLower.toNat < 128) = decide (c.toNat < 128) :=
      apply_toLower (f := fun c => decide (c.toNat < 128)) (by decide) c
    have hsize : c.toLower.utf8Size = c.utf8Size := apply_toLower (by decide) c
    simp only [lowered_cons, wideCharsFrom, hsize, ih, decide_eq_decide.1 hnarrow]

theorem ofText_lowered (cs : List Char) : ofText (CRBasic.lowered cs) = ofText cs := by
  rw [ofText, byteLength_lowered, breakEnds_lowered, wideCharsFrom_lowered, ofText]

end LineIndex

/-! ### Causes -/

namespace Cause

theorem kind_lowered (c : Cause) : c.lowered.kind = c.kind := by
  cases c <;> rfl

theorem ofErrorText_lowered (cs : List Char) :
    ofErrorText (CRBasic.lowered cs) = ofErrorText cs := by
  cases cs with
  | nil => rfl
  | cons c rest =>
    by_cases hquote : c = '\x22'
    · subst hquote
      rfl
    · have hquote' : c.toLower ≠ '\x22' := mt (toLower_eq_iff (by decide)).1 hquote
      have hdigit : c.toLower.isDigit = c.isDigit := apply_toLower (by decide) c
      have hpoint : c.toLower = '.' ↔ c = '.' := toLower_eq_iff (by decide)
      have hampersand : c.toLower = '&' ↔ c = '&' := toLower_eq_iff (by decide)
      have hrest : CRBasic.lowered rest ≠ [] ↔ rest ≠ [] := not_congr List.map_eq_nil_iff
      rw [lowered_cons, ofErrorText.eq_2 _ _ hquote', ofErrorText.eq_2 _ _ hquote]
      simp only [hdigit, hpoint, hampersand, hrest]

theorem lowered_message (c : Cause) :
    CRBasic.lowered c.lowered.message.toList = CRBasic.lowered c.message.toList := by
  have hnames : c.lowered = c ∨ ∃ expected found, c = .loopVariableMismatch expected found := by
    cases c <;> simp [lowered]
  obtain hc | ⟨expected, found, rfl⟩ := hnames
  · rw [hc]
  · have hmessage (e f : List Char) : (loopVariableMismatch e f).message =
        "loop variable mismatch: expected `" ++ String.ofList e ++
          "`, found `" ++ String.ofList f ++ "`" := rfl
    simp only [lowered, hmessage, String.toList_append, String.toList_ofList, lowered_append,
      lowered_lowered]

end Cause

namespace Problem

/-- A problem with its names in lower case. -/
def lowered (p : Problem) : Problem := ⟨p.cause.lowered, p.range⟩

theorem ofLexemes_lowered (offset : Nat) (xs : List Lexeme) :
    ofLexemes offset (xs.map Lexeme.lowered) = ofLexemes offset xs := by
  induction xs generalizing offset with
  | nil => rfl
  | cons x xs ih =>
    have hkind : x.lowered.kind = x.kind := rfl
    have hcause : Cause.ofErrorText x.lowered.text = .ofErrorText x.text :=
      Cause.ofErrorText_lowered x.text
    have hlength : byteLength x.lowered.text = byteLength x.text := byteLength_lowered x.text
    simp only [List.map_cons, ofLexemes, ofLexeme?, hkind, hcause, hlength, Lexeme.token_lowered,
      ih]

theorem insertByStart_lowered (p : Problem) (ps : List Problem) :
    (insertByStart p ps).map lowered = insertByStart p.lowered (ps.map lowered) := by
  induction ps with
  | nil => rfl
  | cons q qs ih =>
    have hp : p.lowered.range = p.range := rfl
    have hq : q.lowered.range = q.range := rfl
    rw [insertByStart, List.map_cons, insertByStart, hp, hq]
    split
    · rfl
    · rw [List.map_cons, ih]

theorem sortByStart_lowered (ps : List Problem) :
    (sortByStart ps).map lowered = sortByStart (ps.map lowered) := by
  induction ps with
  | nil => rfl
  | cons p ps ih => rw [sortByStart, insertByStart_lowered, ih, List.map_cons, sortByStart]

end Problem

end CRBasic
