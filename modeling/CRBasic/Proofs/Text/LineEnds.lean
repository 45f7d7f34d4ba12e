import Mathlib.Data.List.Forall2
import CRBasic.Parse
import CRBasic.Proofs.Lexer.LineEnds
import CRBasic.Proofs.Text.Positions

/-!
# Places in texts with line ends of two characters

Between the same two characters a text has one offset, and another one once each line feed has a
carriage return before it (`SamePlace`).  Such offsets are in the same order (`SamePlace.le_iff`) and
have the same line and column (`SamePlace.lineCol_eq`), and the ends of words, problems and reports are
such offsets.
-/

namespace CRBasic

variable {s u v w : List Char} {m n m' n' : Nat}

/-! ### Offsets -/

/-- The offsets between the same two characters of a text, without and with a carriage return before
each line feed. -/
def SamePlace (s : List Char) (m n : Nat) : Prop :=
  ∃ u v, s = u ++ v ∧ m = byteLength u ∧ n = byteLength (crlf u)

theorem samePlace_start (s : List Char) : SamePlace s 0 0 := ⟨[], s, rfl, rfl, rfl⟩

theorem samePlace_end (s : List Char) : SamePlace s (byteLength s) (byteLength (crlf s)) :=
  ⟨s, [], (List.append_nil s).symm, rfl, rfl⟩

/-- The offsets before and behind a part of a text. -/
theorem samePlace_of_parts (h : s = u ++ (v ++ w)) :
    SamePlace s (byteLength u) (byteLength (crlf u)) ∧
      SamePlace s (byteLength u + byteLength v) (byteLength (crlf u) + byteLength (crlf v)) := by
  refine ⟨⟨u, v ++ w, h, rfl, rfl⟩, u ++ v, w, ?_, ?_, ?_⟩
  · rw [h, List.append_assoc]
  · rw [byteLength_append]
  · rw [crlf_append, byteLength_append]

theorem byteLength_eq_zero_iff (cs : List Char) : byteLength cs = 0 ↔ cs = [] := by
  cases cs with
  | nil => simp
  | cons c cs =>
    have := c.utf8Size_pos
    simp
    omega

theorem SamePlace.le_iff (h : SamePlace s m n) (h' : SamePlace s m' n') : m ≤ m' ↔ n ≤ n' := by
  obtain ⟨u, v, hs, rfl, rfl⟩ := h
  obtain ⟨u', v', hs', rfl, rfl⟩ := h'
  -- Of two starts of a text one goes on where the other ends.
  rcases List.prefix_or_prefix_of_prefix ⟨v, hs.symm⟩ ⟨v', hs'.symm⟩ with ⟨w, rfl⟩ | ⟨w, rfl⟩
  · simp
  · have hnil : byteLength w = 0 ↔ byteLength (crlf w) = 0 := by
      rw [byteLength_eq_zero_iff, byteLength_eq_zero_iff, ← List.isEmpty_iff, ← List.isEmpty_iff,
        isEmpty_crlf]
    rw [crlf_append, byteLength_append, byteLength_append]
    omega

theorem SamePlace.max (h : SamePlace s m n) (h' : SamePlace s m' n') :
    SamePlace s (Max.max m m') (Max.max n n') := by
  by_cases hle : m ≤ m'
  · rw [Nat.max_eq_right hle, Nat.max_eq_right ((h.le_iff h').1 hle)]
    exact h'
  · rw [Nat.max_eq_left (Nat.le_of_not_le hle),
      Nat.max_eq_left (Nat.le_of_not_le (mt (h.le_iff h').2 hle))]
    exact h

/-! ### Lines -/

theorem EndsLine.crlf (h : EndsLine u) : EndsLine (crlf u) := by
  obtain ⟨v, rfl⟩ := h.exists_eq
  rw [EndsLine, crlf_append, crlf_lineFeed, crlf_nil, List.getLast?_append]
  rfl

/-- A text is made up of whole lines and a part of the next one. -/
theorem exists_lastLine (u : List Char) :
    ∃ v w, u = v ++ w ∧ (v = [] ∨ EndsLine v) ∧ '\n' ∉ w := by
  induction u with
  | nil => exact ⟨[], [], rfl, .inl rfl, List.not_mem_nil⟩
  | cons c u ih =>
    obtain ⟨v, w, rfl, hv, hw⟩ := ih
    by_cases hnil : v = []
    · subst hnil
      by_cases hc : c = '\n'
      · exact ⟨[c], w, rfl, .inr (by rw [hc]; rfl), hw⟩
      · exact ⟨[], c :: w, rfl, .inl rfl, by simp [Ne.symm hc, hw]⟩
    · obtain ⟨d, v, rfl⟩ := List.exists_cons_of_ne_nil hnil
      refine ⟨c :: d :: v, w, rfl, .inr ?_, hw⟩
      rw [EndsLine, List.getLast?_cons_cons]
      exact hv.resolve_left hnil

namespace LineIndex

/-- A carriage return and the line feed after it are one line break. -/
theorem length_breakEnds_crlf (hs : '\r' ∉ s) (m n : Nat) :
    (breakEnds n (crlf s)).length = (breakEnds m s).length := by
  induction s generalizing m n with
  | nil => rfl
  | cons c s ih =>
    obtain ⟨hc, hrest⟩ := not_or.1 (mt List.mem_cons.2 hs)
    have hpair (v : List Char) : ∀ w, c = '\r' → v = '\n' :: w → False := fun _ h _ => hc h.symm
    by_cases hfeed : c = '\n'
    · subst hfeed
      rw [crlf_lineFeed, breakEnds, breakEnds.eq_3 _ _ _ (hpair s), if_pos (.inr rfl),
        List.length_cons, List.length_cons, ih hrest]
    · have hbreak : ¬ (c = '\r' ∨ c = '\n') := not_or.2 ⟨Ne.symm hc, hfeed⟩
      rw [crlf_cons hfeed, breakEnds.eq_3 _ _ _ (hpair _), breakEnds.eq_3 _ _ _ (hpair _),
        if_neg hbreak, if_neg hbreak]
      exact ih hrest _ _

theorem lineCount_crlf (hs : '\r' ∉ s) : (ofText (crlf s)).lineCount = (ofText s).lineCount :=
  congrArg (· + 1) (length_breakEnds_crlf hs 0 0)

end LineIndex

theorem SamePlace.lineCol_eq (hs : '\r' ∉ s) (h : SamePlace s m n) :
    (LineIndex.ofText (crlf s)).lineCol n = (LineIndex.ofText s).lineCol m := by
  obtain ⟨u, rest, rfl, rfl, rfl⟩ := h
  obtain ⟨v, w, rfl, hv, hw⟩ := exists_lastLine u
  have hv' : '\r' ∉ v := fun hmem => hs (by simp [hmem])
  have hw' : '\r' ∉ w := fun hmem => hs (by simp [hmem])
  have hlines : crlf v = [] ∨ EndsLine (crlf v) := by
    rcases hv with rfl | hv
    · exact .inl rfl
    · exact .inr hv.crlf
  rw [LineIndex.lineCol_of_lines hv hw hw', crlf_append, crlf_append, crlf_of_not_mem hw,
    LineIndex.lineCol_of_lines hlines hw hw', LineIndex.length_breakEnds_crlf hv']

/-! ### Words and problems -/

/-- The ranges of the same part of a text, without and with a carriage return before each line
feed. -/
structure SameRange (s : List Char) (r r' : ByteRange) : Prop where
  start : SamePlace s r.start r'.start
  stop : SamePlace s r.stop r'.stop

/-- The same problem of a text, without and with a carriage return before each line feed. -/
structure SameProblem (s : List Char) (p p' : Problem) : Prop where
  cause : p'.cause = p.cause
  range : SameRange s p.range p'.range

/-- The range of a lexeme after the text before it. -/
theorem sameRange_token {x : Lexeme} (h : s = u ++ (x.text ++ v)) :
    SameRange s (x.token (byteLength u)).range (x.crlf.token (byteLength (crlf u))).range :=
  ⟨(samePlace_of_parts h).1, (samePlace_of_parts h).2⟩

/-- Lexemes other than line breaks lie within a line. -/
def WithinLines (xs : List Lexeme) : Prop := ∀ x ∈ xs, x.kind ≠ .newline → x.crlf = x

theorem withinLines_lexemes (s : List Char) : WithinLines (lexemes s) := by
  intro x hx hkind
  have htext := crlf_of_not_mem (unbroken_of_mem_lexemes hx hkind).2
  rw [Lexeme.crlf, htext]

namespace Word

theorem ofLexemes_crlf {xs : List Lexeme} (h : WithinLines xs) (startsLine : Bool) :
    ofLexemes startsLine (xs.map Lexeme.crlf) = ofLexemes startsLine xs := by
  induction xs generalizing startsLine with
  | nil => rfl
  | cons x xs ih =>
    obtain ⟨hx, hxs⟩ := List.forall_mem_cons.1 h
    rw [List.map_cons, ofLexemes, ofLexemes, Lexeme.kind_crlf, ih hxs, ih hxs]
    split
    · rfl
    · next hkind =>
      rw [hx (by rintro hnewline; rw [hnewline] at hkind; exact hkind rfl)]

theorem sameRange_rangesFrom {xs : List Lexeme} (h : s = u ++ Lexeme.joined xs) :
    List.Forall₂ (SameRange s) (rangesFrom (byteLength u) xs)
      (rangesFrom (byteLength (crlf u)) (xs.map Lexeme.crlf)) := by
  induction xs generalizing u with
  | nil => exact .nil
  | cons x xs ih =>
    rw [Lexeme.joined_cons] at h
    have hrest := ih (u := u ++ x.text) (by rw [h, List.append_assoc])
    rw [crlf_append, byteLength_append, byteLength_append] at hrest
    rw [List.map_cons, rangesFrom, rangesFrom, Lexeme.kind_crlf]
    split
    · exact hrest
    · exact .cons (sameRange_token h) hrest

end Word

namespace Problem

theorem sameProblem_ofLexemes {xs : List Lexeme} (h : s = u ++ Lexeme.joined xs)
    (hxs : WithinLines xs) : List.Forall₂ (SameProblem s) (ofLexemes (byteLength u) xs)
      (ofLexemes (byteLength (crlf u)) (xs.map Lexeme.crlf)) := by
  induction xs generalizing u with
  | nil => exact .nil
  | cons x xs ih =>
    rw [Lexeme.joined_cons] at h
    obtain ⟨hx, hxs⟩ := List.forall_mem_cons.1 hxs
    have hrest := ih (u := u ++ x.text) (by rw [h, List.append_assoc]) hxs
    rw [crlf_append, byteLength_append, byteLength_append] at hrest
    rw [List.map_cons, ofLexemes, ofLexemes, ofLexeme?, ofLexeme?, Lexeme.kind_crlf]
    refine List.rel_append ?_ hrest
    split
    · next hkind =>
      have hcause : Cause.ofErrorText x.crlf.text = .ofErrorText x.text := by
        rw [hx (by rw [hkind]; decide)]
      exact .cons ⟨hcause, sameRange_token h⟩ .nil
    · exact .nil

theorem sameProblem_insertByStart {p p' : Problem} {ps ps' : List Problem}
    (hp : SameProblem s p p') (hps : List.Forall₂ (SameProblem s) ps ps') :
    List.Forall₂ (SameProblem s) (insertByStart p ps) (insertByStart p' ps') := by
  induction hps with
  | nil => exact .cons hp .nil
  | @cons q q' qs qs' hq hqs ih =>
    have hle := hp.range.start.le_iff hq.range.start
    rw [insertByStart, insertByStart]
    by_cases h : p.range.start ≤ q.range.start
    · rw [if_pos h, if_pos (hle.1 h)]
      exact .cons hp (.cons hq hqs)
    · rw [if_neg h, if_neg (mt hle.2 h)]
      exact .cons hq ih

theorem sameProblem_sortByStart {ps ps' : List Problem}
    (h : List.Forall₂ (SameProblem s) ps ps') :
    List.Forall₂ (SameProblem s) (sortByStart ps) (sortByStart ps') := by
  induction h with
  | nil => exact .nil
  | cons hp _ ih => exact sameProblem_insertByStart hp ih

end Problem

/-! ### Reports -/

section

variable {rs rs' : List ByteRange} (h : List.Forall₂ (SameRange s) rs rs')
include h

theorem sameRange_getElem? (n : Nat) : (rs[n]? = none ∧ rs'[n]? = none) ∨
    ∃ r r', rs[n]? = some r ∧ rs'[n]? = some r' ∧ SameRange s r r' := by
  induction h generalizing n with
  | nil => exact .inl ⟨rfl, rfl⟩
  | cons hr _ ih =>
    cases n with
    | zero => exact .inr ⟨_, _, rfl, rfl, hr⟩
    | succ n => exact ih n

theorem samePlace_offset (e : Edge) : SamePlace s (e.offset rs.toArray (byteLength s))
    (e.offset rs'.toArray (byteLength (crlf s))) := by
  cases e with
  | startAfter n =>
    rcases sameRange_getElem? h n with ⟨hn, hn'⟩ | ⟨r, r', hn, hn', hr⟩
    · simpa [Edge.offset, hn, hn'] using samePlace_end s
    · simpa [Edge.offset, hn, hn'] using hr.start
  | endOf n =>
    cases n with
    | zero => exact samePlace_start s
    | succ n =>
      rcases sameRange_getElem? h n with ⟨hn, hn'⟩ | ⟨r, r', hn, hn', hr⟩
      · simpa [Edge.offset, hn, hn'] using samePlace_end s
      · simpa [Edge.offset, hn, hn'] using hr.stop

theorem sameProblem_toProblem (r : Report) : SameProblem s (r.toProblem rs.toArray (byteLength s))
    (r.toProblem rs'.toArray (byteLength (crlf s))) :=
  ⟨rfl, samePlace_offset h r.start, (samePlace_offset h r.start).max (samePlace_offset h r.stop)⟩

end

end CRBasic
