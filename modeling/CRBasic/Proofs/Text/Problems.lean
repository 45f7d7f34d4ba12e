import CRBasic.Proofs.Embedding.Texts
import CRBasic.Proofs.Lexer.Lines
import CRBasic.Proofs.Text.Positions

/-!
# Problems in two texts, one after the other

The ranges of words and the problems of lexemes and of reports in a text, where it stands after another
one, are those of the text alone, moved (`ofLexemes_append` and so on).  Ordered by their starts, the
problems of the first text come before those of the second (`sortByStart_split`).
-/

namespace CRBasic

/-- The same range in a text that starts `n` bytes earlier. -/
def ByteRange.shift (n : Nat) (r : ByteRange) : ByteRange := ⟨n + r.start, n + r.stop⟩

/-- The same problem in a text that starts `n` bytes earlier. -/
def Problem.shift (n : Nat) (p : Problem) : Problem := ⟨p.cause, p.range.shift n⟩

variable {xs ys : List Lexeme} {n m : Nat}

namespace Word

/-! ### Words -/

theorem ofLexemes_append (startsLine : Bool) (xs ys : List Lexeme) :
    ofLexemes startsLine (Lexeme.endLine xs ++ ys) = ofLexemes startsLine xs ++ ofLexemes true ys := by
  induction xs generalizing startsLine with
  | nil => cases startsLine <;> rfl
  | cons x xs ih =>
    rw [Lexeme.endLine]
    split
    · next h =>
      obtain ⟨rfl, rfl⟩ := h
      cases startsLine <;> rfl
    · rw [List.cons_append, ofLexemes, ofLexemes]
      split
      · exact ih _
      · rw [ih, List.cons_append]

/-- The words of a text of two, with a line feed between them. -/
theorem words_lineFeed (u v : List Char) : ofLexemes true (lexemes (u ++ '\n' :: v)) =
    ofLexemes true (lexemes u) ++ ofLexemes true (lexemes v) := by
  rw [lexemes_lineFeed, ofLexemes_append]

/-- The first word of a text starts a line. -/
theorem startsLine_of_head? : ∀ w ∈ (ofLexemes true xs).head?, w.startsLine := by
  induction xs with
  | nil => nofun
  | cons x xs ih =>
    rw [ofLexemes]
    split
    · rwa [Bool.true_or]
    · rintro w ⟨⟩
      rfl

theorem rangesFrom_append (n : Nat) (xs ys : List Lexeme) : rangesFrom n (xs ++ ys) =
    rangesFrom n xs ++ rangesFrom (n + byteLength (Lexeme.joined xs)) ys := by
  induction xs generalizing n with
  | nil => rfl
  | cons x xs ih =>
    simp only [List.cons_append, rangesFrom, Lexeme.joined_cons, byteLength_append, ih, Lexeme.token,
      Nat.add_assoc]
    split <;> rfl

theorem rangesFrom_shift (n m : Nat) (xs : List Lexeme) :
    rangesFrom (n + m) xs = (rangesFrom m xs).map (·.shift n) := by
  induction xs generalizing m with
  | nil => rfl
  | cons x xs ih =>
    simp only [rangesFrom, Lexeme.token, Nat.add_assoc, ih]
    split
    · rfl
    · rfl

theorem rangesFrom_bounds (n : Nat) (xs : List Lexeme) : ∀ r ∈ rangesFrom n xs,
    r.start ≤ r.stop ∧ r.stop ≤ n + byteLength (Lexeme.joined xs) := by
  induction xs generalizing n with
  | nil => nofun
  | cons x xs ih =>
    intro r hr
    simp only [rangesFrom, Lexeme.token] at hr
    rw [Lexeme.joined_cons, byteLength_append]
    split at hr
    · have := ih _ r hr
      omega
    · rcases List.mem_cons.1 hr with rfl | hr
      · dsimp only
        omega
      · have := ih _ r hr
        omega

end Word

namespace Problem

/-! ### Problems of lexemes -/

theorem ofLexemes_append (n : Nat) (xs ys : List Lexeme) : ofLexemes n (xs ++ ys) =
    ofLexemes n xs ++ ofLexemes (n + byteLength (Lexeme.joined xs)) ys := by
  induction xs generalizing n with
  | nil => rfl
  | cons x xs ih =>
    simp only [List.cons_append, ofLexemes, Lexeme.joined_cons, byteLength_append, ih, Nat.add_assoc,
      List.append_assoc]

theorem ofLexemes_shift (n m : Nat) (xs : List Lexeme) :
    ofLexemes (n + m) xs = (ofLexemes m xs).map (·.shift n) := by
  induction xs generalizing m with
  | nil => rfl
  | cons x xs ih =>
    simp only [ofLexemes, ofLexeme?, Nat.add_assoc, ih, List.map_append]
    split
    · simp [shift, ByteRange.shift, Lexeme.token, Nat.add_assoc]
    · rfl

theorem ofLexemes_bounds (n : Nat) (xs : List Lexeme) : ∀ p ∈ ofLexemes n xs,
    p.range.start ≤ p.range.stop ∧ p.range.stop ≤ n + byteLength (Lexeme.joined xs) := by
  induction xs generalizing n with
  | nil => simp [ofLexemes]
  | cons x xs ih =>
    intro p hp
    rw [ofLexemes, ofLexeme?] at hp
    rw [Lexeme.joined_cons, byteLength_append]
    rcases List.mem_append.1 hp with hp | hp
    · split at hp
      · obtain rfl := List.mem_singleton.1 hp
        dsimp only [Lexeme.token]
        omega
      · cases hp
    · have := ih _ p hp
      omega

/-! ### Order by starts -/

theorem insertByStart_append_left {p : Problem} {ps qs : List Problem}
    (h : ∀ q ∈ qs, p.range.start ≤ q.range.start) :
    insertByStart p (ps ++ qs) = insertByStart p ps ++ qs := by
  induction ps with
  | nil =>
    cases qs with
    | nil => rfl
    | cons q qs => simp [insertByStart, h q List.mem_cons_self]
  | cons r rs ih =>
    rw [List.cons_append, insertByStart, insertByStart, ih]
    split <;> rfl

theorem insertByStart_append_right {p : Problem} {ps qs : List Problem}
    (h : ∀ q ∈ ps, q.range.start < p.range.start) :
    insertByStart p (ps ++ qs) = ps ++ insertByStart p qs := by
  induction ps with
  | nil => rfl
  | cons r rs ih =>
    have hr := h r List.mem_cons_self
    rw [List.cons_append, insertByStart, if_neg (Nat.not_le.2 hr),
      ih fun q hq => h q (List.mem_cons_of_mem r hq), List.cons_append]

/-- Problems that start before an offset come before the others, and each group in its own order. -/
theorem sortByStart_split (n : Nat) (ps : List Problem) : sortByStart ps =
    sortByStart (ps.filter (·.range.start < n)) ++ sortByStart (ps.filter (n ≤ ·.range.start)) := by
  induction ps with
  | nil => rfl
  | cons p ps ih =>
    have hlow {q : Problem} (hq : q ∈ sortByStart (ps.filter (·.range.start < n))) :
        q.range.start < n := by
      simpa using (List.mem_filter.1 (mem_sortByStart.1 hq)).2
    have hhigh {q : Problem} (hq : q ∈ sortByStart (ps.filter (n ≤ ·.range.start))) :
        n ≤ q.range.start := by
      simpa using (List.mem_filter.1 (mem_sortByStart.1 hq)).2
    rw [sortByStart, ih]
    by_cases hp : p.range.start < n
    · rw [List.filter_cons_of_pos (by simpa using hp),
        List.filter_cons_of_neg (by simpa using hp), sortByStart,
        insertByStart_append_left fun q hq => Nat.le_trans (Nat.le_of_lt hp) (hhigh hq)]
    · rw [List.filter_cons_of_neg (by simpa using hp),
        List.filter_cons_of_pos (by simpa using hp), sortByStart,
        insertByStart_append_right fun q hq => Nat.lt_of_lt_of_le (hlow hq) (Nat.not_lt.1 hp)]

theorem sortByStart_shift (n : Nat) (ps : List Problem) :
    sortByStart (ps.map (·.shift n)) = (sortByStart ps).map (·.shift n) := by
  have hinsert (p : Problem) (qs : List Problem) :
      insertByStart (p.shift n) (qs.map (·.shift n)) = (insertByStart p qs).map (·.shift n) := by
    induction qs with
    | nil => rfl
    | cons q qs ih =>
      simp only [List.map_cons, insertByStart, shift, ByteRange.shift, Nat.add_le_add_iff_left] at ih ⊢
      rw [ih]
      split <;> rfl
  induction ps with
  | nil => rfl
  | cons p ps ih => rw [List.map_cons, sortByStart, ih, hinsert, sortByStart]

end Problem

/-! ### Problems of reports -/

namespace Edge

variable {e : Edge} {rs ss : List ByteRange}

theorem offset_append_left (h : e.Inside rs.length) (ss : List ByteRange) (size size' : Nat) :
    e.offset (rs ++ ss).toArray size' = e.offset rs.toArray size := by
  cases e with
  | startAfter m =>
    have hm : m < rs.length := h
    simp [offset, hm, List.getElem?_append_left]
  | endOf m =>
    obtain ⟨m, rfl⟩ := Nat.exists_eq_add_one.2 h.1
    have hm : m < rs.length := h.2
    simp [offset, hm, List.getElem?_append_left]

theorem offset_append_right (h : e ≠ endOf 0) (rs ss : List ByteRange) (n size : Nat) :
    (e.shift rs.length).offset (rs ++ ss.map (·.shift n)).toArray (n + size) =
      n + e.offset ss.toArray size := by
  have hget (m : Nat) (f g : ByteRange → Nat) (hf : ∀ r, f (r.shift n) = n + g r) :
      (((rs ++ ss.map (·.shift n)).toArray)[rs.length + m]?.map f).getD (n + size) =
        n + (ss.toArray[m]?.map g).getD size := by
    simp [List.getElem?_append_right]
    cases ss[m]? <;> simp [hf]
  cases e with
  | startAfter m => exact hget m (·.start) (·.start) fun r => rfl
  | endOf m =>
    cases m with
    | zero => exact absurd rfl h
    | succ m => exact hget m (·.stop) (·.stop) fun r => rfl

/-- An edge at a word of a text lies where the ranges of the words do. -/
theorem offset_le (h : e.Inside rs.length) {n size : Nat}
    (hrs : ∀ r ∈ rs, r.start ≤ r.stop ∧ r.stop ≤ n) : e.offset rs.toArray size ≤ n := by
  cases e with
  | startAfter m =>
    have hm : m < rs.length := h
    have := hrs rs[m] (List.getElem_mem hm)
    simp [offset, hm]
    omega
  | endOf m =>
    obtain ⟨m, rfl⟩ := Nat.exists_eq_add_one.2 h.1
    have hm : m < rs.length := h.2
    have := hrs rs[m] (List.getElem_mem hm)
    simp [offset, hm]
    omega

end Edge

end CRBasic
