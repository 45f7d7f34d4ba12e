import CRBasic.Proofs.Text.Problems

/-!
# The order of problems

Problems are sorted by insertion, so those that start together keep their order
(`pairwise_sortByStart`), and so do those of one sort among the others (`filter_sortByStart`).  Problems
that are in order are left as they are.
-/

namespace CRBasic

namespace Problem

variable {p : Problem → Bool} {a : Problem} {ps : List Problem}

/-- Each problem starts where the next one does or before. -/
def Ordered (ps : List Problem) : Prop := ps.Pairwise (·.range.start ≤ ·.range.start)

theorem insertByStart_of_le (h : ∀ b ∈ ps, a.range.start ≤ b.range.start) :
    insertByStart a ps = a :: ps := by
  cases ps with
  | nil => rfl
  | cons b ps => exact if_pos (h b List.mem_cons_self)

/-- The order of two problems that start together is a given one. -/
def StartsOrTies (R : Problem → Problem → Prop) (a b : Problem) : Prop :=
  a.range.start < b.range.start ∨ (a.range.start = b.range.start ∧ R a b)

theorem StartsOrTies.le {R : Problem → Problem → Prop} {b : Problem} (h : StartsOrTies R a b) :
    a.range.start ≤ b.range.start := by
  rcases h with h | ⟨h, -⟩
  · exact Nat.le_of_lt h
  · exact Nat.le_of_eq h

theorem pairwise_insertByStart {R : Problem → Problem → Prop} (h : ps.Pairwise (StartsOrTies R))
    (ha : ∀ b ∈ ps, R a b) : (insertByStart a ps).Pairwise (StartsOrTies R) := by
  induction ps with
  | nil => exact List.pairwise_singleton _ _
  | cons b ps ih =>
    obtain ⟨hb, hps⟩ := List.pairwise_cons.1 h
    rw [insertByStart]
    split
    · next hab =>
      refine List.pairwise_cons.2 ⟨fun c hc => ?_, h⟩
      have hac : a.range.start ≤ c.range.start := by
        rcases List.mem_cons.1 hc with rfl | hc
        · exact hab
        · exact Nat.le_trans hab (hb c hc).le
      exact (Nat.lt_or_eq_of_le hac).imp_right fun heq => ⟨heq, ha c hc⟩
    · next hab =>
      refine List.pairwise_cons.2 ⟨fun c hc => ?_, ih hps fun c hc => ha c (List.mem_cons_of_mem b hc)⟩
      rcases mem_insertByStart.1 hc with rfl | hc
      · exact .inl (Nat.lt_of_not_le hab)
      · exact hb c hc

/-- Problems that start together keep their order. -/
theorem pairwise_sortByStart {R : Problem → Problem → Prop} (h : ps.Pairwise R) :
    (sortByStart ps).Pairwise (StartsOrTies R) := by
  induction ps with
  | nil => exact .nil
  | cons a ps ih =>
    obtain ⟨ha, hps⟩ := List.pairwise_cons.1 h
    exact pairwise_insertByStart (ih hps) fun b hb => ha b (mem_sortByStart.1 hb)

theorem ordered_sortByStart (ps : List Problem) : Ordered (sortByStart ps) := by
  have htrue : ps.Pairwise fun _ _ => True := List.pairwise_of_forall fun _ _ => trivial
  exact (pairwise_sortByStart htrue).imp StartsOrTies.le

theorem sortByStart_of_ordered (h : Ordered ps) : sortByStart ps = ps := by
  induction ps with
  | nil => rfl
  | cons a ps ih =>
    obtain ⟨ha, hps⟩ := List.pairwise_cons.1 h
    rw [sortByStart, ih hps, insertByStart_of_le ha]

theorem filter_insertByStart (h : Ordered ps) (a : Problem) : (insertByStart a ps).filter p =
    if p a then insertByStart a (ps.filter p) else ps.filter p := by
  induction ps with
  | nil => cases hp : p a <;> simp [insertByStart, hp]
  | cons b ps ih =>
    obtain ⟨hb, hps⟩ := List.pairwise_cons.1 h
    rw [insertByStart]
    split
    · next hab =>
      rw [List.filter_cons]
      split
      · refine (insertByStart_of_le fun c hc => ?_).symm
        rcases List.mem_cons.1 (List.mem_filter.1 hc).1 with rfl | hc
        · exact hab
        · exact Nat.le_trans hab (hb c hc)
      · rfl
    · next hab =>
      rw [List.filter_cons, ih hps, List.filter_cons]
      cases p a <;> cases p b <;> simp [insertByStart, hab]

/-- Problems that are taken out keep their order. -/
theorem filter_sortByStart (ps : List Problem) :
    (sortByStart ps).filter p = sortByStart (ps.filter p) := by
  induction ps with
  | nil => rfl
  | cons a ps ih =>
    rw [sortByStart, filter_insertByStart (ordered_sortByStart ps), ih, List.filter_cons]
    split <;> rfl

/-! ### Problems of lexemes -/

/-- A problem of some lexemes is that of one in error. -/
theorem exists_of_mem_ofLexemes {xs : List Lexeme} {n : Nat} {q : Problem} (h : q ∈ ofLexemes n xs) :
    ∃ pre x post, xs = pre ++ x :: post ∧ x.kind = .error ∧
      q = ⟨.ofErrorText x.text, (x.token (n + byteLength (Lexeme.joined pre))).range⟩ := by
  induction xs generalizing n with
  | nil => cases h
  | cons x xs ih =>
    rw [ofLexemes, ofLexeme?] at h
    rcases List.mem_append.1 h with h | h
    · split at h
      · next hx =>
        obtain rfl := List.mem_singleton.1 h
        exact ⟨[], x, xs, rfl, hx, rfl⟩
      · cases h
    · obtain ⟨pre, y, post, rfl, hy, rfl⟩ := ih h
      refine ⟨x :: pre, y, post, rfl, hy, ?_⟩
      rw [Lexeme.joined_cons, byteLength_append, ← Nat.add_assoc]

theorem kind_ofErrorText (cs : List Char) : (Cause.ofErrorText cs).kind = .lexical := by
  unfold Cause.ofErrorText
  split
  · rfl
  · split
    · rfl
    · split <;> rfl
  · rfl

theorem kind_of_mem_ofLexemes {xs : List Lexeme} {n : Nat} {q : Problem} (h : q ∈ ofLexemes n xs) :
    q.cause.kind = .lexical := by
  obtain ⟨pre, x, post, -, -, rfl⟩ := exists_of_mem_ofLexemes h
  exact kind_ofErrorText x.text

theorem not_isUnclosed_of_mem_ofLexemes {xs : List Lexeme} {n : Nat} {q : Problem}
    (h : q ∈ ofLexemes n xs) : q.cause.isUnclosed = false := by
  have hkind := kind_of_mem_ofLexemes h
  cases hcause : q.cause <;> rw [hcause] at hkind <;> first | rfl | cases hkind

theorem ordered_ofLexemes (n : Nat) (xs : List Lexeme) :
    Ordered (ofLexemes n xs) ∧ ∀ p ∈ ofLexemes n xs, n ≤ p.range.start := by
  induction xs generalizing n with
  | nil => exact ⟨.nil, fun _ hp => absurd hp List.not_mem_nil⟩
  | cons x xs ih =>
    obtain ⟨hxs, hstart⟩ := ih (n + byteLength x.text)
    have hn : n ≤ n + byteLength x.text := Nat.le_add_right _ _
    have hrest : ∀ p ∈ ofLexemes (n + byteLength x.text) xs, n ≤ p.range.start :=
      fun p hp => Nat.le_trans hn (hstart p hp)
    rw [ofLexemes, ofLexeme?]
    split
    · exact ⟨List.pairwise_cons.2 ⟨hrest, hxs⟩, List.forall_mem_cons.2 ⟨Nat.le_refl n, hrest⟩⟩
    · exact ⟨hxs, hrest⟩

/-- There is one problem for each token in error, at its place. -/
theorem map_range_ofLexemes (n : Nat) (xs : List Lexeme) : (ofLexemes n xs).map (·.range) =
    ((Lexeme.tokens n xs).filter (·.kind = .error)).map (·.range) := by
  induction xs generalizing n with
  | nil => rfl
  | cons x xs ih =>
    rw [ofLexemes, List.map_append, ih, ofLexeme?, Lexeme.tokens]
    by_cases hx : x.kind = .error
    · rw [if_pos hx, List.filter_cons_of_pos (by exact decide_eq_true hx)]
      rfl
    · rw [if_neg hx, List.filter_cons_of_neg (by exact mt of_decide_eq_true hx)]
      rfl

end Problem

namespace Word

theorem ordered_rangesFrom (n : Nat) (xs : List Lexeme) :
    (rangesFrom n xs).Pairwise (·.start ≤ ·.start) ∧ ∀ r ∈ rangesFrom n xs, n ≤ r.start := by
  induction xs generalizing n with
  | nil => exact ⟨.nil, nofun⟩
  | cons x xs ih =>
    obtain ⟨hxs, hstart⟩ := ih (x.token n).range.stop
    have hn : n ≤ (x.token n).range.stop := Nat.le_add_right _ _
    have hle : ∀ r ∈ rangesFrom (x.token n).range.stop xs, n ≤ r.start :=
      fun r hr => Nat.le_trans hn (hstart r hr)
    rw [rangesFrom]
    split
    · exact ⟨hxs, hle⟩
    · refine ⟨List.pairwise_cons.2 ⟨hle, hxs⟩, fun r hr => ?_⟩
      rcases List.mem_cons.1 hr with rfl | hr
      · exact Nat.le_refl _
      · exact hle r hr

end Word

/-- Later words start at later offsets. -/
theorem Edge.offset_mono {rs : List ByteRange} {size m n : Nat}
    (hrs : rs.Pairwise (·.start ≤ ·.start)) (hsize : ∀ r ∈ rs, r.start ≤ size) (h : m ≤ n) :
    (startAfter m).offset rs.toArray size ≤ (startAfter n).offset rs.toArray size := by
  simp only [offset, List.getElem?_toArray]
  by_cases hn : n < rs.length
  · have hm : m < rs.length := Nat.lt_of_le_of_lt h hn
    rw [List.getElem?_eq_getElem hm, List.getElem?_eq_getElem hn]
    rcases Nat.lt_or_eq_of_le h with h | rfl
    · exact List.pairwise_iff_getElem.1 hrs m n hm hn h
    · exact Nat.le_refl _
  · rw [List.getElem?_eq_none (Nat.le_of_not_lt hn)]
    cases hm : rs[m]? with
    | none => exact Nat.le_refl _
    | some r => exact hsize r (List.mem_of_getElem? hm)

/-- Reports that start at later and later words start at later and later offsets. -/
theorem Report.ordered_toProblem {rs : List Report} {ns : List Nat} {ranges : List ByteRange}
    {size : Nat} (hrs : rs.map (·.start) = ns.map .startAfter) (hns : ns.Pairwise (· ≤ ·))
    (hranges : ranges.Pairwise (·.start ≤ ·.start)) (hsize : ∀ r ∈ ranges, r.start ≤ size) :
    Problem.Ordered (rs.map (·.toProblem ranges.toArray size)) := by
  let R (e e' : Edge) : Prop := e.offset ranges.toArray size ≤ e'.offset ranges.toArray size
  have hedges : (rs.map (·.start)).Pairwise R := by
    rw [hrs]
    exact List.pairwise_map.2 (hns.imp fun hmn => Edge.offset_mono hranges hsize hmn)
  have hstarts : rs.Pairwise fun r r' => R r.start r'.start := List.pairwise_map.1 hedges
  exact List.pairwise_map.2 hstarts

end CRBasic
