import CRBasic.Proofs.Text.Boundaries
import CRBasic.Proofs.Text.Positions
import Mathlib.Data.List.TakeWhile
import Mathlib.Data.Set.Card

/-!
# Lines and columns by counting

The line of a character boundary is the number of line breaks that end at it or in front of it, and its
column the number of characters behind the last of these (`lineCol_counts`).  So no two boundaries have
the same position.
-/

namespace CRBasic

/-- A line break ends between two texts: behind a line feed, and behind a carriage return that no line
feed follows.  A carriage return with the line feed behind it is one break. -/
def BreakBetween (before behind : List Char) : Prop :=
  before.getLast? = some '\n' ∨ (before.getLast? = some '\r' ∧ behind.head? ≠ some '\n')

/-- A line break of a text ends at a byte offset. -/
def BreakEndsAt (source : List Char) (n : Nat) : Prop :=
  ∃ before behind, before ++ behind = source ∧ BreakBetween before behind ∧ byteLength before = n

theorem not_breakBetween_nil (behind : List Char) : ¬ BreakBetween [] behind := by
  simp [BreakBetween]

/-- Whether a break ends behind two or more characters does not depend on the first of them. -/
theorem breakBetween_cons_cons {c d : Char} {before behind : List Char} :
    BreakBetween (c :: d :: before) behind ↔ BreakBetween (d :: before) behind := by
  simp [BreakBetween, List.getLast?_cons_cons]

/-- Behind a single character a break ends if the character is a break of its own. -/
theorem breakBetween_singleton {c : Char} {behind : List Char} :
    BreakBetween [c] behind ↔ c = '\n' ∨ (c = '\r' ∧ behind.head? ≠ some '\n') := by
  simp [BreakBetween]

/-- A break ends behind a character and more if one ends behind the character alone, or behind what
follows it. -/
theorem breakBetween_cons {c : Char} {before behind : List Char} :
    BreakBetween (c :: before) behind ↔
      (before = [] ∧ BreakBetween [c] behind) ∨ BreakBetween before behind := by
  cases before with
  | nil => simp [not_breakBetween_nil]
  | cons d before => simp [breakBetween_cons_cons]

theorem BreakEndsAt.isBoundary {source : List Char} {n : Nat} (h : BreakEndsAt source n) :
    IsBoundary source n := by
  obtain ⟨before, behind, hsource, -, hn⟩ := h
  exact ⟨before, behind, hsource, hn⟩

namespace LineIndex

variable {source u v lines line rest : List Char} {m n o offset : Nat}

/-! ### Ends of line breaks -/

/-- The breaks of a text are one that ends behind its first character, if there is one, and those of the
rest. -/
theorem exists_break_cons {c : Char} :
    (∃ before behind, before ++ behind = c :: u ∧ BreakBetween before behind ∧
      offset + byteLength before = n) ↔
    (BreakBetween [c] u ∧ offset + c.utf8Size = n) ∨
      ∃ before behind, before ++ behind = u ∧ BreakBetween before behind ∧
        offset + c.utf8Size + byteLength before = n := by
  constructor
  · rintro ⟨before, behind, happ, hbreak, rfl⟩
    cases before with
    | nil => exact absurd hbreak (not_breakBetween_nil _)
    | cons d before =>
      obtain ⟨rfl, rfl⟩ := List.cons.inj happ
      rw [byteLength_cons, ← Nat.add_assoc]
      rcases breakBetween_cons.1 hbreak with ⟨rfl, hbreak⟩ | hbreak
      · exact .inl ⟨hbreak, rfl⟩
      · exact .inr ⟨before, behind, rfl, hbreak, rfl⟩
  · rintro (⟨hbreak, rfl⟩ | ⟨before, behind, rfl, hbreak, rfl⟩)
    · exact ⟨[c], u, rfl, hbreak, by simp⟩
    · exact ⟨c :: before, behind, rfl, breakBetween_cons.2 (.inr hbreak), by simp [Nat.add_assoc]⟩

/-- The ends of line breaks that are found are all there are. -/
theorem mem_breakEnds_iff : n ∈ breakEnds offset u ↔
    ∃ before behind, before ++ behind = u ∧ BreakBetween before behind ∧
      offset + byteLength before = n := by
  induction offset, u using breakEnds.induct with
  | case1 offset =>
    refine ⟨by simp [breakEnds], ?_⟩
    rintro ⟨before, behind, happ, hbreak, -⟩
    obtain ⟨rfl, rfl⟩ := List.append_eq_nil_iff.1 happ
    exact absurd hbreak (not_breakBetween_nil _)
  | case2 offset cs ih =>
    -- Between the two characters of a pair no break ends.
    have hbetween : ¬ BreakBetween ['\r'] ('\n' :: cs) := by simp [breakBetween_singleton]
    have hbehind : BreakBetween ['\n'] cs := breakBetween_singleton.2 (.inl rfl)
    rw [breakEnds, List.mem_cons, ih, exists_break_cons, exists_break_cons,
      utf8Size_of_break (.inl rfl), utf8Size_of_break (.inr rfl)]
    simp only [hbetween, hbehind, false_and, true_and, false_or, eq_comm]
  | case3 offset c cs hcs hc ih =>
    have hsingle : BreakBetween [c] cs := by
      rw [breakBetween_singleton]
      rcases hc with rfl | rfl
      · refine .inr ⟨rfl, fun hhead => ?_⟩
        obtain ⟨ds, hds⟩ := List.head?_eq_some_iff.1 hhead
        exact hcs ds rfl hds
      · exact .inl rfl
    rw [breakEnds.eq_3 _ _ _ hcs, if_pos hc, List.mem_cons, ih, exists_break_cons,
      utf8Size_of_break hc]
    simp only [hsingle, true_and, eq_comm]
  | case4 offset c cs hcs hc ih =>
    have hsingle : ¬ BreakBetween [c] cs := fun hbreak =>
      hc ((breakBetween_singleton.1 hbreak).symm.imp_left And.left)
    rw [breakEnds.eq_3 _ _ _ hcs, if_neg hc, ih, exists_break_cons]
    simp only [hsingle, false_and, false_or]

theorem mem_breakEnds_zero_iff : n ∈ breakEnds 0 source ↔ BreakEndsAt source n := by
  simp [mem_breakEnds_iff, BreakEndsAt]

/-- The ends of line breaks are in order. -/
theorem pairwise_breakEnds (offset : Nat) (u : List Char) :
    (breakEnds offset u).Pairwise (· < ·) := by
  induction offset, u using breakEnds.induct with
  | case1 offset => exact .nil
  | case2 offset cs ih =>
    rw [breakEnds]
    exact .cons (fun n hn => (breakEnds_bounds _ _ n hn).1) ih
  | case3 offset c cs hcs hc ih =>
    rw [breakEnds.eq_3 _ _ _ hcs, if_pos hc]
    exact .cons (fun n hn => (breakEnds_bounds _ _ n hn).1) ih
  | case4 offset c cs hcs hc ih =>
    rw [breakEnds.eq_3 _ _ _ hcs, if_neg hc]
    exact ih

/-! ### Breaks up to an offset -/

/-- The ends of line breaks up to an offset. -/
def breaksUpTo (source : List Char) (o : Nat) : List Nat :=
  (breakEnds 0 source).takeWhile (· ≤ o)

/-- The start of the line that an offset is on. -/
def lineStart (source : List Char) (o : Nat) : Nat := (breaksUpTo source o).getLastD 0

theorem mem_takeWhile_le_iff {ns : List Nat} (h : ns.Pairwise (· < ·)) :
    n ∈ ns.takeWhile (· ≤ o) ↔ n ∈ ns ∧ n ≤ o := by
  induction ns with
  | nil => simp
  | cons a ns ih =>
    obtain ⟨ha, hns⟩ := List.pairwise_cons.1 h
    by_cases hao : a ≤ o
    · rw [List.takeWhile_cons_of_pos (by simpa using hao), List.mem_cons, List.mem_cons, ih hns]
      constructor
      · rintro (rfl | ⟨hn, hno⟩)
        · exact ⟨.inl rfl, hao⟩
        · exact ⟨.inr hn, hno⟩
      · rintro ⟨rfl | hn, hno⟩
        · exact .inl rfl
        · exact .inr ⟨hn, hno⟩
    · rw [List.takeWhile_cons_of_neg (by simpa using hao)]
      refine ⟨nofun, ?_⟩
      rintro ⟨hn, hno⟩
      rcases List.mem_cons.1 hn with rfl | hn
      · exact absurd hno hao
      · have := ha n hn
        omega

theorem mem_breaksUpTo_iff : n ∈ breaksUpTo source o ↔ BreakEndsAt source n ∧ n ≤ o := by
  rw [breaksUpTo, mem_takeWhile_le_iff (pairwise_breakEnds 0 source), mem_breakEnds_zero_iff]

theorem pairwise_breaksUpTo (source : List Char) (o : Nat) :
    (breaksUpTo source o).Pairwise (· < ·) :=
  (pairwise_breakEnds 0 source).sublist (List.takeWhile_sublist _)

theorem ncard_breaks (source : List Char) (o : Nat) :
    {n | BreakEndsAt source n ∧ n ≤ o}.ncard = (breaksUpTo source o).length := by
  have hset : {n | BreakEndsAt source n ∧ n ≤ o} = ((breaksUpTo source o).toFinset : Set Nat) := by
    ext n
    simp [mem_breaksUpTo_iff]
  have hnodup : (breaksUpTo source o).Nodup := (pairwise_breaksUpTo source o).imp Nat.ne_of_lt
  rw [hset, Set.ncard_coe_finset, List.toFinset_card_of_nodup hnodup]

/-- A line starts at the start of the text, or where a line break ends. -/
theorem lineStart_eq_or (source : List Char) (o : Nat) :
    lineStart source o = 0 ∨ BreakEndsAt source (lineStart source o) := by
  rcases List.eq_nil_or_concat (breaksUpTo source o) with h | ⟨ns, n, h⟩
  · simp [lineStart, h]
  · have hmem : n ∈ breaksUpTo source o := by simp [h]
    rw [lineStart, h, List.concat_eq_append, List.getLastD_concat]
    exact .inr (mem_breaksUpTo_iff.1 hmem).1

theorem lineStart_le (source : List Char) (o : Nat) : lineStart source o ≤ o := by
  rcases List.eq_nil_or_concat (breaksUpTo source o) with h | ⟨ns, n, h⟩
  · simp [lineStart, h]
  · have hmem : n ∈ breaksUpTo source o := by simp [h]
    rw [lineStart, h, List.concat_eq_append, List.getLastD_concat]
    exact (mem_breaksUpTo_iff.1 hmem).2

/-- No line break ends between the start of a line and an offset on it. -/
theorem le_lineStart (h : BreakEndsAt source n) (hn : n ≤ o) : n ≤ lineStart source o := by
  have hmem : n ∈ breaksUpTo source o := mem_breaksUpTo_iff.2 ⟨h, hn⟩
  have hsorted := pairwise_breaksUpTo source o
  rcases List.eq_nil_or_concat (breaksUpTo source o) with hnil | ⟨ns, m, hns⟩
  · simp [hnil] at hmem
  · rw [lineStart]
    rw [hns, List.concat_eq_append] at hmem hsorted ⊢
    rw [List.getLastD_concat]
    rcases List.mem_append.1 hmem with hmem | hmem
    · have := (List.pairwise_append.1 hsorted).2.2 n hmem m (by simp)
      omega
    · simp at hmem
      omega

/-! ### Positions -/

theorem lineCol_of_le (ho : o ≤ byteLength source) : (ofText source).lineCol o =
    ⟨(breaksUpTo source o).length,
      o - lineStart source o - (ofText source).extraBytes (lineStart source o) o⟩ := by
  have hstarts : (0 :: breakEnds 0 source).takeWhile (· ≤ o) = 0 :: breaksUpTo source o :=
    List.takeWhile_cons_of_pos (by simp)
  have hsize : min o (ofText source).size = o := Nat.min_eq_left ho
  rw [lineCol, hsize]
  simp only [ofText, hstarts, List.getLastD_cons, List.length_cons, Nat.add_sub_cancel, lineStart]

/-- The extra bytes between two boundaries of a text are those of the characters between them. -/
theorem extraBytes_between (lines line rest : List Char) :
    (ofText (lines ++ line ++ rest)).extraBytes (byteLength lines) (byteLength (lines ++ line)) +
      line.length = byteLength line := by
  have hleft : extraAmong (byteLength lines) (byteLength (lines ++ line))
      (wideCharsFrom 0 lines) = 0 := by
    refine extraAmong_eq_zero fun c hc => .inl ?_
    have := wideCharsFrom_bounds 0 lines c hc
    omega
  have hright : extraAmong (byteLength lines) (byteLength (lines ++ line))
      (wideCharsFrom (byteLength (lines ++ line)) rest) = 0 :=
    extraAmong_eq_zero fun c hc => .inr (wideCharsFrom_bounds _ rest c hc).1
  have hline : extraAmong (byteLength lines) (byteLength (lines ++ line))
      (wideCharsFrom (byteLength lines) line) + line.length = byteLength line :=
    extraAmong_wideCharsFrom (Nat.le_refl _) (by simp)
  rw [extraBytes_eq, ofText, wideCharsFrom_append, wideCharsFrom_append, extraAmong_append,
    extraAmong_append, Nat.zero_add, Nat.zero_add, hleft, hright]
  omega

/-- Any offset past the end has the position of the end. -/
theorem lineCol_of_ge (h : byteLength source ≤ o) :
    (ofText source).lineCol o = (ofText source).lineCol (byteLength source) := by
  have hsize : (ofText source).size = byteLength source := rfl
  simp only [lineCol, hsize, Nat.min_eq_right h, Nat.min_self]

/-- In front of every boundary stands a part of its line, behind whole lines. -/
theorem exists_line {pre : List Char} (h : pre ++ rest = source) :
    ∃ lines line, lines ++ line = pre ∧ byteLength lines = lineStart source (byteLength pre) := by
  have hpre : pre <+: source := ⟨rest, h⟩
  have hle := lineStart_le source (byteLength pre)
  rcases lineStart_eq_or source (byteLength pre) with hzero | hbreak
  · exact ⟨[], pre, rfl, by rw [hzero]; rfl⟩
  · obtain ⟨lines, behind, happ, hlength⟩ := hbreak.isBoundary
    have hlines : lines <+: pre :=
      prefix_of_byteLength_le ⟨behind, happ⟩ hpre (by omega)
    obtain ⟨line, hline⟩ := hlines
    exact ⟨lines, line, hline, hlength⟩

theorem lineCol_of_lineStart (h : byteLength lines = lineStart (lines ++ line ++ rest)
      (byteLength (lines ++ line))) :
    (ofText (lines ++ line ++ rest)).lineCol (byteLength (lines ++ line)) =
      ⟨{n | BreakEndsAt (lines ++ line ++ rest) n ∧ n ≤ byteLength (lines ++ line)}.ncard,
        line.length⟩ := by
  have hle : byteLength (lines ++ line) ≤ byteLength (lines ++ line ++ rest) := by simp
  have hextra := extraBytes_between lines line rest
  rw [lineCol_of_le hle, ncard_breaks, ← h]
  rw [byteLength_append] at hextra ⊢
  congr 1
  omega

theorem takeWhile_breaksUpTo (h : m ≤ n) :
    (breaksUpTo source n).takeWhile (· ≤ m) = breaksUpTo source m := by
  rw [breaksUpTo, breaksUpTo, List.takeWhile_takeWhile]
  congr 1
  funext b
  simp
  omega

/-- The line breaks up to an offset are the first of those up to a later one. -/
theorem breaksUpTo_of_le (h : m ≤ n) : breaksUpTo source m <+: breaksUpTo source n :=
  takeWhile_breaksUpTo h ▸ List.takeWhile_prefix _

/-- Boundaries with the same position are on the same line, as many characters behind its start. -/
theorem eq_of_lineCol_eq (hm : IsBoundary source m) (hn : IsBoundary source n)
    (h : (ofText source).lineCol m = (ofText source).lineCol n) : m = n := by
  wlog hmn : m ≤ n generalizing m n
  · exact (this hn hm h.symm (by omega)).symm
  obtain ⟨pre, rest, hpre, rfl⟩ := hm
  obtain ⟨pre', rest', hpre', rfl⟩ := hn
  have hbreaks : breaksUpTo source (byteLength pre) = breaksUpTo source (byteLength pre') := by
    have hle := IsBoundary.le ⟨pre, rest, hpre, rfl⟩
    have hle' := IsBoundary.le ⟨pre', rest', hpre', rfl⟩
    have hlength := congrArg LineCol.line h
    rw [lineCol_of_le hle, lineCol_of_le hle'] at hlength
    exact (breaksUpTo_of_le hmn).eq_of_length hlength
  obtain ⟨lines, line, rfl, hlines⟩ := exists_line hpre
  obtain ⟨lines', line', rfl, hlines'⟩ := exists_line hpre'
  have hstart : byteLength lines = byteLength lines' := by
    rw [hlines, hlines', lineStart, lineStart, hbreaks]
  have hcol : line.length = line'.length := by
    have hposition := h
    subst hpre
    rw [lineCol_of_lineStart hlines] at hposition
    rw [← hpre'] at hposition hlines'
    rw [lineCol_of_lineStart hlines'] at hposition
    exact congrArg LineCol.col hposition
  have hpieces : lines ++ line = lines' ++ line' := by
    have hwhole : lines ++ (line ++ rest) = lines' ++ (line' ++ rest') := by
      rw [← List.append_assoc, ← List.append_assoc, hpre, hpre']
    have hfront : lines = lines' := by
      have hprefix : lines <+: source := ⟨line ++ rest, by rw [← hpre, List.append_assoc]⟩
      have hprefix' : lines' <+: source := ⟨line' ++ rest', by rw [← hpre', List.append_assoc]⟩
      exact eq_of_byteLength_eq hprefix hprefix' hstart
    subst hfront
    rw [List.append_cancel_left_eq] at hwhole
    rw [(List.append_inj hwhole hcol).1]
  rw [hpieces]

/-- The line of a boundary is the number of line breaks up to it, and its column the number of characters
behind the last of these, or from the start of the text.  An offset past the end stands for the end, and
no two boundaries have the same position. -/
theorem lineCol_counts (source : List Char) :
    (∀ pre rest, pre ++ rest = source → ∃ lines line, lines ++ line = pre ∧
        (lines = [] ∨ BreakEndsAt source (byteLength lines)) ∧
        (∀ n, BreakEndsAt source n → n ≤ byteLength pre → n ≤ byteLength lines) ∧
        (ofText source).lineCol (byteLength pre) =
          ⟨{n | BreakEndsAt source n ∧ n ≤ byteLength pre}.ncard, line.length⟩) ∧
      (∀ n, byteLength source ≤ n →
        (ofText source).lineCol n = (ofText source).lineCol (byteLength source)) ∧
      ∀ m n, IsBoundary source m → IsBoundary source n →
        (ofText source).lineCol m = (ofText source).lineCol n → m = n := by
  refine ⟨fun pre rest h => ?_, fun n hn => lineCol_of_ge hn, fun m n hm hn => eq_of_lineCol_eq hm hn⟩
  obtain ⟨lines, line, rfl, hlines⟩ := exists_line h
  refine ⟨lines, line, rfl, ?_, fun n hn hle => ?_, ?_⟩
  · rw [hlines]
    refine (lineStart_eq_or source _).imp_left fun hzero => ?_
    have hlength := length_le_byteLength lines
    exact List.eq_nil_of_length_eq_zero (by omega)
  · rw [hlines]
    exact le_lineStart hn hle
  · subst h
    exact lineCol_of_lineStart hlines

/-- In a text of two lines a boundary behind a wide character of the second one: the pair of carriage
return and line feed is one break, and the wide characters count once each. -/
theorem lineCol_counts_wide :
    let source := "é\r\n€° x".toList
    (ofText source).lineCol 9 = ⟨1, 2⟩ ∧ {n | BreakEndsAt source n ∧ n ≤ 9}.ncard = 1 ∧
      ∃ lines line, lines ++ line = "é\r\n€°".toList ∧ line.length = 2 := by
  intro source
  have hposition : (ofText source).lineCol 9 = ⟨1, 2⟩ := by decide +kernel
  obtain ⟨lines, line, happ, -, -, hcount⟩ := (lineCol_counts source).1 "é\r\n€°".toList " x".toList rfl
  have hnine : byteLength "é\r\n€°".toList = 9 := by decide +kernel
  rw [hnine, hposition, LineCol.mk.injEq] at hcount
  exact ⟨hposition, hcount.1.symm, lines, line, happ, hcount.2.symm⟩

end LineIndex

end CRBasic
