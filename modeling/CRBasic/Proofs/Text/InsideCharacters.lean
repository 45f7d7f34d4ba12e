import CRBasic.Proofs.Text.Columns

/-!
# Positions inside characters

An offset inside of a character has the column of the character less the bytes of it that are still to
come (`lineCol_inside`), so inside of a character of three or four bytes positions go back.  They go back
nowhere else (`atMost_lineCol_iff`).
-/

namespace CRBasic

/-- One position is at most another: it is on an earlier line, or not further on in the same one. -/
def LineCol.AtMost (p q : LineCol) : Prop := p.line < q.line ∨ p.line = q.line ∧ p.col ≤ q.col

namespace LineIndex

variable {source pre pre' rest rest' post : List Char} {c : Char} {a b j : Nat}

/-! ### Fronts of a text -/

/-- A boundary that does not lie behind a character of the text lies in front of it. -/
theorem le_of_lt_behind (hpre : pre ++ c :: post = source) (hpre' : pre' ++ rest' = source)
    (h : byteLength pre' < byteLength pre + c.utf8Size) : byteLength pre' ≤ byteLength pre := by
  refine Nat.not_lt.1 fun hlt => ?_
  have hfront : pre <+: pre' :=
    prefix_of_byteLength_le ⟨c :: post, hpre⟩ ⟨rest', hpre'⟩ (Nat.le_of_lt hlt)
  obtain ⟨w, rfl⟩ := hfront
  subst hpre
  rw [List.append_assoc, List.append_cancel_left_eq] at hpre'
  cases w with
  | nil => simp at hlt
  | cons d w =>
    obtain rfl := (List.cons.inj hpre').1
    rw [byteLength_append, byteLength_cons] at h
    omega

/-! ### Lines -/

/-- Lines do not go back. -/
theorem line_le_of_le (h : a ≤ b) :
    ((ofText source).lineCol a).line ≤ ((ofText source).lineCol b).line := by
  have hle {a b : Nat} (h : a ≤ b) (hb : b ≤ byteLength source) :
      ((ofText source).lineCol a).line ≤ ((ofText source).lineCol b).line := by
    rw [lineCol_of_le hb, lineCol_of_le (Nat.le_trans h hb)]
    exact (breaksUpTo_of_le h).length_le
  rcases Nat.le_total b (byteLength source) with hb | hb
  · exact hle h hb
  · rw [lineCol_of_ge hb]
    rcases Nat.le_total a (byteLength source) with ha | ha
    · exact hle ha (Nat.le_refl _)
    · rw [lineCol_of_ge ha]

/-- Inside of a character no line starts. -/
theorem breaksUpTo_inside (h : pre ++ c :: post = source) (hj : j < c.utf8Size) :
    breaksUpTo source (byteLength pre + j) = breaksUpTo source (byteLength pre) := by
  rw [← takeWhile_breaksUpTo (Nat.le_add_right (byteLength pre) j), eq_comm,
    List.takeWhile_eq_self_iff]
  intro n hn
  obtain ⟨hbreak, hle⟩ := mem_breaksUpTo_iff.1 hn
  obtain ⟨pre', rest', hpre', rfl⟩ := hbreak.isBoundary
  have hfront := le_of_lt_behind h hpre' (by omega)
  simpa using hfront

/-! ### Columns -/

theorem extraAmong_congr {lo hi hi' : Nat} {cs : List WideChar}
    (h : ∀ c ∈ cs, c.start < hi ↔ c.start < hi') : extraAmong lo hi cs = extraAmong lo hi' cs := by
  rw [extraAmong, extraAmong]
  congr 1
  refine List.filter_congr fun c hc => ?_
  rw [decide_eq_decide.2 (h c hc)]

/-- All the extra bytes of a character count from its second byte on. -/
theorem extraBytes_inside (h : pre ++ c :: post = source) (hpos : 0 < j) (hj : j < c.utf8Size)
    (lo : Nat) : (ofText source).extraBytes lo (byteLength pre + j) =
      (ofText source).extraBytes lo (byteLength (pre ++ [c])) := by
  subst h
  rw [extraBytes_eq, extraBytes_eq]
  refine extraAmong_congr fun d hd => ?_
  have hlength : byteLength (pre ++ [c]) = byteLength pre + c.utf8Size := by simp
  rw [ofText, wideCharsFrom_append, Nat.zero_add, wideCharsFrom] at hd
  have hpost := wideCharsFrom_bounds (byteLength pre + c.utf8Size) post
  rcases List.mem_append.1 hd with hd | hd
  · have := wideCharsFrom_bounds 0 pre d hd
    omega
  · split at hd
    · have := hpost d hd
      omega
    · rcases List.mem_cons.1 hd with rfl | hd
      · dsimp only
        omega
      · have := hpost d hd
        omega

/-- An offset inside of a character is on its line, and as many columns back as there are bytes of the
character still to come. -/
theorem lineCol_inside (h : pre ++ c :: post = source) (hpos : 0 < j) (hj : j < c.utf8Size) :
    (ofText source).lineCol (byteLength pre + j) =
      ⟨((ofText source).lineCol (byteLength pre)).line,
        ((ofText source).lineCol (byteLength pre)).col + j - (c.utf8Size - 1)⟩ := by
  have hbreaks := breaksUpTo_inside h hj
  have hextra := extraBytes_inside h hpos hj
  obtain ⟨lines, line, rfl, hlines⟩ := exists_line h
  subst h
  have hline := lineCol_of_lineStart hlines
  have hstart : lineStart (lines ++ line ++ c :: post) (byteLength (lines ++ line) + j) =
      byteLength lines := by
    rw [hlines, lineStart, lineStart, hbreaks]
  have hle : byteLength (lines ++ line) + j ≤ byteLength (lines ++ line ++ c :: post) := by
    simp only [byteLength_append, byteLength_cons]
    omega
  have hbetween := extraBytes_between lines (line ++ [c]) post
  rw [hline, lineCol_of_le hle, hstart, hbreaks, ← ncard_breaks, hextra]
  simp only [List.append_assoc, List.singleton_append, byteLength_append, byteLength_cons,
    byteLength_nil, List.length_append, List.length_cons, List.length_nil, LineCol.mk.injEq,
    true_and] at hbetween ⊢
  omega

/-- The column of a boundary counts the characters behind the start of its line. -/
theorem col_of_lineStart {lines line : List Char} (h : lines ++ line ++ rest = source)
    (hlines : byteLength lines = lineStart source (byteLength (lines ++ line))) :
    ((ofText source).lineCol (byteLength (lines ++ line))).col = line.length := by
  subst h
  rw [lineCol_of_lineStart hlines]

/-- On one line a boundary further on does not have a smaller column. -/
theorem col_le_of_boundaries (hpre : pre ++ rest = source) (hpre' : pre' ++ rest' = source)
    (h : byteLength pre ≤ byteLength pre')
    (hline : ((ofText source).lineCol (byteLength pre)).line =
      ((ofText source).lineCol (byteLength pre')).line) :
    ((ofText source).lineCol (byteLength pre)).col ≤
      ((ofText source).lineCol (byteLength pre')).col := by
  have hbreaks : breaksUpTo source (byteLength pre) = breaksUpTo source (byteLength pre') := by
    rw [lineCol_of_le (IsBoundary.le ⟨pre, rest, hpre, rfl⟩),
      lineCol_of_le (IsBoundary.le ⟨pre', rest', hpre', rfl⟩)] at hline
    exact (breaksUpTo_of_le h).eq_of_length hline
  obtain ⟨w, rfl⟩ : pre <+: pre' := prefix_of_byteLength_le ⟨rest, hpre⟩ ⟨rest', hpre'⟩ h
  obtain ⟨lines, line, rfl, hlines⟩ := exists_line hpre
  have hlines' : byteLength lines = lineStart source (byteLength (lines ++ (line ++ w))) := by
    rw [← List.append_assoc, hlines, lineStart, lineStart, hbreaks]
  have hcol := col_of_lineStart hpre hlines
  rw [List.append_assoc lines line w] at hpre' ⊢
  rw [hcol, col_of_lineStart hpre' hlines', List.length_append]
  exact Nat.le_add_right _ _

/-! ### Offsets and the boundaries in front of them -/

/-- An offset of a text is a boundary or lies inside of a character. -/
theorem exists_inside (h : b ≤ byteLength source) :
    ∃ pre rest, pre ++ rest = source ∧
      (byteLength pre = b ∨ ∃ c post j, rest = c :: post ∧ byteLength pre + j = b ∧ 0 < j ∧
        j < c.utf8Size) := by
  induction source generalizing b with
  | nil => exact ⟨[], [], rfl, .inl (Nat.le_zero.1 h).symm⟩
  | cons d cs ih =>
    rw [byteLength_cons] at h
    by_cases hinside : b < d.utf8Size
    · refine ⟨[], d :: cs, rfl, ?_⟩
      rcases Nat.eq_zero_or_pos b with hzero | hpos
      · exact .inl hzero.symm
      · exact .inr ⟨d, cs, b, rfl, Nat.zero_add b, hpos, hinside⟩
    · obtain ⟨pre, rest, rfl, hb⟩ := ih (b := b - d.utf8Size) (by omega)
      refine ⟨d :: pre, rest, rfl, hb.imp (fun hb => ?_) ?_⟩
      · rw [byteLength_cons]
        omega
      · rintro ⟨c, post, j, rfl, hb, hpos, hj⟩
        refine ⟨c, post, j, rfl, ?_, hpos, hj⟩
        rw [byteLength_cons]
        omega

/-- The last boundary up to an offset, and by how many columns the offset is behind it. -/
structure Front (source : List Char) (b lag : Nat) (pre rest : List Char) : Prop where
  append_eq : pre ++ rest = source
  le : byteLength pre ≤ b
  last : ∀ n, IsBoundary source n → n ≤ b → n ≤ byteLength pre
  lineCol_eq : (ofText source).lineCol b = ⟨((ofText source).lineCol (byteLength pre)).line,
    ((ofText source).lineCol (byteLength pre)).col - lag⟩

/-- Only inside of a character, in front of its last byte, is an offset behind the boundary. -/
theorem exists_front (source : List Char) (b : Nat) : ∃ lag pre rest, Front source b lag pre rest ∧
    (lag = 0 ∨ ∃ c post j, rest = c :: post ∧ byteLength pre + j = b ∧ 0 < j ∧
      j + 1 < c.utf8Size ∧ lag = c.utf8Size - 1 - j) := by
  rcases Nat.le_total b (byteLength source) with hb | hb
  · obtain ⟨pre, rest, hpre, rfl | ⟨c, post, j, rfl, rfl, hpos, hj⟩⟩ := exists_inside hb
    · exact ⟨0, pre, rest, ⟨hpre, Nat.le_refl _, fun _ _ h => h, rfl⟩, .inl rfl⟩
    · refine ⟨c.utf8Size - 1 - j, pre, c :: post, ⟨hpre, Nat.le_add_right _ _, ?_, ?_⟩, ?_⟩
      · rintro n ⟨pre', rest', hpre', rfl⟩ hle
        exact le_of_lt_behind hpre hpre' (by omega)
      · rw [lineCol_inside hpre hpos hj]
        congr 1
        omega
      · by_cases hlast : j + 1 < c.utf8Size
        · exact .inr ⟨c, post, j, rfl, rfl, hpos, hlast, rfl⟩
        · exact .inl (by omega)
  · exact ⟨0, source, [], ⟨List.append_nil source, hb, fun n hn _ => hn.le, lineCol_of_ge hb⟩, .inl rfl⟩

/-- On one line the column of an offset is at most that of the boundary in front of a later one. -/
theorem col_le_front {lag : Nat} (hb : Front source b lag pre rest) (h : a ≤ b)
    (hline : ((ofText source).lineCol a).line = ((ofText source).lineCol b).line) :
    ((ofText source).lineCol a).col ≤ ((ofText source).lineCol (byteLength pre)).col := by
  obtain ⟨lag', u, v, ha, -⟩ := exists_front source a
  have hle := hb.last _ ⟨u, v, ha.append_eq, rfl⟩ (Nat.le_trans ha.le h)
  rw [ha.lineCol_eq, hb.lineCol_eq] at hline
  have hcol := col_le_of_boundaries ha.append_eq hb.append_eq hle hline
  rw [ha.lineCol_eq]
  exact Nat.le_trans (Nat.sub_le _ _) hcol

/-- Positions go back nowhere but at offsets inside of a character of three or four bytes, in front of
its last byte, where the character is not the first one of its line.  An offset inside of a character is
on the line of the character, and as many columns back as there are bytes of it still to come, so
positions go back by two columns at most, and never to an earlier line. -/
theorem atMost_lineCol_iff (source : List Char) :
    (∀ b, (∀ a ≤ b, ((ofText source).lineCol a).AtMost ((ofText source).lineCol b)) ↔
        ∀ pre c post j, pre ++ c :: post = source → byteLength pre + j = b → 0 < j →
          j + 1 < c.utf8Size → ((ofText source).lineCol (byteLength pre)).col = 0) ∧
      (∀ pre c post j, pre ++ c :: post = source → 0 < j → j < c.utf8Size →
        (ofText source).lineCol (byteLength pre + j) =
          ⟨((ofText source).lineCol (byteLength pre)).line,
            ((ofText source).lineCol (byteLength pre)).col + j - (c.utf8Size - 1)⟩) ∧
      ∀ a b, a ≤ b →
        ((ofText source).lineCol a).line ≤ ((ofText source).lineCol b).line ∧
          (((ofText source).lineCol a).line = ((ofText source).lineCol b).line →
            ((ofText source).lineCol a).col ≤ ((ofText source).lineCol b).col + 2) := by
  refine ⟨fun b => ⟨?_, ?_⟩, fun pre c post j h hpos hj => lineCol_inside h hpos hj, ?_⟩
  · intro h pre c post j hpre hb hpos hj
    have hfront := h (byteLength pre) (by omega)
    rw [← hb, lineCol_inside hpre hpos (by omega)] at hfront
    rcases hfront with hline | ⟨-, hcol⟩
    · exact absurd hline (Nat.lt_irrefl _)
    · dsimp only at hcol
      omega
  · intro h a ha
    refine (Nat.lt_or_eq_of_le (line_le_of_le ha)).imp_right fun hline => ⟨hline, ?_⟩
    obtain ⟨lag, pre, rest, hb, hlag⟩ := exists_front source b
    have hcol := col_le_front hb ha hline
    rw [hb.lineCol_eq]
    rcases hlag with rfl | ⟨c, post, j, rfl, hj, hpos, hlast, -⟩
    · exact hcol
    · -- The character is the first one of its line, and there is no column to go back to.
      have hzero := h pre c post j hb.append_eq hj hpos hlast
      dsimp only
      omega
  · intro a b h
    refine ⟨line_le_of_le h, fun hline => ?_⟩
    obtain ⟨lag, pre, rest, hb, hlag⟩ := exists_front source b
    have hcol := col_le_front hb h hline
    have htwo : lag ≤ 2 := by
      rcases hlag with rfl | ⟨c, post, j, -, -, hpos, -, rfl⟩
      · exact Nat.zero_le 2
      · have := c.utf8Size_le_four
        omega
    rw [hb.lineCol_eq]
    dsimp only
    omega

/-- In front of the last byte of a euro sign behind a letter, positions go back. -/
theorem atMost_lineCol_iff_euro :
    let index := ofText "a€".toList
    index.lineCol 1 = ⟨0, 1⟩ ∧ index.lineCol 2 = ⟨0, 0⟩ ∧ index.lineCol 3 = ⟨0, 1⟩ ∧
      ¬ ∀ a ≤ 2, (index.lineCol a).AtMost (index.lineCol 2) := by
  intro index
  have hone : index.lineCol 1 = ⟨0, 1⟩ := by decide +kernel
  have hinside := (atMost_lineCol_iff "a€".toList).2.1 ['a'] '€' []
  refine ⟨hone, hinside 1 rfl (by decide) (by decide), hinside 2 rfl (by decide) (by decide), ?_⟩
  intro hback
  have hfirst : (index.lineCol 1).col = 0 :=
    ((atMost_lineCol_iff "a€".toList).1 2).1 hback ['a'] '€' [] 1 rfl rfl (by decide) (by decide)
  rw [hone] at hfirst
  cases hfirst

end LineIndex

end CRBasic
