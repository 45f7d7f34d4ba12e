import CRBasic.Proofs.Lexer.Breaks
import CRBasic.Proofs.Text.Boundaries
import CRBasic.Proofs.Text.Positions

/-!
# Ranges within a line

A range of a text is within a line if it is that of a part without the characters that end a line
(`ByteRange.WithinLine`).  Both of its ends are character boundaries of the text, and positions on the
same line (`WithinLine.line_eq`).
-/

namespace CRBasic

/-- The range of a part of a text in which no line ends. -/
def ByteRange.WithinLine (source : List Char) (r : ByteRange) : Prop :=
  ∃ pre mid rest, source = pre ++ (mid ++ rest) ∧ Unbroken mid ∧
    r = ⟨byteLength pre, byteLength pre + byteLength mid⟩

namespace LineIndex

variable {source : List Char} {m n offset : Nat}

/-- A line break ends just behind a character that ends a line. -/
theorem exists_of_mem_breakEnds (h : n ∈ breakEnds offset source) :
    ∃ pre c rest, source = pre ++ c :: rest ∧ (c = '\r' ∨ c = '\n') ∧
      n = offset + byteLength pre + 1 := by
  induction offset, source using breakEnds.induct with
  | case1 offset => exact absurd h List.not_mem_nil
  | case2 offset cs ih =>
    rcases List.mem_cons.1 h with rfl | h
    · exact ⟨['\r'], '\n', cs, rfl, .inr rfl, rfl⟩
    · obtain ⟨pre, c, rest, rfl, hc, rfl⟩ := ih h
      have hsize : byteLength ('\r' :: '\n' :: pre) = 2 + byteLength pre := by
        rw [byteLength_cons, byteLength_cons, utf8Size_of_break (.inl rfl),
          utf8Size_of_break (.inr rfl)]
        omega
      exact ⟨'\r' :: '\n' :: pre, c, rest, rfl, hc, by omega⟩
  | case3 offset c cs hcs hc ih =>
    rw [breakEnds.eq_3 _ _ _ hcs, if_pos hc] at h
    rcases List.mem_cons.1 h with rfl | h
    · exact ⟨[], c, cs, rfl, hc, rfl⟩
    · obtain ⟨pre, d, rest, rfl, hd, rfl⟩ := ih h
      refine ⟨c :: pre, d, rest, rfl, hd, ?_⟩
      rw [byteLength_cons, utf8Size_of_break hc]
      omega
  | case4 offset c cs hcs hc ih =>
    rw [breakEnds.eq_3 _ _ _ hcs, if_neg hc] at h
    obtain ⟨pre, d, rest, rfl, hd, rfl⟩ := ih h
    refine ⟨c :: pre, d, rest, rfl, hd, ?_⟩
    rw [byteLength_cons]
    omega

/-- Offsets between which no line break ends are on the same line. -/
theorem line_lineCol_eq (hmn : m ≤ n) (hn : n ≤ byteLength source)
    (h : ∀ b ∈ breakEnds 0 source, b ≤ n → b ≤ m) :
    ((ofText source).lineCol m).line = ((ofText source).lineCol n).line := by
  have hsame (bs : List Nat) (hbs : ∀ b ∈ bs, b ≤ n → b ≤ m) :
      bs.takeWhile (· ≤ m) = bs.takeWhile (· ≤ n) := by
    induction bs with
    | nil => rfl
    | cons b bs ih =>
      obtain ⟨hb, hrest⟩ := List.forall_mem_cons.1 hbs
      have hiff : (decide (b ≤ m)) = decide (b ≤ n) :=
        decide_eq_decide.2 ⟨fun hbm => Nat.le_trans hbm hmn, hb⟩
      rw [List.takeWhile_cons, List.takeWhile_cons, hiff, ih hrest]
  have hstarts : ∀ b ∈ (ofText source).lineStarts, b ≤ n → b ≤ m :=
    List.forall_mem_cons.2 ⟨fun _ => Nat.zero_le m, h⟩
  have hm : min m (ofText source).size = m := Nat.min_eq_left (Nat.le_trans hmn hn)
  have hn : min n (ofText source).size = n := Nat.min_eq_left hn
  simp only [lineCol, hm, hn, hsame _ hstarts]

end LineIndex

namespace ByteRange.WithinLine

variable {source : List Char} {r : ByteRange} (h : r.WithinLine source)
include h

theorem start_le_stop : r.start ≤ r.stop := by
  obtain ⟨pre, mid, rest, -, -, rfl⟩ := h
  exact Nat.le_add_right _ _

theorem isBoundary : IsBoundary source r.start ∧ IsBoundary source r.stop := by
  obtain ⟨pre, mid, rest, rfl, -, rfl⟩ := h
  refine ⟨isBoundary_byteLength pre _, ?_⟩
  rw [← List.append_assoc, ← byteLength_append]
  exact isBoundary_byteLength (pre ++ mid) rest

/-- Both ends of a range within a line are positions on that line. -/
theorem line_eq : ((LineIndex.ofText source).lineCol r.start).line =
    ((LineIndex.ofText source).lineCol r.stop).line := by
  refine LineIndex.line_lineCol_eq h.start_le_stop h.isBoundary.2.le fun b hb hle => ?_
  obtain ⟨pre, mid, rest, rfl, ⟨hreturn, hfeed⟩, rfl⟩ := h
  obtain ⟨front, c, back, hsplit, hc, rfl⟩ := LineIndex.exists_of_mem_breakEnds hb
  refine Nat.le_of_not_lt fun hlt => ?_
  dsimp only at hle hlt
  -- The character that ends the line stands behind the front and before the end of the part.
  have hfront : pre <+: front :=
    prefix_of_byteLength_le (s := pre ++ (mid ++ rest)) (List.prefix_append _ _)
      ⟨c :: back, hsplit.symm⟩ (by omega)
  obtain ⟨front, rfl⟩ := hfront
  rw [List.append_assoc, List.append_cancel_left_eq] at hsplit
  have hmid : front ++ [c] <+: mid := by
    refine prefix_of_byteLength_le (s := mid ++ rest) ⟨back, by simp [hsplit]⟩
      (List.prefix_append _ _) ?_
    have hsize := LineIndex.utf8Size_of_break hc
    simp only [byteLength_append, byteLength_cons, byteLength_nil] at hle ⊢
    omega
  have hmem : c ∈ mid := hmid.subset (by simp)
  rcases hc with rfl | rfl
  · exact hreturn hmem
  · exact hfeed hmem

end ByteRange.WithinLine

end CRBasic
