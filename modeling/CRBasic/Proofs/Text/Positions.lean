import CRBasic.Diagnostic

/-!
# Positions in two texts, one after the other

Where a text ends in a line feed and another one follows, positions in the first are the same
(`lineCol_append_left`), and positions in the second are those of the second alone, as many lines
further down as the first has line breaks (`lineCol_append_right`).
-/

namespace CRBasic

/-- A text that ends in a line feed. -/
def EndsLine (u : List Char) : Prop := u.getLast? = some '\n'

theorem EndsLine.of_cons {c d : Char} {u : List Char} (h : EndsLine (c :: d :: u)) :
    EndsLine (d :: u) := by
  rwa [EndsLine, List.getLast?_cons_cons] at h

/-- Behind its first character, such a text has nothing left or ends in the line feed still. -/
theorem EndsLine.tail {c : Char} {u : List Char} (h : EndsLine (c :: u)) : u = [] ∨ EndsLine u := by
  cases u with
  | nil => exact .inl rfl
  | cons d u => exact .inr h.of_cons

theorem EndsLine.exists_eq {u : List Char} (h : EndsLine u) : ∃ v, u = v ++ ['\n'] :=
  List.getLast?_eq_some_iff.1 h

/-- The same character in a text that starts `n` bytes earlier. -/
def WideChar.shift (n : Nat) (c : WideChar) : WideChar := ⟨n + c.start, c.width⟩

namespace LineIndex

variable {u v : List Char} {offset n : Nat}

/-! ### Breaks -/

theorem breakEnds_shift (n offset : Nat) (u : List Char) :
    breakEnds (n + offset) u = (breakEnds offset u).map (n + ·) := by
  induction offset, u using breakEnds.induct with
  | case1 offset => rfl
  | case2 offset cs ih => rw [breakEnds, breakEnds, List.map_cons, ← ih, Nat.add_assoc]
  | case3 offset c cs hcs hc ih =>
    rw [breakEnds.eq_3 _ _ _ hcs, breakEnds.eq_3 _ _ _ hcs, if_pos hc, if_pos hc, List.map_cons,
      ← ih, Nat.add_assoc]
  | case4 offset c cs hcs hc ih =>
    rw [breakEnds.eq_3 _ _ _ hcs, breakEnds.eq_3 _ _ _ hcs, if_neg hc, if_neg hc, ← ih,
      Nat.add_assoc]

theorem breakEnds_bounds (offset : Nat) (u : List Char) :
    ∀ n ∈ breakEnds offset u, offset < n ∧ n ≤ offset + byteLength u := by
  induction offset, u using breakEnds.induct with
  | case1 offset => nofun
  | case2 offset cs ih =>
    have hcr : ('\r' : Char).utf8Size = 1 := rfl
    have hlf : ('\n' : Char).utf8Size = 1 := rfl
    intro n hn
    rw [byteLength_cons, byteLength_cons, hcr, hlf]
    rcases List.mem_cons.1 hn with rfl | hn
    · omega
    · have := ih n hn
      omega
  | case3 offset c cs hcs hc ih =>
    have hpos := c.utf8Size_pos
    intro n hn
    rw [breakEnds.eq_3 _ _ _ hcs, if_pos hc] at hn
    rw [byteLength_cons]
    rcases List.mem_cons.1 hn with rfl | hn
    · omega
    · have := ih n hn
      omega
  | case4 offset c cs hcs hc ih =>
    have hpos := c.utf8Size_pos
    intro n hn
    rw [breakEnds.eq_3 _ _ _ hcs, if_neg hc] at hn
    have := ih n hn
    rw [byteLength_cons]
    omega

/-- A line feed, alone or after a carriage return, is one byte more. -/
theorem utf8Size_of_break {c : Char} (hc : c = '\r' ∨ c = '\n') : c.utf8Size = 1 := by
  rcases hc with rfl | rfl <;> rfl

/-- What follows a text that ends in a line feed does not join its first character. -/
theorem sides_of_cons {c : Char} {u : List Char} (h : c :: u = [] ∨ EndsLine (c :: u))
    (hc : ∀ w, c = '\r' → u = '\n' :: w → False) (v : List Char) :
    (∀ w, c = '\r' → u ++ v = '\n' :: w → False) ∧ (u = [] ∨ EndsLine u) := by
  cases u with
  | nil =>
    refine ⟨fun w hcr _ => ?_, .inl rfl⟩
    have hlast : [c].getLast? = some '\n' := h.resolve_left nofun
    rw [hcr] at hlast
    cases hlast
  | cons d u =>
    refine ⟨fun w hcr hw => ?_, .inr (h.resolve_left nofun).of_cons⟩
    rw [List.cons_append, List.cons.injEq] at hw
    exact hc u hcr (by rw [hw.1])

theorem breakEnds_append (offset : Nat) (hu : u = [] ∨ EndsLine u) (v : List Char) :
    breakEnds offset (u ++ v) = breakEnds offset u ++ breakEnds (offset + byteLength u) v := by
  induction offset, u using breakEnds.induct with
  | case1 offset => rfl
  | case2 offset cs ih =>
    have hcs : cs = [] ∨ EndsLine cs := (hu.resolve_left nofun).of_cons.tail
    have hsize : offset + byteLength ('\r' :: '\n' :: cs) = offset + 2 + byteLength cs := by
      rw [byteLength_cons, byteLength_cons, utf8Size_of_break (.inl rfl),
        utf8Size_of_break (.inr rfl)]
      omega
    rw [hsize, List.cons_append, List.cons_append, breakEnds, ih hcs, breakEnds, List.cons_append]
  | case3 offset c cs hcs hc ih =>
    have hsize : offset + byteLength (c :: cs) = offset + 1 + byteLength cs := by
      rw [byteLength_cons, utf8Size_of_break hc, Nat.add_assoc]
    obtain ⟨hside, hcs'⟩ := sides_of_cons hu hcs v
    rw [hsize, List.cons_append, breakEnds.eq_3 _ _ _ hside, if_pos hc, ih hcs',
      breakEnds.eq_3 _ _ _ hcs, if_pos hc, List.cons_append]
  | case4 offset c cs hcs hc ih =>
    obtain ⟨hside, hcs'⟩ := sides_of_cons hu hcs v
    rw [byteLength_cons, List.cons_append, breakEnds.eq_3 _ _ _ hside, if_neg hc, ih hcs',
      breakEnds.eq_3 _ _ _ hcs, if_neg hc, Nat.add_assoc]

/-- The last line of a text that ends in a line feed starts at its end. -/
theorem getLastD_breakEnds (offset : Nat) (hu : u = [] ∨ EndsLine u) :
    (breakEnds offset u).getLastD offset = offset + byteLength u := by
  induction offset, u using breakEnds.induct with
  | case1 offset => rfl
  | case2 offset cs ih =>
    have hcs : cs = [] ∨ EndsLine cs := (hu.resolve_left nofun).of_cons.tail
    rw [breakEnds, List.getLastD_cons, ih hcs, byteLength_cons, byteLength_cons,
      utf8Size_of_break (.inl rfl), utf8Size_of_break (.inr rfl)]
    omega
  | case3 offset c cs hcs hc ih =>
    obtain ⟨-, hcs'⟩ := sides_of_cons hu hcs []
    rw [breakEnds.eq_3 _ _ _ hcs, if_pos hc, List.getLastD_cons, ih hcs', byteLength_cons,
      utf8Size_of_break hc, Nat.add_assoc]
  | case4 offset c cs hcs hc ih =>
    obtain ⟨-, hcs'⟩ := sides_of_cons hu hcs []
    have hend := ih hcs'
    rw [breakEnds.eq_3 _ _ _ hcs, if_neg hc, byteLength_cons, ← Nat.add_assoc, ← hend]
    -- The line feed at the end of the text is still to come.
    cases hbreaks : breakEnds (offset + c.utf8Size) cs with
    | cons n ns => rw [List.getLastD_cons, List.getLastD_cons]
    | nil =>
      rw [hbreaks, List.getLastD_nil] at hend
      cases cs with
      | nil =>
        have hlast : [c].getLast? = some '\n' := hu.resolve_left nofun
        exact absurd (.inr (Option.some.inj hlast)) hc
      | cons d cs =>
        have hpos := d.utf8Size_pos
        rw [byteLength_cons] at hend
        omega

/-! ### Wide characters -/

theorem wideCharsFrom_shift (n offset : Nat) (u : List Char) :
    wideCharsFrom (n + offset) u = (wideCharsFrom offset u).map (·.shift n) := by
  induction u generalizing offset with
  | nil => rfl
  | cons c u ih =>
    rw [wideCharsFrom, wideCharsFrom]
    split
    · rw [Nat.add_assoc, ih]
    · rw [Nat.add_assoc, ih, List.map_cons]
      rfl

theorem wideCharsFrom_append (offset : Nat) (u v : List Char) :
    wideCharsFrom offset (u ++ v) =
      wideCharsFrom offset u ++ wideCharsFrom (offset + byteLength u) v := by
  induction u generalizing offset with
  | nil => rfl
  | cons c u ih =>
    rw [List.cons_append, wideCharsFrom, wideCharsFrom, byteLength_cons, ← Nat.add_assoc, ih]
    split <;> rfl

theorem wideCharsFrom_bounds (offset : Nat) (u : List Char) :
    ∀ c ∈ wideCharsFrom offset u, offset ≤ c.start ∧ c.start < offset + byteLength u := by
  induction u generalizing offset with
  | nil => nofun
  | cons d u ih =>
    have hpos := d.utf8Size_pos
    intro c hc
    rw [wideCharsFrom] at hc
    rw [byteLength_cons]
    split at hc
    · have := ih _ c hc
      omega
    · rcases List.mem_cons.1 hc with rfl | hc
      · dsimp only
        omega
      · have := ih _ c hc
        omega

/-! ### Lines and columns -/

theorem takeWhile_append_of_all {α : Type} {f : α → Bool} {xs : List α} (h : ∀ x ∈ xs, f x)
    (ys : List α) : (xs ++ ys).takeWhile f = xs ++ ys.takeWhile f :=
  List.takeWhile_append_of_pos h

theorem takeWhile_append_of_none {α : Type} {f : α → Bool} {xs ys : List α} (h : ∀ y ∈ ys, ¬ f y) :
    (xs ++ ys).takeWhile f = xs.takeWhile f := by
  have hys : ys.takeWhile f = [] := by
    cases ys with
    | nil => rfl
    | cons y ys => exact List.takeWhile_cons_of_neg (h y List.mem_cons_self)
  rw [List.takeWhile_append, hys]
  split
  · next hlength =>
    rw [List.append_nil, (List.takeWhile_prefix f).eq_of_length hlength]
  · rfl

/-- The bytes by which some characters that start between two offsets exceed one byte each. -/
def extraAmong (lo hi : Nat) (cs : List WideChar) : Nat :=
  (cs.filter fun c => lo ≤ c.start && c.start < hi).foldr (fun c n => c.width - 1 + n) 0

theorem extraBytes_eq (index : LineIndex) (lo hi : Nat) :
    index.extraBytes lo hi = extraAmong lo hi index.wideChars := rfl

theorem extraAmong_append {lo hi : Nat} (cs ds : List WideChar) :
    extraAmong lo hi (cs ++ ds) = extraAmong lo hi cs + extraAmong lo hi ds := by
  simp only [extraAmong, List.filter_append, List.foldr_append]
  generalize (ds.filter _).foldr _ 0 = m
  induction cs.filter _ with
  | nil => simp
  | cons c cs ih => simp [ih, Nat.add_assoc]

theorem extraAmong_eq_zero {lo hi : Nat} {cs : List WideChar}
    (h : ∀ c ∈ cs, c.start < lo ∨ hi ≤ c.start) : extraAmong lo hi cs = 0 := by
  have hnone : cs.filter (fun c => lo ≤ c.start && c.start < hi) = [] := by
    rw [List.filter_eq_nil_iff]
    intro c hc
    have := h c hc
    simp
    omega
  rw [extraAmong, hnone]
  rfl

theorem extraAmong_shift {lo hi : Nat} (cs : List WideChar) :
    extraAmong (n + lo) (n + hi) (cs.map (·.shift n)) = extraAmong lo hi cs := by
  simp only [extraAmong, List.filter_map, List.foldr_map, WideChar.shift]
  congr 2
  funext c
  simp

/-! ### Positions within a line -/

theorem breakEnds_append_of_line (hfeed : '\n' ∉ u) (hreturn : '\r' ∉ u) (offset : Nat)
    (v : List Char) : breakEnds offset (u ++ v) = breakEnds (offset + byteLength u) v := by
  induction u generalizing offset with
  | nil => rfl
  | cons c u ih =>
    obtain ⟨hc, hu⟩ := not_or.1 (mt List.mem_cons.2 hfeed)
    obtain ⟨hc', hu'⟩ := not_or.1 (mt List.mem_cons.2 hreturn)
    have hpair : ∀ w, c = '\r' → u ++ v = '\n' :: w → False := fun _ h _ => hc' h.symm
    have hbreak : ¬ (c = '\r' ∨ c = '\n') := not_or.2 ⟨Ne.symm hc', Ne.symm hc⟩
    rw [List.cons_append, breakEnds.eq_3 _ _ _ hpair, if_neg hbreak, ih hu hu', byteLength_cons,
      Nat.add_assoc]

/-- The extra bytes of a text are its bytes less its characters. -/
theorem extraAmong_wideCharsFrom {lo hi : Nat} (hlo : lo ≤ offset)
    (hhi : offset + byteLength u ≤ hi) :
    extraAmong lo hi (wideCharsFrom offset u) + u.length = byteLength u := by
  induction u generalizing offset with
  | nil => rfl
  | cons c u ih =>
    have hpos := c.utf8Size_pos
    rw [byteLength_cons, ← Nat.add_assoc] at hhi
    have hrest := ih (Nat.le_add_right_of_le hlo) hhi
    rw [wideCharsFrom, List.length_cons, byteLength_cons]
    split
    · next hnarrow =>
      have hsize : c.utf8Size = 1 := Char.utf8Size_eq_one_iff.2 (by
        rw [UInt32.le_iff_toNat_le]
        exact Nat.le_of_lt_succ hnarrow)
      omega
    · have hbetween : (decide (lo ≤ offset) && decide (offset < hi)) = true := by
        simp
        omega
      have hcons : extraAmong lo hi (⟨offset, c.utf8Size⟩ :: wideCharsFrom (offset + c.utf8Size) u) =
          c.utf8Size - 1 + extraAmong lo hi (wideCharsFrom (offset + c.utf8Size) u) := by
        simp only [extraAmong, List.filter_cons, hbetween, if_true, List.foldr_cons]
      omega

/-- In the first line of a text the column counts the characters before. -/
theorem lineCol_of_line (hfeed : '\n' ∉ u) (hreturn : '\r' ∉ u) (v : List Char) :
    (ofText (u ++ v)).lineCol (byteLength u) = ⟨0, u.length⟩ := by
  have hbefore : ([0] ++ breakEnds (byteLength u) v).takeWhile (· ≤ byteLength u) = [0] := by
    rw [takeWhile_append_of_none]
    · rfl
    · intro n hn
      have := breakEnds_bounds (byteLength u) v n hn
      simp
      omega
  have hright : extraAmong 0 (byteLength u) (wideCharsFrom (byteLength u) v) = 0 :=
    extraAmong_eq_zero fun c hc => .inr (wideCharsFrom_bounds (byteLength u) v c hc).1
  have hleft := extraAmong_wideCharsFrom (u := u) (Nat.le_refl 0) (Nat.le_of_eq (Nat.zero_add _))
  rw [ofText, breakEnds_append_of_line hfeed hreturn, wideCharsFrom_append, Nat.zero_add, lineCol]
  dsimp only
  rw [byteLength_append, Nat.min_eq_left (Nat.le_add_right _ _), ← List.singleton_append, hbefore,
    extraBytes_eq, extraAmong_append]
  have hlast : [0].getLastD 0 = 0 := rfl
  rw [hlast, hright]
  congr 1
  omega

/-! ### Positions after whole lines -/

section

variable (hu : EndsLine u)
include hu

theorem ofText_append : ofText (u ++ v) =
    ⟨byteLength u + byteLength v,
      (0 :: breakEnds 0 u) ++ (breakEnds 0 v).map (byteLength u + ·),
      wideCharsFrom 0 u ++ (wideCharsFrom 0 v).map (·.shift (byteLength u))⟩ := by
  have hbreaks := breakEnds_shift (byteLength u) 0 v
  have hwide := wideCharsFrom_shift (byteLength u) 0 v
  rw [Nat.add_zero] at hbreaks hwide
  rw [ofText, byteLength_append, breakEnds_append 0 (.inr hu), wideCharsFrom_append, Nat.zero_add,
    hbreaks, hwide, List.cons_append]

/-- Positions in the first text do not depend on the second. -/
theorem lineCol_append_left (h : offset ≤ byteLength u) :
    (ofText (u ++ v)).lineCol offset = (ofText u).lineCol offset := by
  have hbefore : ((0 :: breakEnds 0 u) ++ (breakEnds 0 v).map (byteLength u + ·)).takeWhile
      (· ≤ offset) = (0 :: breakEnds 0 u).takeWhile (· ≤ offset) := by
    refine takeWhile_append_of_none fun n hn => ?_
    obtain ⟨m, hm, rfl⟩ := List.mem_map.1 hn
    have := breakEnds_bounds 0 v m hm
    simp
    omega
  have hextra (lo : Nat) : extraAmong lo offset (wideCharsFrom 0 u ++
      (wideCharsFrom 0 v).map (·.shift (byteLength u))) = extraAmong lo offset (wideCharsFrom 0 u) := by
    have hright : extraAmong lo offset ((wideCharsFrom 0 v).map (·.shift (byteLength u))) = 0 := by
      refine extraAmong_eq_zero fun c hc => .inr ?_
      obtain ⟨d, -, rfl⟩ := List.mem_map.1 hc
      exact Nat.le_trans h (Nat.le_add_right _ _)
    rw [extraAmong_append, hright, Nat.add_zero]
  rw [ofText_append hu, lineCol, lineCol, ofText]
  dsimp only
  rw [Nat.min_eq_left (Nat.le_trans h (Nat.le_add_right _ _)), Nat.min_eq_left h, hbefore,
    extraBytes_eq, extraBytes_eq, hextra]

/-- Positions in the second text are further down by the lines of the first. -/
theorem lineCol_append_right (offset : Nat) :
    (ofText (u ++ v)).lineCol (byteLength u + offset) =
      ⟨(breakEnds 0 u).length + ((ofText v).lineCol offset).line, ((ofText v).lineCol offset).col⟩ := by
  have hall : ∀ n ∈ 0 :: breakEnds 0 u, n ≤ byteLength u := by
    intro n hn
    rcases List.mem_cons.1 hn with rfl | hn
    · exact Nat.zero_le _
    · have := breakEnds_bounds 0 u n hn
      omega
  have hlast := getLastD_breakEnds 0 (.inr hu)
  have hbefore (o : Nat) : ((0 :: breakEnds 0 u) ++
      (breakEnds 0 v).map (byteLength u + ·)).takeWhile (· ≤ byteLength u + o) =
        (0 :: breakEnds 0 u) ++ ((breakEnds 0 v).takeWhile (· ≤ o)).map (byteLength u + ·) := by
    rw [takeWhile_append_of_all, List.takeWhile_map]
    · congr 3
      funext m
      simp
    · intro n hn
      have := hall n hn
      simp
      omega
  rw [ofText_append hu, lineCol, lineCol, ofText]
  dsimp only
  rw [Nat.add_min_add_left]
  generalize min offset (byteLength v) = o
  rw [hbefore, List.takeWhile_cons_of_pos (by simp)]
  generalize (breakEnds 0 v).takeWhile (· ≤ o) = starts
  have hstart : ((0 :: breakEnds 0 u) ++ starts.map (byteLength u + ·)).getLastD 0 =
      byteLength u + (0 :: starts).getLastD 0 := by
    rcases List.eq_nil_or_concat starts with rfl | ⟨starts, n, rfl⟩
    · rw [List.map_nil, List.append_nil, List.getLastD_cons, hlast, Nat.add_comm]
      rfl
    · rw [List.concat_eq_append, List.map_append, ← List.append_assoc, List.map_singleton,
        List.getLastD_concat, ← List.cons_append, List.getLastD_concat]
  have hextra (lo : Nat) : extraAmong (byteLength u + lo) (byteLength u + o) (wideCharsFrom 0 u ++
      (wideCharsFrom 0 v).map (·.shift (byteLength u))) = extraAmong lo o (wideCharsFrom 0 v) := by
    have hleft : extraAmong (byteLength u + lo) (byteLength u + o) (wideCharsFrom 0 u) = 0 := by
      refine extraAmong_eq_zero fun c hc => ?_
      have := wideCharsFrom_bounds 0 u c hc
      omega
    rw [extraAmong_append, hleft, extraAmong_shift, Nat.zero_add]
  rw [hstart, extraBytes_eq, extraBytes_eq, hextra]
  dsimp only
  congr 1
  · simp
  · omega

end

/-- After whole lines and a part of the next one, the line is the number of breaks and the column the
number of characters of the part. -/
theorem lineCol_of_lines (hu : u = [] ∨ EndsLine u) {w : List Char} (hfeed : '\n' ∉ w)
    (hreturn : '\r' ∉ w) (v : List Char) :
    (ofText (u ++ w ++ v)).lineCol (byteLength (u ++ w)) = ⟨(breakEnds 0 u).length, w.length⟩ := by
  rcases hu with rfl | hu
  · exact lineCol_of_line hfeed hreturn v
  · rw [List.append_assoc, byteLength_append, lineCol_append_right hu,
      lineCol_of_line hfeed hreturn v, Nat.add_zero]

end LineIndex

end CRBasic
