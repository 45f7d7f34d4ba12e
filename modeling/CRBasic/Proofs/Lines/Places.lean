import CRBasic.Proofs.Lines.Tree
import CRBasic.Proofs.Text.Lines
import CRBasic.Proofs.Text.Problems

/-!
# Places within lines

A report that stands on one line of words is a problem on one line of the text
(`Report.OneLine.withinLine`).  Its edges cut the lexemes of the text, and between the cuts there is no
line break: the word after it would be a word of the report that starts a line.
-/

namespace CRBasic

open Lexeme

variable {xs : List Lexeme} {n : Nat}

namespace Word

/-- The range of a word is that of the lexeme after so many others. -/
theorem exists_of_getElem?_rangesFrom {k : Nat} {r : ByteRange}
    (h : (rangesFrom k xs)[n]? = some r) :
    ∃ pre x post, xs = pre ++ x :: post ∧ x.kind.isTrivia = false ∧ (words pre).length = n ∧
      r = (x.token (k + byteLength (joined pre))).range := by
  induction xs generalizing k n with
  | nil => cases h
  | cons x xs ih =>
    have hskip {m : Nat} (hm : (rangesFrom (x.token k).range.stop xs)[m]? = some r) :
        ∃ pre y post, x :: xs = x :: (pre ++ y :: post) ∧ y.kind.isTrivia = false ∧
          (words pre).length = m ∧ r = (y.token (k + byteLength (joined (x :: pre)))).range := by
      obtain ⟨pre, y, post, rfl, hy, hwords, rfl⟩ := ih hm
      refine ⟨pre, y, post, rfl, hy, hwords, ?_⟩
      rw [joined_cons, byteLength_append, ← Nat.add_assoc]
      rfl
    rw [rangesFrom] at h
    split at h
    · next hx =>
      obtain ⟨pre, y, post, hsplit, hy, hwords, hr⟩ := hskip h
      exact ⟨x :: pre, y, post, hsplit, hy, by simpa [words, hx] using hwords, hr⟩
    · next hx =>
      have hword : x.kind.isTrivia = false := Bool.eq_false_iff.2 hx
      cases n with
      | zero =>
        cases h
        exact ⟨[], x, xs, rfl, hword, rfl, rfl⟩
      | succ n =>
        obtain ⟨pre, y, post, hsplit, hy, hwords, hr⟩ := hskip h
        exact ⟨x :: pre, y, post, hsplit, hy, by simpa [words, hword] using hwords, hr⟩

end Word

namespace Edge

/-- The byte offset of an edge in the text that some lexemes make up. -/
def offsetIn (xs : List Lexeme) (e : Edge) : Nat :=
  e.offset (Word.rangesFrom 0 xs).toArray (byteLength (joined xs))

/-- An edge lies between two of the lexemes of its text. -/
structure Cuts (xs : List Lexeme) (e : Edge) (pre post : List Lexeme) : Prop where
  eq_append : xs = pre ++ post
  offset_eq : e.offsetIn xs = byteLength (joined pre)

/-- Before a line break behind an edge stand all words that have begun there. -/
theorem exists_cuts_begun (e : Edge) (xs : List Lexeme) : ∃ pre post, e.Cuts xs pre post ∧
    ∀ mid z rest, post = mid ++ z :: rest → z.kind = .newline →
      e.begun ≤ (words (pre ++ mid)).length := by
  have hend (h : e.offsetIn xs = byteLength (joined xs)) : ∃ pre post, e.Cuts xs pre post ∧
        ∀ mid z rest, post = mid ++ z :: rest → z.kind = .newline →
          e.begun ≤ (words (pre ++ mid)).length :=
    ⟨xs, [], ⟨(List.append_nil xs).symm, h⟩, fun mid z rest h => by simp at h⟩
  cases e with
  | startAfter n =>
    cases hn : (Word.rangesFrom 0 xs)[n]? with
    | none => exact hend (by simp [offsetIn, offset, hn])
    | some r =>
      obtain ⟨pre, x, post, rfl, hx, rfl, rfl⟩ := Word.exists_of_getElem?_rangesFrom hn
      refine ⟨pre, x :: post, ⟨rfl, by simp [offsetIn, offset, hn, token]⟩, fun mid z rest hmid hz => ?_⟩
      -- The word at the edge is no line break, so it stands before the line break.
      cases mid with
      | nil =>
        rw [List.nil_append] at hmid
        rw [(List.cons.inj hmid).1, hz] at hx
        cases hx
      | cons y mid =>
        rw [(List.cons.inj hmid).1] at hx
        simp [begun, words, hx]
  | endOf n =>
    cases n with
    | zero => exact ⟨[], xs, ⟨rfl, rfl⟩, fun _ _ _ _ _ => Nat.zero_le _⟩
    | succ n =>
      cases hn : (Word.rangesFrom 0 xs)[n]? with
      | none => exact hend (by simp [offsetIn, offset, hn])
      | some r =>
        obtain ⟨pre, x, post, rfl, hx, rfl, rfl⟩ := Word.exists_of_getElem?_rangesFrom hn
        refine ⟨pre ++ [x], post, ⟨by simp, ?_⟩, fun mid z rest _ _ => ?_⟩
        · simp [offsetIn, offset, hn, token, joined_append]
        · simp [begun, words, hx]

/-- Before a line break in front of the end of a word stands not that word. -/
theorem exists_cuts_endOf (h : n ≤ (words xs).length) : ∃ pre post, (endOf n).Cuts xs pre post ∧
    ∀ mid z rest, pre = mid ++ z :: rest → z.kind = .newline → (words mid).length < n := by
  cases n with
  | zero => exact ⟨[], xs, ⟨rfl, rfl⟩, fun mid z rest h => by simp at h⟩
  | succ n =>
    have hlength : n < (Word.rangesFrom 0 xs).length := by
      rw [Word.length_rangesFrom 0 true, Word.length_ofLexemes]
      exact h
    have hn := List.getElem?_eq_getElem hlength
    obtain ⟨pre, x, post, hsplit, hx, hwords, hr⟩ := Word.exists_of_getElem?_rangesFrom hn
    refine ⟨pre ++ [x], post, ⟨by simp [hsplit], ?_⟩, fun mid z rest hmid hz => ?_⟩
    · simp [offsetIn, offset, hn, hr, token, joined_append]
    · rcases List.eq_nil_or_concat rest with rfl | ⟨rest, y, rfl⟩
      · obtain ⟨-, hxz⟩ := List.append_inj' hmid rfl
        rw [(List.cons.inj hxz).1, hz] at hx
        cases hx
      · rw [List.concat_eq_append, ← List.cons_append, ← List.append_assoc] at hmid
        obtain ⟨rfl, -⟩ := List.append_inj' hmid rfl
        rw [← hwords, Lexeme.words_append, List.length_append]
        omega

/-- No edge lies behind the end of the text. -/
theorem offsetIn_le (e : Edge) (xs : List Lexeme) : e.offsetIn xs ≤ byteLength (joined xs) := by
  obtain ⟨pre, post, hcuts, -⟩ := e.exists_cuts_begun xs
  rw [hcuts.offset_eq, hcuts.eq_append, joined_append, byteLength_append]
  exact Nat.le_add_right _ _

end Edge

/-- The byte range of a report in the text that some lexemes make up. -/
def Report.rangeIn (xs : List Lexeme) (r : Report) : ByteRange :=
  (r.toProblem (Word.rangesFrom 0 xs).toArray (byteLength (joined xs))).range

theorem Report.rangeIn_eq (r : Report) (xs : List Lexeme) : r.rangeIn xs =
    ⟨r.start.offsetIn xs, max (r.start.offsetIn xs) (r.stop.offsetIn xs)⟩ := rfl

/-- Between two edges that no line break separates there is a range within a line. -/
theorem Report.withinLine_rangeIn_of_cuts {r : Report} {pre mid post post' : List Lexeme}
    (hstart : r.start.Cuts xs pre post) (hstop : r.stop.Cuts xs (pre ++ mid) post')
    (hmid : ∀ x ∈ mid, Unbroken x.text) : (r.rangeIn xs).WithinLine (joined xs) := by
  refine ⟨joined pre, joined mid, joined post', ?_, unbroken_joined hmid, ?_⟩
  · rw [← joined_append, ← joined_append, ← List.append_assoc, ← hstop.eq_append]
  · rw [rangeIn_eq, hstart.offset_eq, hstop.offset_eq, joined_append, byteLength_append,
      Nat.max_eq_right (Nat.le_add_right _ _)]

/-- A place that does not end behind its start is empty. -/
theorem Report.withinLine_rangeIn_of_le {r : Report} (h : r.stop.offsetIn xs ≤ r.start.offsetIn xs) :
    (r.rangeIn xs).WithinLine (joined xs) := by
  obtain ⟨pre, post, hstart, -⟩ := r.start.exists_cuts_begun xs
  refine ⟨joined pre, [], joined post, ?_, unbroken_nil, ?_⟩
  · rw [List.nil_append, ← joined_append, ← hstart.eq_append]
  · rw [rangeIn_eq, Nat.max_eq_left h, hstart.offset_eq, byteLength_nil, Nat.add_zero]

/-- A report on one line of the words of a text is a problem on one line of the text. -/
theorem Report.OneLine.withinLine {r : Report} (h : r.OneLine (Word.ofLexemes true xs))
    (hxs : ∀ x ∈ xs, x.KeepsLine) : (r.rangeIn xs).WithinLine (joined xs) := by
  rcases h with ⟨n, hn, hstartAfter⟩ | ⟨n, hn, hendOf, hline⟩
  · refine withinLine_rangeIn_of_le ?_
    have hnone : (Word.rangesFrom 0 xs)[n]? = none := by
      rw [List.getElem?_eq_none_iff, Word.length_rangesFrom 0 true]
      exact hn
    have hstart : r.start.offsetIn xs = byteLength (joined xs) := by
      rw [hstartAfter]
      simp [Edge.offsetIn, Edge.offset, hnone]
    rw [hstart]
    exact r.stop.offsetIn_le xs
  · rw [Word.length_ofLexemes] at hn
    obtain ⟨pre, post, hstart, hbegun⟩ := r.start.exists_cuts_begun xs
    obtain ⟨pre', post', hstop, hended⟩ := Edge.exists_cuts_endOf hn
    rw [← hendOf] at hstop
    rcases List.prefix_or_prefix_of_prefix ⟨post, hstart.eq_append.symm⟩
      ⟨post', hstop.eq_append.symm⟩ with ⟨mid, rfl⟩ | ⟨back, rfl⟩
    · refine withinLine_rangeIn_of_cuts hstart hstop fun x hx => ?_
      have hmem : x ∈ xs := by
        rw [hstop.eq_append]
        exact List.mem_append_left _ (List.mem_append_right _ hx)
      refine hxs x hmem fun hbreak => ?_
      obtain ⟨us, vs, rfl⟩ := List.append_of_mem hx
      have hpost : post = us ++ x :: (vs ++ post') := by
        have hsame := hstart.eq_append.symm.trans hstop.eq_append
        simpa [List.append_assoc] using hsame
      have hsplit : xs = (pre ++ us) ++ x :: (vs ++ post') := by
        rw [hstart.eq_append, hpost, List.append_assoc]
      exact hline.ne_newline hn hsplit (hbegun us x _ hpost hbreak)
        (hended (pre ++ us) x vs (by simp) hbreak) hbreak
    · refine withinLine_rangeIn_of_le ?_
      rw [hstart.offset_eq, hstop.offset_eq, joined_append, byteLength_append]
      exact Nat.le_add_right _ _

end CRBasic
