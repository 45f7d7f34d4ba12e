import CRBasic.Proofs.Text.Problems

/-!
# Two texts, one after the other

Where the first of two texts ends in a line feed and all its blocks have ended, the two are parsed one
after the other (`parseWith_append`): nothing that the parse of the first text leaves behind matters
to the second.
-/

namespace CRBasic

open LineIndex

/-- The same position, some lines further down. -/
def LineCol.down (lines : Nat) (p : LineCol) : LineCol := ⟨lines + p.line, p.col⟩

/-- The same diagnostic in a text with so many more bytes and lines before it. -/
def Diagnostic.shift (bytes lines : Nat) (d : Diagnostic) : Diagnostic :=
  ⟨d.cause, d.range.shift bytes, d.span.start.down lines, d.span.stop.down lines⟩

variable {u v : List Char} {options : ParseOptions}

/-! ### Lexemes -/

theorem EndsLine.exists_lexemes (hu : EndsLine u) : ∃ w, u = w ++ ['\n'] ∧
    lexemes u = Lexeme.endLine (lexemes w) ∧
    ∀ v, lexemes (u ++ v) = lexemes u ++ lexemes v := by
  obtain ⟨w, rfl⟩ := hu.exists_eq
  have hw : lexemes (w ++ ['\n']) = Lexeme.endLine (lexemes w) := by
    have h := lexemes_lineFeed w []
    rwa [show lexemes [] = [] from rfl, List.append_nil] at h
  refine ⟨w, rfl, hw, fun v => ?_⟩
  rw [hw, ← List.append_cons, lexemes_lineFeed]

/-- The words of the two texts, one after the other. -/
theorem EndsLine.words_append (hu : EndsLine u) (v : List Char) :
    Word.ofLexemes true (lexemes (u ++ v)) =
      Word.ofLexemes true (lexemes u) ++ Word.ofLexemes true (lexemes v) := by
  obtain ⟨w, rfl⟩ := hu.exists_eq
  have hw : Word.ofLexemes true (lexemes (w ++ ['\n'])) = Word.ofLexemes true (lexemes w) :=
    (Word.words_lineFeed w []).trans (List.append_nil _)
  rw [← List.append_cons, Word.words_lineFeed, hw]

/-- The lexemes of a text that ends in a line feed, without the last one. -/
theorem EndsLine.exists_init (hu : EndsLine u) : ∃ xs y, lexemes u = xs ++ [y] ∧
    y.kind = .newline ∧ byteLength (Lexeme.joined xs) < byteLength u := by
  obtain ⟨w, -, hw, -⟩ := hu.exists_lexemes
  have hend (xs : List Lexeme) : ∃ ys y, Lexeme.endLine xs = ys ++ [y] ∧ y.kind = .newline ∧
      0 < byteLength y.text := by
    induction xs with
    | nil => exact ⟨[], Lexeme.lineFeed, rfl, rfl, by decide⟩
    | cons x xs ih =>
      rw [Lexeme.endLine]
      split
      · exact ⟨[], Lexeme.bothBreaks, rfl, rfl, by decide⟩
      · obtain ⟨ys, y, hys, hy⟩ := ih
        exact ⟨x :: ys, y, by rw [hys, List.cons_append], hy⟩
  obtain ⟨xs, y, hxs, hkind, hpos⟩ := hend (lexemes w)
  rw [← hw] at hxs
  refine ⟨xs, y, hxs, hkind, ?_⟩
  have hjoined := congrArg byteLength (joined_lexemes u)
  rw [hxs, Lexeme.joined, List.flatMap_append, List.flatMap_singleton, byteLength_append] at hjoined
  rw [Lexeme.joined]
  omega

/-! ### Problems -/

/-- The problems of a text with these reports, before they are put in order. -/
def problems (reports : List Report) (source : List Char) : List Problem :=
  Problem.ofLexemes 0 (lexemes source) ++ reports.map
    (·.toProblem (Word.rangesFrom 0 (lexemes source)).toArray (byteLength source))

theorem EndsLine.ranges_bounds (hu : EndsLine u) : ∃ n < byteLength u,
    (∀ r ∈ Word.rangesFrom 0 (lexemes u), r.start ≤ r.stop ∧ r.stop ≤ n) ∧
      ∀ p ∈ Problem.ofLexemes 0 (lexemes u), p.range.start ≤ p.range.stop ∧ p.range.stop ≤ n := by
  obtain ⟨xs, y, hxs, hkind, hlt⟩ := hu.exists_init
  refine ⟨_, hlt, fun r hr => ?_, fun p hp => ?_⟩
  · rw [hxs, Word.rangesFrom_append, Word.rangesFrom, hkind, if_pos (by rfl), Word.rangesFrom,
      List.append_nil] at hr
    simpa using Word.rangesFrom_bounds 0 xs r hr
  · have hnone : Problem.ofLexeme? (0 + byteLength (Lexeme.joined xs)) y = none := by
      rw [Problem.ofLexeme?, hkind, if_neg (by decide)]
    rw [hxs, Problem.ofLexemes_append, Problem.ofLexemes, hnone, Problem.ofLexemes] at hp
    simpa using Problem.ofLexemes_bounds 0 xs p (by simpa using hp)

theorem toProblem_append_left {r : Report} {rs : List ByteRange}
    (h : r.start.Inside rs.length ∧ r.stop.Inside rs.length) (ss : List ByteRange)
    (size size' : Nat) :
    r.toProblem (rs ++ ss).toArray size' = r.toProblem rs.toArray size := by
  rw [Report.toProblem, Report.toProblem, Edge.offset_append_left h.1 ss size size',
    Edge.offset_append_left h.2 ss size size']

theorem toProblem_append_right {r : Report} {total : Nat} (h : r.Placed total)
    (rs ss : List ByteRange) (n size : Nat) :
    (r.shift rs.length).toProblem (rs ++ ss.map (·.shift n)).toArray (n + size) =
      (r.toProblem ss.toArray size).shift n := by
  have hne : r.start ≠ .endOf 0 ∧ r.stop ≠ .endOf 0 := by
    rcases h with ⟨hstart, hstop⟩ | ⟨-, hstart, hstop⟩
    · constructor
      · intro h
        rw [h] at hstart
        exact absurd hstart.1 (Nat.lt_irrefl 0)
      · intro h
        rw [h] at hstop
        exact absurd hstop.1 (Nat.lt_irrefl 0)
    · rw [hstart, hstop]
      exact ⟨nofun, nofun⟩
  have hstart := Edge.offset_append_right hne.1 rs ss n size
  have hstop := Edge.offset_append_right hne.2 rs ss n size
  rw [Report.toProblem, Report.shift]
  dsimp only
  rw [hstart, hstop, Nat.add_max_add_left]
  rfl

/-- Problems of a first text and of a second one, found by turns, are put in order one after the
other. -/
theorem sortByStart_turns {n : Nat} {ps ps' qs qs' : List Problem}
    (hps : ∀ p ∈ ps, p.range.start < n) (hps' : ∀ p ∈ ps', p.range.start < n) :
    Problem.sortByStart ((ps ++ qs.map (·.shift n)) ++ (ps' ++ qs'.map (·.shift n))) =
      Problem.sortByStart (ps ++ ps') ++ (Problem.sortByStart (qs ++ qs')).map (·.shift n) := by
  have hlow {ps : List Problem} (h : ∀ p ∈ ps, p.range.start < n) :
      ps.filter (·.range.start < n) = ps ∧ ps.filter (n ≤ ·.range.start) = [] := by
    constructor
    · exact List.filter_eq_self.2 fun p hp => by simpa using h p hp
    · exact List.filter_eq_nil_iff.2 fun p hp => by simpa using h p hp
  have hhigh (qs : List Problem) :
      (qs.map (·.shift n)).filter (·.range.start < n) = [] ∧
        (qs.map (·.shift n)).filter (n ≤ ·.range.start) = qs.map (·.shift n) := by
    constructor
    · refine List.filter_eq_nil_iff.2 fun p hp => ?_
      obtain ⟨q, -, rfl⟩ := List.mem_map.1 hp
      rw [decide_eq_true_iff]
      exact Nat.not_lt.2 (Nat.le_add_right n q.range.start)
    · refine List.filter_eq_self.2 fun p hp => ?_
      obtain ⟨q, -, rfl⟩ := List.mem_map.1 hp
      simp [Problem.shift, ByteRange.shift]
  rw [Problem.sortByStart_split n]
  simp only [List.filter_append, hlow hps, hlow hps', hhigh, List.append_nil, List.nil_append,
    ← List.map_append, Problem.sortByStart_shift]

theorem resolve_append_left (hu : EndsLine u) {p : Problem} (hstart : p.range.start ≤ byteLength u)
    (hstop : p.range.stop ≤ byteLength u) :
    p.resolve (LineIndex.ofText (u ++ v)) = p.resolve (LineIndex.ofText u) := by
  simp only [Problem.resolve, Span.ofRange, lineCol_append_left hu hstart,
    lineCol_append_left hu hstop]

theorem resolve_append_right (hu : EndsLine u) (p : Problem) :
    (p.shift (byteLength u)).resolve (LineIndex.ofText (u ++ v)) =
      (p.resolve (LineIndex.ofText v)).shift (byteLength u) (breakEnds 0 u).length := by
  simp only [Problem.resolve, Problem.shift, Span.ofRange, ByteRange.shift, Diagnostic.shift,
    lineCol_append_right hu, LineCol.down, Diagnostic.range]

/-! ### Diagnostics -/

section

variable {parts parts' : List (Piece Draft)} {reports reports' : List Report}

/-- The problems of two texts are found by turns: those of the lexemes, then those of the reports. -/
theorem problems_append (hu : EndsLine u) {total : Nat}
    (htotal : (Word.rangesFrom 0 (lexemes u)).length = total)
    (hinside : ∀ r ∈ reports, r.start.Inside total ∧ r.stop.Inside total)
    {total' : Nat} (hplaced : ∀ r ∈ reports', r.Placed total') :
    problems (reports ++ reports'.map (·.shift total)) (u ++ v) =
      (Problem.ofLexemes 0 (lexemes u) ++
        (Problem.ofLexemes 0 (lexemes v)).map (·.shift (byteLength u))) ++
      (reports.map (·.toProblem (Word.rangesFrom 0 (lexemes u)).toArray (byteLength u)) ++
        (reports'.map (·.toProblem (Word.rangesFrom 0 (lexemes v)).toArray (byteLength v))).map
          (·.shift (byteLength u))) := by
  obtain ⟨-, -, -, hlexemes⟩ := hu.exists_lexemes
  have hproblems := Problem.ofLexemes_shift (byteLength u) 0 (lexemes v)
  have hranges := Word.rangesFrom_shift (byteLength u) 0 (lexemes v)
  rw [Nat.add_zero] at hproblems hranges
  subst htotal
  rw [problems, hlexemes, Problem.ofLexemes_append, Word.rangesFrom_append, joined_lexemes, Nat.zero_add,
    hproblems, hranges, byteLength_append, List.map_append, List.map_map, List.map_map]
  congr 2
  · exact List.map_congr_left fun r hr => toProblem_append_left (hinside r hr) _ _ _
  · exact List.map_congr_left fun r hr => toProblem_append_right (hplaced r hr) _ _ _ _

theorem diagnostics_append (hu : EndsLine u)
    (h : Parsing.ReadsAs options (Word.ofLexemes true (lexemes u)) parts reports)
    (h' : Parsing.ReadsAs options (Word.ofLexemes true (lexemes v)) parts' reports')
    (hclosed : ∀ r ∈ reports, r.cause.isUnclosed = false) :
    (parseWith options (u ++ v)).diagnostics = (parseWith options u).diagnostics ++
      (parseWith options v).diagnostics.map
        (·.shift (byteLength u) (breakEnds 0 u).length) := by
  have hboth := h.append h' Word.startsLine_of_head? hclosed
  rw [← hu.words_append] at hboth
  have hinside (r : Report) (hr : r ∈ reports) :
      r.start.Inside (Word.ofLexemes true (lexemes u)).length ∧
        r.stop.Inside (Word.ofLexemes true (lexemes u)).length := by
    rcases h.yields.2 r hr with hr' | ⟨hcause, -⟩
    · exact hr'
    · rw [hclosed r hr] at hcause
      cases hcause
  have hlength := Word.length_rangesFrom 0 true (lexemes u)
  obtain ⟨n, hn, hranges, hproblems⟩ := hu.ranges_bounds
  have hlow : ∀ p ∈ Problem.ofLexemes 0 (lexemes u) ++ reports.map
      (·.toProblem (Word.rangesFrom 0 (lexemes u)).toArray (byteLength u)),
      p.range.start < byteLength u ∧ p.range.stop ≤ byteLength u := by
    intro p hp
    rcases List.mem_append.1 hp with hp | hp
    · have := hproblems p hp
      omega
    · obtain ⟨r, hr, rfl⟩ := List.mem_map.1 hp
      have hr := hinside r hr
      rw [← hlength] at hr
      have hstart : r.start.offset _ (byteLength u) ≤ n := Edge.offset_le hr.1 hranges
      have hstop : r.stop.offset _ (byteLength u) ≤ n := Edge.offset_le hr.2 hranges
      exact ⟨Nat.lt_of_le_of_lt hstart hn,
        Nat.le_trans (Nat.max_le.2 ⟨hstart, hstop⟩) (Nat.le_of_lt hn)⟩
  rw [hboth.diagnostics_eq, h.diagnostics_eq, h'.diagnostics_eq]
  change (Problem.sortByStart (problems _ _)).map _ = _
  rw [problems_append hu hlength hinside h'.yields.2, sortByStart_turns, List.map_append, List.map_map,
    List.map_map]
  · congr 1
    · refine List.map_congr_left fun p hp => ?_
      have := hlow p (Problem.mem_sortByStart.1 hp)
      exact resolve_append_left hu (Nat.le_of_lt this.1) this.2
    · exact List.map_congr_left fun p _ => resolve_append_right hu p
  · exact fun p hp => (hlow p (List.mem_append_left _ hp)).1
  · exact fun p hp => (hlow p (List.mem_append_right _ hp)).1

end

/-- Two texts, of which the first ends in a line feed and has no block without its terminator, are parsed
one after the other: the tree of both texts has, without blanks and comments, the statements of the first
and then those of the second, and its diagnostics are those of the first and then those of the second,
moved by the bytes and the line breaks of the first. -/
theorem parseWith_append (options : ParseOptions) (u v : List Char) (hend : u.getLast? = some '\n')
    (hclosed : ∀ d ∈ (parseWith options u).diagnostics, ∀ terminator opener,
      d.cause ≠ .unclosedBlock terminator opener) :
    (∃ ts ts', (parseWith options u).tree.withoutTrivia = .node .sourceFile ts ∧
      (parseWith options v).tree.withoutTrivia = .node .sourceFile ts' ∧
      (parseWith options (u ++ v)).tree.withoutTrivia = .node .sourceFile (ts ++ ts')) ∧
    (parseWith options (u ++ v)).diagnostics = (parseWith options u).diagnostics ++
      (parseWith options v).diagnostics.map
        (·.shift (byteLength u) ((LineIndex.ofText u).lineCount - 1)) := by
  have hu : EndsLine u := hend
  obtain ⟨parts, h, -⟩ := Parsing.exists_readsAs options (Word.ofLexemes true (lexemes u))
  obtain ⟨parts', h', -⟩ := Parsing.exists_readsAs options (Word.ofLexemes true (lexemes v))
  have hreports : ∀ r ∈ Parsing.reports options (Word.ofLexemes true (lexemes u)),
      r.cause.isUnclosed = false := by
    intro r hr
    obtain ⟨d, hd, hcause⟩ := exists_diagnostic h hr
    have := hclosed d hd
    rw [hcause] at this
    cases hr' : r.cause <;> simp_all [Cause.isUnclosed]
  refine ⟨?_, diagnostics_append hu h h' hreports⟩
  have hboth := h.append h' Word.startsLine_of_head? hreports
  rw [← hu.words_append] at hboth
  obtain ⟨ts, htree, -, hts⟩ := h.tree_eq
  obtain ⟨ts', htree', -, hts'⟩ := h'.tree_eq
  obtain ⟨us, hutree, -, hus⟩ := hboth.tree_eq
  refine ⟨Draft.treesOfAll parts, Draft.treesOfAll parts', ?_, ?_, ?_⟩
  · rw [htree, Tree.withoutTrivia, hts]
  · rw [htree', Tree.withoutTrivia, hts']
  · rw [hutree, Tree.withoutTrivia, hus, Draft.treesOfAll_append]

/-- Two texts in error: a parenthesis and a quote that stay open, then a block that does. -/
theorem parseWith_append_errors :
    let u := "x = (1\nSub A\n y = \x22open\nEndSub\n".toList
    let v := "EndIf\nWhile z\n".toList
    u.getLast? = some '\n' ∧
      (parseWith {} u).diagnostics.map (·.cause) =
        [.missing .rParen, .unclosedString] ∧
      (parseWith {} v).diagnostics.map (·.cause) =
        [.unexpected .kwEndIf, .unclosedBlock .kwWend .kwWhile] ∧
      (∃ ts ts', (parseWith {} u).tree.withoutTrivia = .node .sourceFile ts ∧
        (parseWith {} v).tree.withoutTrivia = .node .sourceFile ts' ∧
        (parseWith {} (u ++ v)).tree.withoutTrivia = .node .sourceFile (ts ++ ts')) ∧
      (parseWith {} (u ++ v)).diagnostics = (parseWith {} u).diagnostics ++
        (parseWith {} v).diagnostics.map
          (·.shift (byteLength u) ((LineIndex.ofText u).lineCount - 1)) := by
  intro u v
  have hend : u.getLast? = some '\n' := by decide +kernel
  have hu : (parseWith {} u).diagnostics.map (·.cause) =
      [.missing .rParen, .unclosedString] := by decide +kernel
  have hv : (parseWith {} v).diagnostics.map (·.cause) =
      [.unexpected .kwEndIf, .unclosedBlock .kwWend .kwWhile] := by decide +kernel
  refine ⟨hend, hu, hv, parseWith_append {} u v hend fun d hd terminator opener hcause => ?_⟩
  have hmem := List.mem_map_of_mem (f := (·.cause)) hd
  rw [hu, hcause] at hmem
  simp at hmem

end CRBasic
