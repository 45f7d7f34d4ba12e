import CRBasic.Proofs.Roles.Arguments

/-!
# The units of a scan

The second argument of a scan should be a name.  A list of arguments is put as its opening parenthesis and its
arguments, in their order, and the second one is checked behind the list (`Fills.exists_list`): where problems
are not passed over, it is reported unless it is one name that something follows in the list.
-/

namespace CRBasic

open Parsing

namespace Grammar

open Script Draft

variable {words : List Word} {problems : List Report} {fuel : Nat} {s t u : Sketch} {v : Unit}

/-! ### The second argument -/

/-- The second argument of a list is one name, and something is written behind it. -/
def NamesUnits (second? : Option Draft) (closing : List (Piece Draft)) : Prop :=
  closing ≠ [] ∧ ∃ w : Word, w.kind = .ident ∧ second? = some (.node .identifier [.word w])

/-- The parts of the list of a scan behind `n` words.  If its second argument is a name, a comma or a closing
parenthesis follows that on the line.  If not, that is reported at the argument, or it is reported in the list
that an expression is too deep. -/
inductive ScanList (words : List Word) (problems : List Report) (n : Nat) : List (Piece Draft) → Prop where
  | few {ps : List (Piece Draft)} (hps : ∀ w, .word w ∈ ps → w.kind ≠ .comma) :
      ScanList words problems n ps
  | more {before closing : List (Piece Draft)} {comma : Word} {second? : Option Draft} {m : Nat}
      (hbefore : ∀ w, .word w ∈ before → w.kind ≠ .comma) (hcomma : comma.kind = .comma)
      (hclosing : ∀ p more, closing = p :: more → ∃ w, p = .word w)
      (hm : m = n + (wordsOfAll (before ++ [.word comma])).length)
      (hnamed : NamesUnits second? closing → Word.closedName (words.drop m) = true)
      (hreported : ¬ NamesUnits second? closing → Report.Among words problems .scanUnitsNotName m m ∨
        Report.Among words problems .nestingTooDeep (n + 1)
          (m + (wordsOfAll (second?.toList.map .node ++ closing)).length)) :
      ScanList words problems n (before ++ .word comma :: (second?.toList.map .node ++ closing))

/-- An argument that counts as a name is put as one name that something follows, or it is reported that an
expression is too deep. -/
theorem nested_or_named {b : Argument} {second? : Option Draft} {closing : List (Piece Draft)}
    (hrun : argument.run (runRule script fuel) fuel s = some (b, t))
    (hparts : t.parts = second?.toList.map .node ++ s.parts) (hclosing : AfterArgument t closing)
    (hname : b.isName = true) (hloud : s.silenced = false) :
    Nested words s t ∨ NamesUnits second? closing := by
  cases hdeep : s.tooDeep with
  | true =>
    obtain ⟨n, ⟨-, hskip⟩ | ⟨hroom, -⟩⟩ := run_expression_cases (run_argument hrun).1
    · exact .inl (tells_nested.deep hloud hskip)
    · exact absurd (hroom.symm.trans hdeep) Bool.false_ne_true
  | false =>
    obtain ⟨w, hw, hput, hnext⟩ := (isName_iff hrun).1 ⟨hname, hdeep⟩
    refine .inr ⟨?_, w, hw, ?_⟩
    · cases hclosing with
      | missing hcomma hparen => exact (hnext.elim hcomma hparen).elim
      | written => simp
    · have hsecond : second?.toList.map Piece.node = [.node (.node .identifier [.word w])] :=
        List.append_cancel_right (hparts.symm.trans hput)
      cases second? with
      | none => cases hsecond
      | some d => rw [Piece.node.inj (List.cons.inj hsecond).1]

/-- An argument that is put as one name that something follows counts as a name. -/
theorem isName_of_named {b : Argument} {second? : Option Draft} {closing : List (Piece Draft)}
    (hrun : argument.run (runRule script fuel) fuel s = some (b, t))
    (hparts : t.parts = second?.toList.map .node ++ s.parts) (hclosing : AfterArgument t closing)
    (h : NamesUnits second? closing) : b.isName = true := by
  obtain ⟨hne, w, hw, rfl⟩ := h
  refine ((isName_iff hrun).2 ⟨w, hw, hparts, ?_⟩).1
  cases hclosing with
  | missing => exact absurd rfl hne
  | written hnext => exact hnext

theorem run_checkScanUnits {a b : Argument} {args : List Argument}
    (hrun : (checkScanUnits (a :: b :: args)).run (runRule script fuel) fuel s = some (v, t))
    (hname : b.isName = false) : t = s.perform (.report (.between b.start b.stop) .scanUnitsNotName) := by
  rw [checkScanUnits, hname] at hrun
  exact run_act_iff.1 hrun

/-- Units that are no name are reported where they start. -/
theorem among_checkScanUnits {a b : Argument} {args : List Argument} {n : Nat}
    (hrun : (checkScanUnits (a :: b :: args)).run (runRule script fuel) fuel s = some (v, t))
    (hname : b.isName = false) (hloud : s.silenced = false) (hstart : b.start = u.answer .here)
    (horigin : u.origin = s.origin) (hle : u.origin ≤ u.taken) (hu : u.rest = words.drop u.taken)
    (hn : u.taken = n) : Report.Among words t.reports.toList .scanUnitsNotName n n := by
  obtain rfl := run_checkScanUnits hrun hname
  have hplace : b.start.shift s.origin = (u.edges .here).1 := by
    rw [hstart, ← horigin]
    exact shift_here hle
  refine ⟨⟨.scanUnitsNotName, b.start.shift s.origin, b.stop.shift s.origin⟩, ?_, rfl, ?_, ?_, ?_⟩
  · change _ ∈ (s.toReading.report _ _).reports.toList
    simp [Reading.report, hloud, Reading.edges]
  · rw [hplace, count_here, hn]
  · rw [hplace, count_here, hn]
  · rw [hplace]
    exact here_edges hu

/-- A second argument that is no name is reported behind the list, unless it is reported in the list that an
expression is too deep. -/
theorem among_or_nested {c c' w : Sketch} {a b : Argument} {args : List Argument} {second? : Option Draft}
    {closing : List (Piece Draft)} (hs : s.rest = words.drop s.taken) (hloud : s.silenced = false)
    (horigin : s.origin ≤ s.taken) (hsu : s.toReading.GoesOn u.toReading)
    (hreveals : s.Reveals (Nested words) u)
    (hsecond : argument.run (runRule script fuel) fuel u = some (b, w))
    (hparts : w.parts = second?.toList.map .node ++ u.parts) (hclosing : AfterArgument w closing)
    (hwt : w.toReading.GoesOn t.toReading) (hreveals' : s.Reveals (Nested words) t)
    (hsilenced : c.silenced = t.silenced) (hc : c.origin = s.origin)
    (hrun : (checkScanUnits (a :: b :: args)).run (runRule script fuel) fuel c = some (v, c'))
    (hnot : ¬ NamesUnits second? closing) :
    Report.Among words c'.reports.toList .scanUnitsNotName u.taken u.taken ∨ Nested words s t := by
  -- Problems are passed over behind the list, or before its second argument, or begin to be so in it.
  by_cases hquiet : t.silenced = true
  · exact .inr ((hreveals' hquiet).resolve_left (Bool.eq_false_iff.1 hloud))
  cases hname : b.isName with
  | false =>
    obtain ⟨-, hb⟩ := run_argument hsecond
    have horigin' : u.origin = s.origin := congrArg (·.headD 0) hsu.origins
    have hle : u.origin ≤ u.taken := horigin' ▸ Nat.le_trans horigin hsu.taken_le
    exact .inl (among_checkScanUnits hrun hname (hsilenced.trans (Bool.eq_false_iff.2 hquiet)) (by rw [hb])
      (horigin'.trans hc.symm) hle (hsu.rest_eq_drop hs) rfl)
  | true =>
    by_cases hquiet' : u.silenced = true
    · have hfirst := (hreveals hquiet').resolve_left (Bool.eq_false_iff.1 hloud)
      exact .inr (hfirst.behind ((Sketch.goesOn_of_run hsecond).trans hwt))
    · obtain hdeep | hnamed := nested_or_named hsecond hparts hclosing hname (Bool.eq_false_iff.2 hquiet')
      · exact .inr ((hdeep.before hsu).behind hwt)
      · exact absurd hnamed hnot

/-- Where the arguments of a scan have been read, its units are checked. -/
theorem ReadsItems.scanList {c c' : Sketch} {args : List Argument} {paren : Word} {ps : List (Piece Draft)}
    {n : Nat} (h : ReadsItems words fuel s t args ps) (hs : s.rest = words.drop s.taken)
    (hn : s.taken = n + 1) (hloud : s.silenced = false) (horigin : s.origin ≤ s.taken)
    (hreveals : s.Reveals (Nested words) t) (htaken : t.taken = s.taken + (wordsOfAll ps).length)
    (hsilenced : c.silenced = t.silenced) (hc : c.origin = s.origin)
    (hbehind : t.reports.toList <+: c.reports.toList)
    (hrun : (checkScanUnits args).run (runRule script fuel) fuel c = some (v, c'))
    (hreports : c'.reports.toList <+: problems) (hparen : paren.kind ≠ .comma) :
    ScanList words problems n (.word paren :: ps) := by
  cases h with
  | few hargs hps =>
    refine .few fun w hw => ?_
    rcases List.mem_cons.1 hw with heq | hw
    · rwa [Piece.word.inj heq]
    · exact hps w hw
  | @more u w a b args comma first? second? closing hcomma htaken' hsu hreveals' hsecond hparts hwt hclosing =>
    have hlast : ∀ p more, closing = p :: more → ∃ w, p = .word w := by
      rintro p more rfl
      cases hclosing with
      | written => exact ⟨_, rfl⟩
    have hplace : u.taken =
        n + (wordsOfAll ((.word paren :: first?.toList.map .node) ++ [.word comma])).length := by
      rw [htaken', hn, List.cons_append, wordsOfAll, List.length_cons]
      omega
    have hend : t.taken = u.taken + (wordsOfAll (second?.toList.map .node ++ closing)).length := by
      rw [htaken, htaken']
      simp only [wordsOfAll_append, wordsOfAll, List.length_append, List.length_cons, List.length_nil]
      omega
    change ScanList words problems n ((.word paren :: first?.toList.map .node) ++
      .word comma :: (second?.toList.map .node ++ closing))
    refine .more ?_ hcomma hlast hplace ?_ fun hnot => ?_
    · intro w hw
      rcases List.mem_cons.1 hw with heq | hw
      · rwa [Piece.word.inj heq]
      · cases first? <;> simp at hw
    · intro hnamed
      have hname := isName_of_named hsecond hparts hclosing hnamed
      rw [(run_argument hsecond).2] at hname
      rw [← hsu.rest_eq_drop hs]
      exact hname
    · have hproblems : t.reports.toList <+: problems :=
        hbehind.trans ((Sketch.goesOn_of_run hrun).reports.trans hreports)
      refine (among_or_nested hs hloud horigin hsu hreveals' hsecond hparts hclosing hwt hreveals hsilenced hc
        hrun hnot).imp (fun hunits => ?_) fun hnested => ?_
      · exact hunits.mono hreports (Nat.le_refl _) (Nat.le_refl _)
      · exact (hnested hs).mono hproblems (Nat.le_of_eq hn.symm) (Nat.le_of_eq hend)

/-! ### Scans -/

theorem parts_checkScanUnits {args : List Argument}
    (hrun : (checkScanUnits args).run (runRule script fuel) fuel s = some (v, t)) : t.parts = s.parts := by
  unfold checkScanUnits at hrun
  split at hrun
  · split at hrun
    · rw [(run_pure_iff.1 hrun).2]
    · rw [run_act_iff.1 hrun]
      rfl
  · rw [(run_pure_iff.1 hrun).2]

/-- The list of arguments of an instruction, if there is one. -/
theorem run_instructionArguments {instruction : TokenKind} {least most : Nat} {args : List Argument}
    (hrun : (instructionArguments instruction least most).run (runRule script fuel) fuel s =
      some (args, t)) :
    (args = [] ∧ t.parts = s.parts) ∨ s.onLine = some .lParen ∧ ∃ list u,
      argumentList.run (runRule script fuel) fuel s = some (list, u) ∧ args = list.items ∧
        t.parts = u.parts ∧ t.silenced = u.silenced ∧ u.toReading.GoesOn t.toReading := by
  rw [instructionArguments, onLine, run_ask_bind, answer_onLine] at hrun
  split at hrun
  · next hk =>
    obtain ⟨list, u, hu, hrun⟩ := run_bind_iff.1 hrun
    refine .inr ⟨by simpa using hk, list, u, hu, ?_⟩
    have hgoes := Sketch.goesOn_of_run hrun
    dsimp only at hrun
    split at hrun
    · obtain ⟨rfl, rfl⟩ := run_pure_iff.1 hrun
      exact ⟨rfl, rfl, rfl, hgoes⟩
    · obtain ⟨_, u', hu', hrun⟩ := run_bind_iff.1 hrun
      obtain rfl := run_act_iff.1 hu'
      obtain ⟨rfl, rfl⟩ := run_pure_iff.1 hrun
      exact ⟨rfl, rfl, u.toReading.silenced_report _ _, hgoes⟩
  · obtain ⟨_, u, hu, hrun⟩ := run_bind_iff.1 hrun
    obtain rfl := run_act_iff.1 hu
    obtain ⟨rfl, rfl⟩ := run_pure_iff.1 hrun
    exact .inl ⟨rfl, rfl⟩

/-- The draft of a list of arguments. -/
def listDraft (ps : List (Piece Draft)) : Piece Draft := .node (.node .argList ps)

/-- What is put for the arguments of a scan. -/
theorem exists_scanList {instruction : TokenKind} {least most : Nat} (hs : s.rest = words.drop s.taken)
    (hloud : s.silenced = false)
    (hrun : (scanArguments instruction least most).run (runRule script fuel) fuel s = some (v, t))
    (hreports : t.reports.toList <+: problems) :
    ∃ list? : Option (List (Piece Draft)), t.parts = list?.toList.map listDraft ++ s.parts ∧
      ∀ ps ∈ list?, ScanList words problems s.taken ps := by
  obtain ⟨u, hu, rfl⟩ := run_within_iff.1 hrun
  obtain ⟨args, c, hargs, hcheck⟩ := run_bind_iff.1 hu
  change (instructionArguments instruction least most).run _ _ s.measured = _ at hargs
  have hparts := parts_checkScanUnits hcheck
  obtain ⟨rfl, hsame⟩ | ⟨hk, list, d, hlist, rfl, hsame, hsilenced, hgoes⟩ := run_instructionArguments hargs
  · exact ⟨none, hparts.trans hsame, by simp⟩
  · obtain ⟨paren, ps, w, hparen, rfl, hreads, hreveals, hcount⟩ := exists_readsItems words hk hlist
    refine ⟨some (.word paren :: ps), hparts.trans hsame, ?_⟩
    rintro _ ⟨⟩
    obtain ⟨y, ws, hrest, -⟩ := rest_of_onLine (s := s) hk
    have htake := Sketch.take_eq (s := s.measured.fresh) hrest
    have hfirst : s.measured.fresh.toReading.GoesOn s.measured.fresh.take.toReading :=
      Sketch.goesOn_take (.refl _)
    refine hreads.scanList (hfirst.rest_eq_drop hs) ?_ ?_ ?_ hreveals hcount hsilenced ?_
      hgoes.reports hcheck hreports (by simp [hparen])
    · rw [htake]
      rfl
    · rw [htake]
      exact hloud
    · rw [htake]
      exact Nat.le_succ _
    · have horigin : c.origin = s.measured.origin :=
        congrArg (·.headD 0) (Sketch.goesOn_of_run hargs).origins
      rw [horigin, htake]
      rfl

/-- What a block puts behind its first part and its arguments: no list of arguments. -/
theorem parts_blockTail {opener kindOfEnd : TokenKind}
    (hrun : (blockTail opener kindOfEnd).run (runRule script fuel) fuel s = some (v, t)) :
    ∃ ps, t.parts = ps ++ s.parts ∧ ∀ d, .node d ∈ ps → d.kind ≠ .argList := by
  obtain ⟨_, u, hu, hrun⟩ := run_bind_iff.1 hrun
  obtain ⟨_, w, hw, hrun⟩ := run_bind_iff.1 hrun
  obtain ⟨c, y, hy, hrun⟩ := run_bind_iff.1 hrun
  obtain ⟨errors, herrors, honly⟩ := parts_lineEnd hu
  obtain ⟨body, hbody⟩ := Sketch.parts_node hw
  have hend : ∃ ps, t.parts = ps ++ w.parts ∧ ∀ d, .node d ∈ ps → d.kind ≠ .argList := by
    by_cases hk : w.current = some kindOfEnd
    · rw [run_terminator_of_eq hk] at hy
      cases hy
      obtain ⟨x, ws, hrest, -⟩ := Reading.exists_rest hk
      obtain ⟨errors, herrors, honly⟩ := parts_lineEnd hrun
      refine ⟨errors ++ [.word x], by rw [herrors, Sketch.take_eq hrest]; simp, fun d hd => ?_⟩
      have hd := (List.mem_append.1 hd).resolve_right (by simp)
      simp [honly.kind_eq hd]
    · rw [run_terminator_of_ne hk] at hy
      cases hy
      obtain ⟨-, rfl⟩ := run_pure_iff.1 hrun
      exact ⟨[], rfl, fun d hd => absurd hd List.not_mem_nil⟩
  obtain ⟨ps, hps, hkinds⟩ := hend
  refine ⟨ps ++ .node (.node .stmtList body) :: errors, by simp [hps, hbody, herrors], fun d hd => ?_⟩
  rcases List.mem_append.1 hd with hd | hd
  · exact hkinds d hd
  · rcases List.mem_cons.1 hd with heq | hd
    · rw [Piece.node.inj heq]
      nofun
    · simp [honly.kind_eq hd]

/-- The parts of a scan. -/
theorem Fills.exists_list {st b : Bool} {opener kindOfEnd : TokenKind} {least most n : Nat}
    {ps : List (Piece Draft)}
    (h : Fills words problems n .outer (.word st b opener) (scanParts opener kindOfEnd least most) ps) :
    ∃ (w : Word) (list? : Option (List (Piece Draft))) (more : List (Piece Draft)),
      ps = .word w :: (list?.toList.map listDraft ++ more) ∧
      (∀ qs ∈ list?, ScanList words problems (n + 1) qs) ∧
      ∀ d, .node d ∈ more → d.kind ≠ .argList := by
  obtain ⟨hs, rfl, hrest, hrun, hreports⟩ := h
  rename_i s u
  obtain ⟨_, first, hfirst, hrun⟩ := run_bind_iff.1 hrun
  obtain rfl : first = s.fresh.take := run_act_iff.1 hfirst
  obtain ⟨_, t, ht, hrun⟩ := run_bind_iff.1 hrun
  obtain ⟨w, ws, hws, -⟩ := Reading.exists_rest (s := s.toReading) hs.sees
  have htake := Sketch.take_eq (s := s.fresh) hws
  have hgoes : s.fresh.toReading.GoesOn s.fresh.take.toReading := Sketch.goesOn_take (.refl _)
  have hloud : s.fresh.take.silenced = false := by
    rw [htake]
    exact hs.loud rfl
  obtain ⟨list?, hlist, hscan⟩ := exists_scanList (hgoes.rest_eq_drop hrest) hloud ht
    ((Sketch.goesOn_of_run hrun).reports.trans hreports)
  obtain ⟨more, hmore, hkinds⟩ := parts_blockTail hrun
  refine ⟨w, list?, more.reverse, ?_, ?_, fun d hd => hkinds d (List.mem_reverse.1 hd)⟩
  · rw [hmore, hlist, htake]
    cases list? <;> simp [Sketch.fresh]
  · intro qs hqs
    have hscan := hscan qs hqs
    rw [htake] at hscan
    exact hscan

end Grammar

end CRBasic
