import CRBasic.Proofs.Roles.Origins

/-!
# How the nodes of a text come about

Every form of statement follows the rules for scripts that leave sketches traced, so the nodes of every
tree have come about by runs of their scripts (`exists_arises`).
-/

namespace CRBasic

open Parsing

namespace Grammar

open Script Draft

variable {words : List Word} {fuel n : Nat} {problems : List Report} {α : Type} {st : Stage} {m : Mode}
  {P : Sketch → Prop} {b started : Bool} {k : TokenKind} {kind : NodeKind}

/-! ### Arguments and the name after `Next` -/

theorem traces_measured {x : Script α}
    (hx : Traces words problems fuel (Heard words.length .measured m) x) :
    Traces words problems fuel (Heard words.length .inner m) (within .measured x) :=
  traces_within hx (fun s hs => hs.transfer_of_frames (begin_same s .measured) rfl fun _ =>
    ⟨List.cons_ne_nil _ _, Nat.le_refl _⟩) (fun _ => rfl) fun _ _ => rfl

theorem traces_instructionArguments {instruction : TokenKind} {least most : Nat} :
    Traces words problems fuel (Heard words.length .measured (.live true b))
      (instructionArguments instruction least most) := by
  refine traces_ifOnLine ((walk_argumentList tracks_lines).bind_traces fun args => ?_)
    (traces_seq (traces_routine rfl) fun _ => traces_pure _)
  dsimp only
  split
  · exact traces_pure _
  · exact traces_seq (traces_routine rfl) fun _ => traces_pure _

theorem traces_checkScanUnits (args : List Argument) :
    Traces words problems fuel P (checkScanUnits args) := by
  unfold checkScanUnits
  split
  · split
    · exact traces_pure _
    · exact traces_report nofun
  · exact traces_pure _

theorem tracks_scanArguments (instruction : TokenKind) (least most : Nat) :
    Tracks words problems fuel .inner (.live true b) (scanArguments instruction least most)
      (.live false b) where
  hears := hears.scanArguments instruction least most
  traces := traces_measured (traces_seq traces_instructionArguments traces_checkScanUnits)

theorem tracks_tableArguments (instruction : TokenKind) (least most : Nat) :
    Tracks words problems fuel .inner (.live true b)
      (within .measured do let _ ← instructionArguments instruction least most) (.live false b) where
  hears := hears.tableArguments instruction least most
  traces := traces_measured (traces_seq traces_instructionArguments fun _ => traces_pure _)

theorem tracks_closingVariable (name? : Option (List Char)) :
    Tracks words problems fuel .inner (.live true b) (closingVariable name?) (.live false b) where
  hears := hears.closingVariable name?
  traces := by
    refine traces_ifOnLine ?_ (traces_pure ())
    refine traces_measured (traces_ask (fun _ => id) fun closing => ?_)
    have hname : Tracks words problems fuel .measured (.seeing true b .ident) nameReference
        (.live false b) :=
      tracks_lines.measured_of_inner
        (walk_nameReference tracks_lines (tracks_lines.take_seeing (.inr rfl)))
    refine hname.bind_traces fun _ => ?_
    cases name? with
    | none => exact traces_pure ()
    | some name =>
      dsimp only
      by_cases hsame : sameName name closing = true
      · rw [if_pos hsame]
        exact traces_pure ()
      · rw [if_neg hsame]
        apply traces_report
        rintro x y ⟨⟩
        simpa using hsame

/-! ### Bodies -/

section Bodies

variable (hstatement : ∀ {s b : Bool} {k : TokenKind},
  Tracks words problems fuel .outer (.word s b k) statement (.live true false))

theorem traces_body {stops : List TokenKind} {y : Script Unit} (hstops : ∀ k ∈ stops, k.closes)
    (hy : Traces words problems fuel (Heard words.length .outer m) y) :
    Traces words problems fuel (Heard words.length .inner m)
      (node .stmtList (within (.stopAt stops) (within .nested y))) := by
  refine traces_node (.inl rfl)
    (Q := fun v => Heard words.length .outer m (Machine.begin (Machine.begin v (.stopAt stops)).2 .nested).2)
    ?_ fun s hs => hs.inBody hstops
  refine traces_within (Q := fun v => Heard words.length .outer m (Machine.begin v .nested).2) ?_
    (fun _ => id) (fun _ => rfl) fun _ _ => rfl
  exact traces_within hy (fun _ => id) (fun _ => rfl) fun _ _ => rfl

include hstatement

/-- Statements one after the other. -/
theorem traces_statements {test : Script Bool} {p : Sketch → Bool}
    (htest : ∀ s : Sketch, test.run (runRule script fuel) fuel s = some (p s, s))
    (hword : ∀ s, p s → P s → ∃ started k, Heard words.length .outer (.word started false k) s)
    (hnext : ∀ s u : Sketch, s.toReading.GoesOn u.toReading → P s →
      Heard words.length .outer (.live true false) u → P u) :
    Traces words problems fuel P (whileM test statement) := by
  intro n s v t hrun hreports hs h
  obtain ⟨us, hus⟩ := run_whileM_iff.1 hrun
  refine rounds_induction htest (P := fun _ s t => t.reports.toList <+: problems → P s →
    Traced words problems n s → Traced words problems n t) ?_ ?_ hus hreports hs h
  · exact fun _ _ _ _ _ => id
  · intro _ s u us t hgo hsu hut ih hreports hs h
    obtain ⟨started, k, hheard⟩ := hword s hgo hs
    have hfirst := (Sketch.goesOn_of_rounds hut).reports.trans hreports
    have hu := Heard.of_run hstatement.hears hsu hheard
    exact ih hreports (hnext s u (Sketch.goesOn_of_run hsu) hs hu)
      (hstatement.traces n s () u hsu hfirst hheard h)

theorem tracks_blockBody {stops : List TokenKind} (hstops : ∀ k ∈ stops, k.closes) :
    Tracks words problems fuel .inner (.live true b) (blockBody stops) .body where
  hears := hears.blockBody hstops
  traces := by
    refine Traces.mono (Q := Heard words.length .inner (.live true false)) ?_
      fun s hs => hs.weaken (.live id Bool.noConfusion)
    refine traces_body hstops (traces_statements hstatement run_continuesBody ?_ fun _ _ _ _ => id)
    intro s hgo hs
    obtain ⟨k, hk⟩ := Option.isSome_iff_exists.1 (Bool.and_eq_true _ _ ▸ hgo).1
    exact ⟨true, k, { hs with sees := hk }⟩

/-- At most one statement on a line. -/
theorem tracks_inlineBody {stops : List TokenKind} (hstops : ∀ k ∈ stops, k.closes) :
    Tracks words problems fuel .inner (.live true b) (inlineBody stops) (.live true false) where
  hears := alike_inlineBody losing_alone (fun _ => hears.statement) hstops
  traces := by
    refine traces_body hstops fun n s v t hrun hreports hs h => ?_
    by_cases hend : AtEnd s
    · rw [run_statementEnds_of_atEnd hend] at hrun
      obtain ⟨-, rfl⟩ := run_pure_iff.1 hrun
      exact h
    · rw [run_statementEnds_of_not hend] at hrun
      obtain ⟨k, hk, -⟩ := exists_onLine hend
      have hword : Heard words.length .outer (.word true false k) s :=
        { hs with sees := Reading.current_of_onLine hk, blamed := Bool.noConfusion }
      exact hstatement.traces n s v t hrun hreports hword h

theorem tracks_blockRules : BlockRules fun st m x m' => Tracks words problems fuel st m x m' where
  toLineRules := tracks_lines
  statement := hstatement
  blockBody hstops := tracks_blockBody hstatement hstops
  current_body {_ st m f} hnone hsome := by
    refine ⟨hears.current_body hnone.hears fun k => (hsome k).hears, fun n s a t hrun hreports hs => ?_⟩
    rw [current, run_ask_bind, answer_current] at hrun
    cases hk : s.current with
    | none =>
      rw [hk] at hrun
      exact hnone.traces n s a t hrun hreports hs
    | some k =>
      rw [hk] at hrun
      exact (hsome k).traces n s a t hrun hreports { hs with sees := hk, blamed := Bool.noConfusion }
  terminator kind opener := by
    refine ⟨hears.terminator kind opener, traces_ask (fun _ => id) fun o => ?_⟩
    split
    · exact traces_seq traces_take fun _ => traces_pure _
    · exact traces_seq (traces_routine rfl) fun _ => traces_pure _
  unlessAtStop hcause hx hy := by
    refine ⟨hears.unlessAtStop hcause hx.hears hy.hears, traces_ask (fun _ => id) fun stop => ?_⟩
    cases stop with
    | true => exact hx.traces
    | false => exact (tracks_lines.report_word hcause).bind_traces fun _ => hy.traces
  scanArguments := tracks_scanArguments
  tableArguments := tracks_tableArguments
  closingVariable := tracks_closingVariable

/-! ### Statements -/

theorem tracks_oneLineBranches :
    Tracks words problems fuel .inner (.live true b) oneLineBranches (.live true false) := by
  have hlines : LineRules fun st m x m' => Tracks words problems fuel st m x m' := tracks_lines
  refine hlines.bind (tracks_inlineBody hstatement (by decide)) fun _ => ?_
  refine hlines.ifOnLine (hlines.node rfl ?_) (hlines.pure ())
  exact hlines.bind (hlines.take_seeing (.inl rfl)) fun _ => tracks_inlineBody hstatement (by simp)

theorem traces_ifParts :
    Traces words problems fuel (Heard words.length .inner (.word started b .kwIf)) ifParts := by
  have hr : BlockRules fun st m x m' => Tracks words problems fuel st m x m' :=
    tracks_blockRules hstatement
  refine hr.take_word.bind_traces fun _ => (walk_condition hr.toLineRules).bind_traces fun _ => ?_
  intro n s v t hrun hreports hs h
  rcases run_ifBranches_cases hrun with ⟨hend, hrun⟩ | hrun
  · have hloud : s.silenced = false :=
      Bool.eq_false_iff.2 fun hsilenced => hend (hs.settled hsilenced)
    exact (tracks_oneLineBranches hstatement).traces n s v t hrun hreports
      { hs with loud := fun _ => hloud } h
  · exact (walk_blockBranches hr).traces n s v t hrun hreports hs h

omit hstatement in
/-- A node of a kind with a script of its own. -/
theorem traces_nodeOf {x : Script Unit} (hx : Traces words problems fuel (Heard words.length st.inside m) x)
    (harises : ∀ {n : Nat} {ps : List (Piece Draft)}, Fills words problems n st m x ps →
      Arises words problems n (.node kind ps)) :
    Traces words problems fuel (Heard words.length st m) (node kind x) := by
  intro n s a t hrun hreports hs h
  obtain ⟨u, hu, rfl⟩ := run_within_iff.1 hrun
  exact h.node (hx _ s.fresh a u hu hreports hs.fresh h.fresh) (harises (.intro hs rfl h.rest hu hreports))

theorem tracks_statementRules :
    StatementRules fun st m x m' => Tracks words problems fuel st m x m' where
  toBlockRules := tracks_blockRules hstatement
  forLoop := ⟨hears.forLoop, traces_nodeOf
    (walk_loopParts (tracks_blockRules hstatement) tracks_texts).traces .loop⟩
  scanStatement := ⟨hears.scanStatement, traces_nodeOf
    (walk_scanParts (tracks_blockRules hstatement) rfl).traces (.scan (.inl rfl))⟩
  subScanStatement := ⟨hears.subScanStatement, traces_nodeOf
    (walk_scanParts (tracks_blockRules hstatement) rfl).traces (.scan (.inr rfl))⟩
  ifStatement := ⟨hears.ifStatement, traces_nodeOf (traces_ifParts hstatement) .conditional⟩
  assignmentOrInstruction := by
    refine ⟨hears.assignmentOrInstruction, traces_ask (fun _ => id) fun c => ?_⟩
    cases c with
    | true => exact (walk_assignmentStatement tracks_lines).traces
    | false => exact (walk_instruction tracks_lines).traces

end Bodies

theorem tracks_statement :
    Tracks words problems fuel .outer (.word started b k) statement (.live true false) := by
  induction fuel generalizing started b k with
  | zero => exact tracks_callOfNone
  | succ fuel ih => exact tracks_call (walk_statementRule (tracks_statementRules ih))

/-! ### Whole texts -/

theorem traces_allStatements :
    Traces words problems fuel (Between .alone words.length) allStatements := by
  refine traces_statements tracks_statement run_continuesText (fun s hgo hs => ?_)
    fun s u hsu hs hu => hu.between rfl (hsu.frames.trans hs.frames)
  obtain ⟨k, hk⟩ := Option.isSome_iff_exists.1 hgo
  exact ⟨false, k, hs.holds hk⟩

end Grammar

open Draft Grammar

/-- The nodes that a text is read as have come about by runs, and its reports about names are about names
that differ. -/
theorem Parsing.ReadsAs.traced {options : ParseOptions} {words : List Word} {parts : List (Piece Draft)}
    {reports : List Report} (h : ReadsAs options words parts reports) :
    (Draft.node .sourceFile parts).AllAt (Arises words reports) 0 ∧
      ∀ r ∈ reports, r.NamesDiffer := by
  obtain ⟨t, ⟨fuel, hrun⟩, -, rfl, rfl⟩ := h
  have hstart : Traced words t.reports.toList 0 (Sketch.initial options words) :=
    ⟨trivial, rfl, rfl, by simp [Sketch.initial]⟩
  have hall : Traces words t.reports.toList fuel (Between .alone words.length) allStatements :=
    traces_allStatements
  have ht := hall 0 _ () t hrun (List.prefix_refl _) (between_initial fun h => absurd rfl h) hstart
  exact ⟨⟨.other (.inl rfl), ht.drafts⟩, fun r hr => ht.names r (Array.mem_toList_iff.1 hr)⟩

/-- Every node of a tree shows a draft that has come about by runs, behind the words in front of it. -/
theorem exists_arises (options : ParseOptions) (source : List Char) {n : Node}
    (hn : n ∈ (parseWith options source).tree.nodes 0) :
    ∃ d front, n.Stands 0 (lexemes source) front d ∧
      Arises (Word.ofLexemes true (lexemes source))
        (Parsing.reports options (Word.ofLexemes true (lexemes source)))
        (Lexeme.words front).length d := by
  obtain ⟨parts, hparts, -⟩ := exists_readsAs options (Word.ofLexemes true (lexemes source))
  obtain ⟨d, front, hstands, hd⟩ := Tree.Shows.exists_standing _ hparts.shows hparts.traced.1 hn
  rw [Nat.zero_add] at hd
  rw [leaves_parseWith] at hstands
  exact ⟨d, front, hstands, hd⟩

end CRBasic
