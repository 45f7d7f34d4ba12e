import CRBasic.Proofs.Lines.Tidy
import CRBasic.Proofs.Nesting.Discipline
import CRBasic.Proofs.Parsing.Following

/-!
# Parses are orderly

At every moment of a parse the state is as it has to be (`Reached.disciplined`).  So whoever calls a
routine of the grammar finds the nesting and the open blocks again as they were, a limit that is hit costs
one problem and the rest of its line, and nothing that comes after it is passed over (`orderly`).
-/

namespace CRBasic

open Parsing Parsing.Script Grammar

namespace Parsing

/-! ### Moments of a parse -/

/-- Problems that have been found before are of no account. -/
theorem disciplined_after {move : Move} {s : Reading} {before : Array Report} :
    Disciplined move (s.after before) ↔ Disciplined move s := by
  cases move with
  | ask q => cases q <;> exact Iff.rfl
  | act a => cases a <;> exact Iff.rfl
  | enter scope => cases scope <;> exact Iff.rfl
  | call rule => cases rule <;> exact Iff.rfl
  | ends | rounds => exact Iff.rfl

/-- A moment to which the parse of some words comes. -/
def Reached (options : ParseOptions) (words : List Word) (m : Moment State Nat) : Prop :=
  Moment.Reaches script ⟨sourceFile, .nothing, State.initial options words⟩ m

variable {options : ParseOptions} {words : List Word} {m n : Moment State Nat} {α : Type} {s t : State}

/-- The parse comes to its end, and is as it has to be on the way. -/
theorem through_sourceFile (options : ParseOptions) (words : List Word) :
    Moment.Through script (AtMoment fun move (s : State) => Disciplined move s.toReading)
      ⟨sourceFile, .nothing, State.initial options words⟩
      ⟨.done (), .nothing, finalState options words⟩ := by
  obtain ⟨hrun, -⟩ := run_sourceFile options words (Nat.le_refl _)
  have hfollows {before : Array Report} {s : State} {t : Sketch} (move : Move)
      (h : Sketch.Follows before s t) (ht : Disciplined move t.toReading) :
      Disciplined move s.toReading := by
    rw [show s.toReading = _ from h]
    exact disciplined_after.2 ht
  have halong : sourceFile.Along (fun move (s : State) => Disciplined move s.toReading)
      (runRule script (fuelFor words)) (AlongRule _ script (fuelFor words)) (fuelFor words)
      (State.initial options words) :=
    Sketch.Follows.simulation.along hfollows (Sketch.Follows.initial options words)
      (minds_sourceFile options words) Sketch.Follows.simulation.runRule
      (Sketch.Follows.simulation.alongRule hfollows)
  exact (halong.through (rulesThrough _ _ _) hrun .nothing).1

namespace Reached

theorem trans (hm : Reached options words m) (h : Moment.Reaches script m n) : Reached options words n :=
  Moment.Through.trans hm h

theorem next (hm : Reached options words m) (h : m.next script = some n) : Reached options words n :=
  hm.trans (.single trivial h)

/-- At every moment the state is as it has to be. -/
theorem disciplined (hm : Reached options words m) : Disciplined m.move m.state.toReading :=
  ((through_sourceFile options words).of_reaches trivial rfl hm).1

/-- What every step keeps, given what holds of the moments on the way, the whole way keeps. -/
theorem invariant {P I : Moment State Nat → Prop}
    (hstep : ∀ {m n}, Reached options words m → P m → I m → m.next script = some n → I n)
    (hm : Reached options words m) (h : Moment.Through script P m n) (hI : I m) : I n := by
  induction h with
  | refl => exact hI
  | next hP hnext _ ih => exact ih (hm.next hnext) (hstep hm hP hI hnext)

end Reached

/-! ### Open blocks -/

/-- The words that end the open blocks are words that may end a block. -/
def Reading.Closers (s : Reading) : Prop := ∀ ks ∈ s.frames, ∀ k ∈ ks, k.closes

theorem Reading.Closers.closes {s : Reading} (h : s.Closers) {k : TokenKind} (hk : s.isStop k) :
    k.closes := by
  obtain ⟨ks, hks, hk⟩ := List.any_eq_true.1 hk
  exact h ks hks k (List.contains_iff_mem.1 hk)

/-- One step opens only blocks that such words end. -/
theorem closers_next (hm : m.state.Closers) (hmove : Disciplined m.move m.state.toReading)
    (h : m.next script = some n) : n.state.Closers := by
  rcases Moment.next_cases h with heq | ⟨a, -, heq⟩ | ⟨scope, henter, heq⟩ | ⟨mark, scope, heq⟩
  · rwa [heq]
  · have hframes : n.state.frames = m.state.frames := by
      rw [heq]
      exact m.state.frames_perform a
    rwa [Reading.Closers, hframes]
  · rw [heq, State.begin_reading]
    rw [henter] at hmove
    cases scope with
    | stopAt kinds => exact List.forall_mem_cons.2 ⟨hmove.2, hm⟩
    | _ => exact hm
  · rw [heq, State.leave_reading]
    cases scope with
    | stopAt kinds => exact fun ks hks => hm ks (List.mem_of_mem_tail hks)
    | _ => exact hm

theorem Reached.closers (hm : Reached options words m) : m.state.Closers := by
  have hstart : Reached options words ⟨sourceFile, .nothing, State.initial options words⟩ := .refl _
  exact hstart.invariant (I := fun m => m.state.Closers)
    (fun hm _ hclosers hnext => closers_next hclosers hm.disciplined hnext) hm nofun

/-! ### Statements that are too deep -/

/-- A word that can belong to the statement is on its line. -/
theorem Reading.exists_word {s : Reading} (h : ¬ s.LineEnds) :
    ∃ w ws, s.rest = w :: ws ∧ w.startsLine = false := by
  have honLine : s.onLine ≠ none := fun hnone => h (.inl hnone)
  rw [Reading.onLine] at honLine
  cases hrest : s.rest with
  | nil => simp [hrest] at honLine
  | cons w ws => exact ⟨w, ws, rfl, by simpa [hrest] using honLine⟩

/-- What is left of a line is taken. -/
theorem exists_takeLine {fuel : Nat} {v : Unit} {s t : Sketch}
    (hrun : takeLine.run (runRule script fuel) fuel s = some (v, t)) :
    ∃ ws, s.rest = ws ++ t.rest ∧ ∀ w ∈ ws, w.startsLine = false := by
  have hrun : (collect takeRound >>= fun _ => pure ()).run (runRule script fuel) fuel s =
    some (v, t) := hrun
  obtain ⟨us, u, hu, hdone⟩ := run_bind_iff.1 hrun
  obtain ⟨-, rfl⟩ := run_pure_iff.1 hdone
  rw [run_collect_iff] at hu
  refine repeatStep_induction (P := fun _ (s : Sketch) _ (t : Sketch) =>
    ∃ ws, s.rest = ws ++ t.rest ∧ ∀ w ∈ ws, w.startsLine = false) ?_ ?_ hu
  · intro _ s t hst
    by_cases hend : AtEnd s
    · rw [run_takeRound_of_atEnd hend] at hst
      cases hst
      exact ⟨[], rfl, nofun⟩
    · rw [run_takeRound_of_not hend] at hst
      cases hst
  · rintro _ s b u bs t hsu - ⟨ws, hws, hline⟩
    by_cases hend : AtEnd s
    · rw [run_takeRound_of_atEnd hend] at hsu
      cases hsu
    · rw [run_takeRound_of_not hend] at hsu
      cases hsu
      obtain ⟨w, rest, hrest, hw⟩ := Reading.exists_word hend
      rw [Sketch.take_eq hrest] at hws
      refine ⟨w :: ws, ?_, List.forall_mem_cons.2 ⟨hw, hline⟩⟩
      rw [hrest, List.cons_append, ← hws]

/-- Taking a word changes neither the problems nor whether they are heard. -/
theorem Sketch.take_word (s : Sketch) : s.take.reports = s.reports ∧ s.take.silenced = s.silenced ∧
    ∃ ws, s.rest = ws ++ s.take.rest ∧ Word.OneLine ws := by
  cases hrest : s.rest with
  | nil =>
    rw [Sketch.take, hrest]
    exact ⟨rfl, rfl, [], hrest.symm, by simp [Word.OneLine]⟩
  | cons w ws =>
    rw [Sketch.take_eq hrest]
    exact ⟨rfl, rfl, [w], rfl, by simp [Word.OneLine]⟩

/-- One problem has been found, and the words of one line have been taken up to its end. -/
structure SkippedLine (s t : Reading) : Prop where
  reports : t.reports = (s.report .word .nestingTooDeep).reports
  silenced : t.silenced = s.silenced
  words : ∃ ws, s.rest = ws ++ t.rest ∧ Word.OneLine ws
  ends : t.LineEnds

theorem Sketch.skippedLine {s t : Sketch} (h : Yields script skipDeepStatement s () t) :
    SkippedLine s.toReading t.toReading := by
  obtain ⟨fuel, hrun⟩ := h
  obtain ⟨_, r, hr, hnode⟩ := run_bind_iff.1 hrun
  obtain ⟨u, hu, rfl⟩ := run_within_iff.1 hnode
  obtain ⟨_, w, hw, hline⟩ := run_bind_iff.1 hu
  obtain rfl := run_act_iff.1 hr
  obtain rfl := run_act_iff.1 hw
  have hrest := s.toReading.rest_report .word .nestingTooDeep
  have hsilenced := s.toReading.silenced_report .word .nestingTooDeep
  obtain ⟨hreports', hsilenced', vs, hvs, hone⟩ :=
    (s.perform (.report .word .nestingTooDeep)).fresh.take_word
  obtain ⟨hend, hreports'', hsilenced''⟩ := takeLine_end hline
  obtain ⟨ws, hws, hstarts⟩ := exists_takeLine hline
  refine ⟨hreports''.trans hreports', hsilenced''.trans (hsilenced'.trans hsilenced),
    ⟨vs ++ ws, ?_, hone.append hstarts⟩, hend⟩
  calc s.rest = (s.toReading.report .word .nestingTooDeep).rest := hrest.symm
    _ = vs ++ (s.perform (.report .word .nestingTooDeep)).fresh.take.rest := hvs
    _ = vs ++ (ws ++ u.rest) := congrArg (vs ++ ·) hws
    _ = vs ++ ws ++ u.rest := (List.append_assoc ..).symm

theorem exists_of_halts {x : Script Unit} (h : Halts false x) (s : State) :
    ∃ t, Yields script x s () t := by
  obtain ⟨_, t, hrun, -⟩ := h s (s.rest.length + 2) nofun (Nat.le_refl _)
  exact ⟨t, _, hrun⟩

/-- A statement that is too deep costs one problem and its line. -/
theorem exists_skippedLine (s : State) : ∃ t : State,
    Yields script skipDeepStatement s () t ∧ SkippedLine s.toReading t.toReading := by
  have hreport : Yields script (report .word .nestingTooDeep) s ()
      (s.perform (.report .word .nestingTooDeep)) := ⟨0, rfl⟩
  have htake (s : State) : Yields script take s () s.take := ⟨0, rfl⟩
  obtain ⟨t, ht⟩ := exists_of_halts loopsHalt.restOfLine
    (s.perform (.report .word .nestingTooDeep)).openNode.take
  have hnode : Yields script (node .errorNode (do take; takeLine))
      (s.perform (.report .word .nestingTooDeep)) () _ := .within ((htake _).bind ht)
  have hskip : Yields script skipDeepStatement s () _ := hreport.bind hnode
  obtain ⟨u, hu, hfollows⟩ := (Sketch.Follows.ofReading s).yields hskip
  refine ⟨_, hskip, ?_⟩
  rw [hfollows.reading_eq]
  exact Sketch.skippedLine hu

/-! ### Statements -/

/-- A statement starts by listening, so it may as well start where problems are heard. -/
theorem run_statementRule {call : Rule → Sketch → Option Sketch} {fuel : Nat} (s : Sketch) :
    statementRule.run call fuel s = statementRule.run call fuel { s with silenced := false } := by
  rw [statementRule, Script.listen, run_act_bind, run_act_bind]
  rfl

theorem Sketch.silenced_of_statement {s t : Sketch} (hs : s.Closers) (hnone : s.reports = #[])
    (h : Yields script Script.statement s () t) : t.silenced = false := by
  obtain ⟨fuel, hrun⟩ := h
  have hcall : runRule script fuel .statement s = some t := run_call_iff.1 hrun
  cases fuel with
  | zero => cases hcall
  | succ fuel =>
    have hrule : statementRule.run (runRule script fuel) fuel s = some ((), t) := run_of_runRule hcall
    rw [run_statementRule] at hrule
    cases hk : s.current with
    | some k =>
      have hheard : Heard (s.taken + s.rest.length) .outer (.word false false k)
          { s with silenced := false } :=
        ⟨hk, fun _ => rfl, nofun, nofun, fun _ => hs.closes, nofun, rfl, by simp [hnone],
          fun hne => absurd rfl hne, nofun⟩
      exact (Heard.of_run (walk_statementRule heard_rules) hrule hheard).loud rfl
    | none =>
      rw [statementRule, Script.listen, run_act_bind, tooDeep, run_ask_bind] at hrule
      split at hrule
      · exact (Sketch.skippedLine ⟨fuel, hrule⟩).silenced
      · have hnone : Machine.answer (Machine.perform { s with silenced := false } .listen)
            Query.current = none := hk
        rw [current, run_ask_bind, hnone] at hrule
        obtain ⟨-, rfl⟩ := run_pure_iff.1 hrule
        rfl

/-- Problems are heard behind a statement, whether they were before or not. -/
theorem State.silenced_of_statement (hs : s.Closers) (h : Yields script Script.statement s () t) :
    t.silenced = false := by
  -- The problems found so far make no difference, so the sketch that follows starts without them.
  have hfollows : Sketch.Follows s.reports s ⟨{ s.toReading with reports := #[] }, []⟩ := by
    simp [Sketch.Follows, Reading.after]
  obtain ⟨u, hu, hreading⟩ := hfollows.yields h
  rw [show t.toReading = _ from hreading]
  exact Sketch.silenced_of_statement (s := ⟨{ s.toReading with reports := #[] }, []⟩) hs rfl hu

/-- A statement comes to an end even where no word is left. -/
theorem exists_statement (s : State) : ∃ t, Yields script Script.statement s () t := by
  have hcall {t : State} (ht : Yields script statementRule s () t) :
      Yields script Script.statement s () t := .call ht
  by_cases hrest : s.rest = []
  · have hlisten : Yields script listen s () (s.perform .listen) := ⟨0, rfl⟩
    have hnone : Machine.answer (s.perform .listen) Query.current = none :=
      Reading.current_eq_none.2 hrest
    cases hdeep : Machine.answer (s.perform .listen) Query.tooDeep with
    | true =>
      obtain ⟨t, ht, -⟩ := exists_skippedLine (s.perform .listen)
      refine ⟨t, hcall (hlisten.bind (yields_ask.2 ?_))⟩
      rwa [hdeep]
    | false =>
      refine ⟨s.perform .listen, hcall (hlisten.bind (yields_ask.2 ?_))⟩
      rw [hdeep]
      refine yields_ask.2 ?_
      rw [hnone]
      exact yields_pure ()
  · obtain ⟨t, -, -, -, hrun, -⟩ := statement_takes hrest
    exact ⟨t, _, run_call_iff.2 (hrun _ (Nat.le_refl _))⟩

/-! ### Routines -/

/-- The routines of the grammar that call each other. -/
inductive Routine where
  /-- A statement. -/
  | statement
  /-- The statements of a block, up to a word of the given kinds. -/
  | blockBody (stops : List TokenKind)
  /-- The statement of a one-line branch, up to a word of the given kinds. -/
  | inlineBody (stops : List TokenKind)
  /-- An expression whose infix operators have at least the given left power. -/
  | expression (power : Nat)

def Routine.script : Routine → Script Unit
  | .statement => Script.statement
  | .blockBody stops => Grammar.blockBody stops
  | .inlineBody stops => Grammar.inlineBody stops
  | .expression power => expressionFrom power

/-- Every routine comes to an end, whatever state it starts in. -/
theorem Routine.exists_yields (r : Routine) (s : State) :
    ∃ t, Yields Grammar.script r.script s () t := by
  cases r with
  | statement => exact exists_statement s
  | blockBody stops => exact exists_of_halts (loopsHalt.statements stops) s
  | inlineBody stops =>
    exact exists_of_halts (halts_of_advances fun fuel => advances_inlineBody (rulesAdvance fuel) stops) s
  | expression power =>
    exact exists_of_halts (halts_of_advances fun fuel => (rulesAdvance fuel).expression power) s

/-- Problems are heard where a statement or a body starts. -/
theorem Reached.heard {r : Routine} (hr : ∀ power, r ≠ .expression power) {f : Unit → Script α}
    {rest : Pending Nat α} (hm : Reached options words ⟨r.script >>= f, rest, s⟩) : s.silenced = false := by
  cases r with
  | statement => exact hm.disciplined
  | blockBody stops => exact (hm.next rfl).disciplined.1
  | inlineBody stops => exact (hm.next rfl).disciplined.1
  | expression power => exact absurd rfl (hr power)

/-! ### Expressions that are too deep -/

/-- One problem has been found, and words of one line have been taken. -/
structure SkippedSoFar (s t : Reading) : Prop where
  reports : t.reports = (s.report .here .nestingTooDeep).reports
  words : ∃ ws, s.rest = ws ++ t.rest ∧ ∀ w ∈ ws, w.startsLine = false

theorem SkippedSoFar.take {s : Reading} {t : State} (h : SkippedSoFar s t.toReading)
    (ht : ¬ t.LineEnds) : SkippedSoFar s t.take.toReading := by
  obtain ⟨w, more, hrest, hw⟩ := Reading.exists_word ht
  obtain ⟨hreports, ws, hws, hline⟩ := h
  rw [State.take, hrest]
  refine ⟨hreports, ws ++ [w], ?_, fun v hv => ?_⟩
  · rw [hws, hrest, List.append_assoc]
    rfl
  · rcases List.mem_append.1 hv with hv | hv
    · exact hline v hv
    · rwa [List.mem_singleton.1 hv]

/-- Beside this, problems are passed over. -/
structure PassingOver (s t : Reading) : Prop extends SkippedSoFar s t where
  silenced : t.silenced = true

/-- Where problems are passed over, a step that does not listen finds none and stays on the line. -/
theorem passingOver_next {s : Reading} (hm : PassingOver s m.state.toReading)
    (hlisten : m.move ≠ .act .listen) (hmove : Disciplined m.move m.state.toReading)
    (h : m.next script = some n) : PassingOver s n.state.toReading := by
  rcases Moment.next_cases h with heq | ⟨a, hact, heq⟩ | ⟨scope, -, heq⟩ | ⟨mark, scope, heq⟩
  · rwa [heq]
  · rw [hact] at hmove hlisten
    rw [heq]
    cases a with
    | take =>
      have hquiet : m.state.take.silenced = true := by
        rw [State.take]
        split <;> exact hm.silenced
      exact ⟨hm.toSkippedSoFar.take (hmove hm.silenced), hquiet⟩
    | report place cause =>
      have hsame : m.state.toReading.report place cause = m.state.toReading := by
        rw [Reading.report, if_pos hm.silenced]
      change PassingOver s (m.state.toReading.report place cause)
      rwa [hsame]
    | silence => exact ⟨⟨hm.reports, hm.words⟩, rfl⟩
    | listen => exact absurd rfl hlisten
  · rw [heq, State.begin_reading]
    cases scope <;> exact ⟨⟨hm.reports, hm.words⟩, hm.silenced⟩
  · rw [heq, State.leave_reading]
    cases scope <;> exact ⟨⟨hm.reports, hm.words⟩, hm.silenced⟩

theorem Reached.skipped_expression {f : Unit → Script α} {rest : Pending Nat α}
    (hm : Reached options words ⟨skipDeepExpression >>= f, rest, s⟩)
    (hn : Moment.Through script (fun m => m.move ≠ .act .listen) ⟨skipDeepExpression >>= f, rest, s⟩ n) :
    n = ⟨skipDeepExpression >>= f, rest, s⟩ ∨
      SkippedSoFar s.toReading n.state.toReading ∧ (n.move = .act .listen → n.state.LineEnds) := by
  have hrest := s.toReading.rest_report .here .nestingTooDeep
  have hskipped : SkippedSoFar s.toReading (s.toReading.report .here .nestingTooDeep) :=
    ⟨rfl, [], hrest.symm, nofun⟩
  -- The problem is reported, the error node is opened, and then problems are passed over.
  refine (hn.of_next rfl).imp_right fun hreported => ?_
  rcases hreported.of_next rfl with rfl | hopened
  · exact ⟨hskipped, nofun⟩
  rcases hopened.of_next rfl with rfl | hquiet
  · exact ⟨hskipped, nofun⟩
  have hpassing : PassingOver s.toReading n.state.toReading :=
    Reached.invariant (I := fun m => PassingOver s.toReading m.state.toReading)
      (fun hm hlisten hpassing hnext => passingOver_next hpassing hlisten hm.disciplined hnext)
      (((hm.next rfl).next rfl).next rfl) hquiet ⟨⟨hskipped.reports, hskipped.words⟩, rfl⟩
  refine ⟨hpassing.toSkippedSoFar, fun hlisten => ?_⟩
  have hend := (hm.trans (hn.mono fun _ _ => trivial)).disciplined
  rw [hlisten] at hend
  exact hend hpassing.silenced

/-! ### Orderly parses -/

/-- What a parse keeps to, whatever it reads. -/
structure Orderly (options : ParseOptions) (words : List Word) : Prop where
  /-- The parse comes to its end. -/
  ends : Reached options words ⟨.done (), .nothing, finalState options words⟩
  /-- From every state to which the parse comes, every routine comes back to where it has been called.  The
  nesting and the open blocks are then as they were, and problems are heard behind a statement. -/
  returns {m : Moment State Nat} (hm : Reached options words m) (r : Routine) :
    ∃ t : State, Yields script r.script m.state () t ∧ t.depth = m.state.depth ∧
      t.frames = m.state.frames ∧ (r = .statement → t.silenced = false) ∧
      ∀ {α : Type} (f : Unit → Script α) (rest : Pending Nat α),
        Moment.Reaches script ⟨r.script >>= f, rest, m.state⟩ ⟨f (), rest, t⟩
  /-- Problems are heard where a statement or a body starts. -/
  heard {r : Routine} (hr : ∀ power, r ≠ .expression power) {α : Type} {f : Unit → Script α}
    {rest : Pending Nat α} {s : State} (hm : Reached options words ⟨r.script >>= f, rest, s⟩) :
    s.silenced = false
  /-- Problems are heard where a block should end. -/
  terminators {kind opener : TokenKind} {α : Type} {f : Bool → Script α} {rest : Pending Nat α} {s : State}
    (hm : Reached options words ⟨terminator kind opener >>= f, rest, s⟩) : s.silenced = false
  /-- A statement that is too deep costs one problem and its line. -/
  deepStatement {m : Moment State Nat} (hm : Reached options words m) : ∃ t : State,
    Yields script skipDeepStatement m.state () t ∧ SkippedLine m.state.toReading t.toReading
  /-- Behind an expression that is too deep, no other problem is found before the next moment that listens,
  and this is at the end of the line. -/
  deepExpression {α : Type} {f : Unit → Script α} {rest : Pending Nat α} {s : State} {n : Moment State Nat}
    (hm : Reached options words ⟨skipDeepExpression >>= f, rest, s⟩)
    (hn : Moment.Through script (fun m => m.move ≠ .act .listen) ⟨skipDeepExpression >>= f, rest, s⟩ n) :
    n = ⟨skipDeepExpression >>= f, rest, s⟩ ∨
      SkippedSoFar s.toReading n.state.toReading ∧ (n.move = .act .listen → n.state.LineEnds)

/-- Every parse is orderly. -/
theorem orderly (options : ParseOptions) (words : List Word) : Orderly options words where
  ends := (through_sourceFile options words).mono fun _ _ => trivial
  returns {m} hm r := by
    obtain ⟨t, ht⟩ := r.exists_yields m.state
    have hgoes := State.goesOn_of_yields ht
    refine ⟨t, ht, hgoes.depth, hgoes.frames, ?_, fun f rest => ht.reaches f rest⟩
    rintro rfl
    exact State.silenced_of_statement hm.closers ht
  heard {_} hr {_ _ _ _} hm := Reached.heard hr hm
  terminators hm := hm.disciplined
  deepStatement {m} _ := exists_skippedLine m.state
  deepExpression := Reached.skipped_expression

/-- The words `x = (1`. -/
def openParenthesis : List Word :=
  [⟨.ident, ['x'], true⟩, ⟨.eq, ['='], false⟩, ⟨.lParen, ['('], false⟩, ⟨.number, ['1'], false⟩]

/-- Where the limit is one, what stands behind a parenthesis is too deep, and is skipped to its end. -/
theorem orderly_openParenthesis : ∃ (f : Unit → Script Unit) (rest : Pending Nat Unit) (s : State),
    Reached { maxDepth := 1 } openParenthesis ⟨skipDeepExpression >>= f, rest, s⟩ ∧
      ∀ n : Moment State Nat, Moment.Through script (fun m => m.move ≠ .act .listen)
          ⟨skipDeepExpression >>= f, rest, s⟩ n → n = ⟨skipDeepExpression >>= f, rest, s⟩ ∨
        SkippedSoFar s.toReading n.state.toReading ∧ (n.move = .act .listen → n.state.LineEnds) := by
  have hreached : Reached { maxDepth := 1 } openParenthesis _ := Moment.reaches_of_after (k := 27) rfl
  exact ⟨pure, _, _, hreached,
    fun _ hn => (orderly { maxDepth := 1 } openParenthesis).deepExpression hreached hn⟩

end Parsing

end CRBasic
