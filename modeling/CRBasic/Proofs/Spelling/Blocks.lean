import CRBasic.Proofs.Blocks.Statements
import CRBasic.Proofs.Embedding.Texts
import CRBasic.Proofs.Spelling.Lines

/-!
# Blocks in another spelling

A run without problems of one script is followed by a run of another one (`Carries`), from a sketch that
has some words left in another spelling (`Abreast`), or stands right before a word that is written as two
(`BeforeTwo`).  There is one rule for each construct of a script.
-/

namespace CRBasic

namespace Grammar

open Parsing Parsing.Script

/-! ### Two parses side by side -/

/-- A run without problems of one script is followed by a run of another one, and the sketches after them
are related. -/
def Carries (fuel : Nat) {α : Type} (s s' : Sketch) (x x' : Script α)
    (Q : α → Sketch → Sketch → Prop) : Prop :=
  ∀ (a : α) (t : Sketch), x.run (runRule script fuel) fuel s = some (a, t) → t.reports = #[] →
    ∃ t', x'.run (runRule script fuel) fuel s' = some (a, t') ∧ Q a t t'

/-- Between lines: the second parse is the first one, but for words left and words read that it has in
another spelling. -/
def Abreast (b : Bool) (m : Mode) (s s' : Sketch) : Prop :=
  s.origins = [] ∧ ∃ d ws ps, s' = s.beside d ws ps ∧ Spelled b .outer m s ws ps

/-- The next word is an `ElseIf`, which the second parse has as two words. -/
def BeforeTwo (b : Bool) (s s' : Sketch) : Prop :=
  s.origins = [] ∧ ∃ d w first second vs ws ps, Word.TwoWords w first second ∧ s.rest = w :: vs ∧
    Word.Respelled vs ws ∧ s' = s.beside d (first :: second :: ws) ps ∧
    Spelled b .outer .body s (first :: second :: ws) ps

section Runs

variable {fuel : Nat} {α β : Type} {s s' : Sketch} {x x' : Script α} {f f' : α → Script β} {b c : Bool}
  {m m' : Mode} {k : TokenKind} {Q Q' : α → Sketch → Sketch → Prop} {R : β → Sketch → Sketch → Prop}

theorem carries_pure {a : α} (h : Q a s s') : Carries fuel s s' (pure a) (pure a) Q := by
  intro c t hrun _
  obtain ⟨rfl, rfl⟩ := run_pure_iff.1 hrun
  exact ⟨s', rfl, h⟩

theorem Carries.bind (hx : Carries fuel s s' x x' Q)
    (hf : ∀ a t t', Q a t t' → Carries fuel t t' (f a) (f' a) R) :
    Carries fuel s s' (x >>= f) (x' >>= f') R := by
  intro c u hrun hreports
  obtain ⟨a, t, ht, hu⟩ := run_bind_iff.1 hrun
  obtain ⟨t', ht', hQ⟩ := hx a t ht ((Sketch.goesOn_of_run hu).reports_eq_nil hreports)
  obtain ⟨u', hu', hR⟩ := hf a t t' hQ c u hu hreports
  exact ⟨u', run_bind_iff.2 ⟨a, t', ht', hu'⟩, hR⟩

theorem Carries.mono (h : Carries fuel s s' x x' Q) (hQ : ∀ a t t', Q a t t' → Q' a t t') :
    Carries fuel s s' x x' Q' := by
  intro a t hrun hreports
  obtain ⟨t', ht', h⟩ := h a t hrun hreports
  exact ⟨t', ht', hQ a t t' h⟩

/-- Both parses ask, and go on with their answers. -/
theorem Carries.ask {q : Query α} (h : Carries fuel s s' (f (s.answer q)) (f' (s'.answer q)) R) :
    Carries fuel s s' (.ask q .done >>= f) (.ask q .done >>= f') R := h

/-- Only the second parse asks. -/
theorem Carries.askSecond {q : Query α} {y : Script β}
    (h : Carries fuel s s' y (f' (s'.answer q)) R) :
    Carries fuel s s' y (.ask q .done >>= f') R := h

/-- A problem is none that a run without problems finds. -/
theorem carries_report {place : Place} {cause : Cause} {g : Unit → Script α}
    (hs : s.silenced = false) : Carries fuel s s' (report place cause >>= g) x' Q :=
  fun _ _ hrun hreports => absurd hreports (Sketch.reports_ne_nil hs hrun)

/-- A repetition keeps what each of its rounds keeps, and ends with what its last round ends with. -/
theorem carries_collect {item : Script (Option α)} {P P' : Sketch → Sketch → Prop}
    (h : ∀ s s', P s s' → Carries fuel s s' item item fun o t t' => o.elim (P' t t') fun _ => P t t')
    (hs : P s s') : Carries fuel s s' (collect item) (collect item) fun _ => P' := by
  intro as t hrun hreports
  rw [run_collect_iff] at hrun
  simp only [run_collect_iff]
  refine repeatStep_induction (P := fun n (s : Sketch) as (t : Sketch) => ∀ s', t.reports = #[] →
    P s s' → ∃ t', repeatStep (item.run (runRule script fuel) fuel) n s' = some (as, t') ∧ P' t t')
    ?_ ?_ hrun s' hreports hs
  · intro n s t hst s' hreports hs
    obtain ⟨t', ht', hP⟩ := h s s' hs none t hst hreports
    refine ⟨t', ?_, hP⟩
    rw [repeatStep, ht']
  · intro n s a u as t hsu hut ih s' hreports hs
    obtain ⟨u', hu', hP⟩ :=
      h s s' hs (some a) u hsu ((Sketch.goesOn_of_rounds hut).reports_eq_nil hreports)
    obtain ⟨t', ht', hP'⟩ := ih u' hreports hP
    refine ⟨t', ?_, hP'⟩
    simp only [repeatStep, hu', ht']

/-! ### On a line -/

theorem Abreast.toBody (h : Abreast b m s s') : Abreast b .body s s' := by
  obtain ⟨horigins, d, ws, ps, rfl, hs⟩ := h
  exact ⟨horigins, d, ws, ps, rfl,
    { hs with sees := trivial, unblamed := rfl, head := fun h => absurd h Bool.false_ne_true }⟩

theorem Respells.carriesOuter (h : Respells fuel .outer m x m') (hs : Abreast b m s s') :
    Carries fuel s s' x x fun _ => Abreast b m' := by
  obtain ⟨horigins, d, ws, ps, rfl, hs⟩ := hs
  intro a t hrun hreports
  obtain ⟨ws', ps', ht, hs'⟩ := h b d ws ps s a t hrun hreports hs
  exact ⟨_, ht, (Sketch.goesOn_of_run hrun).origins.trans horigins, d, ws', ps', rfl, hs'⟩

/-- What stands on a line runs in either spelling. -/
theorem Respells.carries (h : Respells fuel .inner m x m') (hs : Abreast b m s s') :
    Carries fuel s s' x x fun _ => Abreast b m' :=
  h.toOuter.carriesOuter hs

theorem Abreast.singleLineIf_eq (h : Abreast b m s s') :
    s'.options.singleLineIf = s.options.singleLineIf := by
  obtain ⟨-, d, ws, ps, rfl, -⟩ := h
  rfl

theorem Abreast.tooDeep_eq (h : Abreast b m s s') : s'.tooDeep = s.tooDeep := by
  obtain ⟨-, d, ws, ps, rfl, -⟩ := h
  rfl

theorem Abreast.parts (h : Abreast b m s s') : Piece.Respelled b s.parts s'.parts := by
  obtain ⟨-, d, ws, ps, rfl, hs⟩ := h
  exact hs.parts

theorem Abreast.silenced_eq (h : Abreast b m s s') : s.silenced = false := by
  obtain ⟨-, d, ws, ps, -, hs⟩ := h
  exact hs.loud

theorem Abreast.onLine_eq (h : Abreast b m s s') : s'.onLine = s.onLine := by
  obtain ⟨-, d, ws, ps, rfl, hs⟩ := h
  exact hs.onLine_eq d

/-- A word that is seen is the next one of both parses. -/
theorem Abreast.seeing (h : Abreast b m s s') (hk : s.onLine = some k) :
    Abreast b (.seeing true false k) s s' := by
  obtain ⟨horigins, d, ws, ps, rfl, hs⟩ := h
  exact ⟨horigins, d, ws, ps, rfl,
    { hs with sees := hk, unblamed := rfl, head := fun h => absurd h Bool.false_ne_true }⟩

theorem Abreast.word_of_seeing (h : Abreast b (.seeing true false k) s s') :
    Abreast b (.word true false k) s s' := by
  obtain ⟨horigins, d, ws, ps, rfl, hs⟩ := h
  exact ⟨horigins, d, ws, ps, rfl, { hs with
    sees := Reading.current_of_onLine hs.sees
    unblamed := rfl
    head := fun _ => hs.head_of_onLine hs.sees }⟩

theorem Abreast.current_eq {started : Bool} (h : Abreast b (.word started false k) s s') :
    s.current = some k ∧ s'.current = some k := by
  obtain ⟨-, d, ws, ps, rfl, hs⟩ := h
  exact ⟨hs.sees, (current_beside (hs.head rfl) d).trans hs.sees⟩

theorem Abreast.atStop_eq {started : Bool} (h : Abreast b (.word started false k) s s') :
    s'.atStop = s.atStop := by
  obtain ⟨-, d, ws, ps, rfl, hs⟩ := h
  exact atStop_beside (hs.head rfl) d

theorem Abreast.secondOnLine_eq {started : Bool} (h : Abreast b (.word started false k) s s') :
    s'.secondOnLine = s.secondOnLine := by
  obtain ⟨-, d, ws, ps, rfl, hs⟩ := h
  exact hs.secondOnLine_eq (hs.head rfl) d

theorem Abreast.pair {started : Bool} {k' : TokenKind} (h : Abreast b (.word started false k) s s')
    (hk' : s.secondOnLine = some k') : Abreast b (.pair k k') s s' := by
  obtain ⟨horigins, d, ws, ps, rfl, hs⟩ := h
  exact ⟨horigins, d, ws, ps, rfl,
    { hs with sees := ⟨hs.sees, hk'⟩, unblamed := rfl, head := fun _ => hs.head rfl }⟩

/-! ### Stretches -/

/-- A node ends in both parses.  Only a clause has a first word in another spelling. -/
theorem carries_node {kind : NodeKind} (hparts : Piece.Respelled b s.parts s'.parts)
    (hkind : c → kind = .elseIfClause)
    (h : Carries fuel s.fresh s'.fresh x x' fun _ => Abreast c m') :
    Carries fuel s s' (node kind x) (node kind x') fun _ => Abreast b m' := by
  intro a t hrun hreports
  obtain ⟨u, hu, rfl⟩ := run_within_iff.1 hrun
  obtain ⟨u', hu', horigins, d, ws, ps, rfl, hs⟩ := h a u hu hreports
  refine ⟨_, run_within_iff.2 ⟨_, hu', rfl⟩, horigins, d, ws,
    .node (.node kind ps.reverse) :: s'.parts, rfl, ?_⟩
  exact hs.transfer ⟨rfl, rfl, rfl⟩ hs.stops (.node (hs.parts.draft_node hkind) hparts)
    Stage.noConfusion

theorem Abreast.fresh (h : Abreast b m s s') : Abreast false m s.fresh s'.fresh := by
  obtain ⟨horigins, d, ws, ps, rfl, hs⟩ := h
  exact ⟨horigins, d, ws, [], rfl, hs.transfer ⟨rfl, rfl, rfl⟩ hs.stops .nil Stage.noConfusion⟩

theorem Abreast.node {kind : NodeKind} (h : Abreast b m s s')
    (hx : Abreast false m s.fresh s'.fresh →
      Carries fuel s.fresh s'.fresh x x fun _ => Abreast false m') :
    Carries fuel s s' (node kind x) (node kind x) fun _ => Abreast b m' :=
  carries_node h.parts (fun h => absurd h Bool.false_ne_true) (hx h.fresh)

theorem Abreast.nested (h : Abreast b m s s')
    (hx : ∀ u u', Abreast b m u u' → Carries fuel u u' x x fun _ => Abreast b m') :
    Carries fuel s s' (within .nested x) (within .nested x) fun _ => Abreast b m' := by
  obtain ⟨horigins, d, ws, ps, rfl, hs⟩ := h
  intro a t hrun hreports
  obtain ⟨u, hu, rfl⟩ := run_within_iff.1 hrun
  have hbegin : Abreast b m (Machine.begin s .nested).2 (Machine.begin (s.beside d ws ps) .nested).2 :=
    ⟨horigins, d, ws, ps, rfl,
      hs.transfer ⟨rfl, rfl, rfl⟩ hs.stops hs.parts Stage.noConfusion⟩
  obtain ⟨u', hu', horigins', d', ws', ps', rfl, hs'⟩ := hx _ _ hbegin a u hu hreports
  exact ⟨_, run_within_iff.2 ⟨_, hu', rfl⟩, horigins', d', ws', ps', rfl,
    hs'.transfer ⟨rfl, rfl, rfl⟩ hs'.stops hs'.parts Stage.noConfusion⟩

/-- The statements of a block that `Else` ends, if `ElseIf` does. -/
theorem Abreast.stopAt {kinds : List TokenKind} (h : Abreast b m s s')
    (hkinds : .kwElseIf ∈ kinds → .kwElse ∈ kinds)
    (hx : ∀ u u', Abreast b m u u' → Carries fuel u u' x x fun _ => Abreast b m') :
    Carries fuel s s' (within (.stopAt kinds) x) (within (.stopAt kinds) x)
      fun _ => Abreast b m' := by
  obtain ⟨horigins, d, ws, ps, rfl, hs⟩ := h
  intro a t hrun hreports
  obtain ⟨u, hu, rfl⟩ := run_within_iff.1 hrun
  have hbegin : Abreast b m (Machine.begin s (.stopAt kinds)).2
      (Machine.begin (s.beside d ws ps) (.stopAt kinds)).2 :=
    ⟨horigins, d, ws, ps, rfl, hs.transfer ⟨rfl, rfl, rfl⟩
      (List.forall_mem_cons.2 ⟨hkinds, hs.stops⟩) hs.parts Stage.noConfusion⟩
  obtain ⟨u', hu', horigins', d', ws', ps', rfl, hs'⟩ := hx _ _ hbegin a u hu hreports
  exact ⟨_, run_within_iff.2 ⟨_, hu', rfl⟩, horigins', d', ws', ps', rfl,
    hs'.transfer ⟨rfl, rfl, rfl⟩ (fun kinds hmem => hs'.stops kinds (List.mem_of_mem_tail hmem))
      hs'.parts Stage.noConfusion⟩

/-! ### Between lines -/

/-- After a body the next word is the same in both parses, or written as two words in the second. -/
theorem Abreast.next (h : Abreast b .body s s') : (s.current = none ∧ s'.current = none) ∨
    (∃ k, Abreast b (.word true false k) s s') ∨ BeforeTwo b s s' := by
  obtain ⟨horigins, d, ws, ps, rfl, hs⟩ := h
  have hrest := hs.rest
  generalize hvs : s.rest = vs at hrest
  cases hrest with
  | nil => exact .inl ⟨Reading.current_eq_none.2 hvs, rfl⟩
  | same w _ =>
    have hk : s.current = some w.kind := by rw [Reading.current, hvs]; rfl
    exact .inr (.inl ⟨w.kind, horigins, d, _, ps, rfl,
      { hs with sees := hk, unblamed := rfl, head := fun _ => by rw [hvs]; rfl }⟩)
  | split hw hvs' =>
    exact .inr (.inr ⟨horigins, d, _, _, _, _, _, ps, hw, hvs, hvs', rfl, hs⟩)

theorem BeforeTwo.current_eq (h : BeforeTwo b s s') : s.current = some .kwElseIf ∧
    s'.current = some .kwElse ∧ s'.secondOnLine = some .kwIf := by
  obtain ⟨-, d, w, first, second, vs, ws, ps, hw, hvs, -, rfl, -⟩ := h
  refine ⟨?_, congrArg some hw.first_kind, ?_⟩
  · rw [Reading.current, hvs]
    exact congrArg some hw.kind
  · change (if second.startsLine then none else some second.kind) = _
    rw [hw.second_startsLine, hw.second_kind]
    rfl

/-- Where the word ends the statements of a block, so does the first one of the two. -/
theorem BeforeTwo.atStop (h : BeforeTwo b s s') (hs : s.atStop) : s'.atStop := by
  obtain ⟨hcurrent, hcurrent', -⟩ := h.current_eq
  obtain ⟨-, d, w, first, second, vs, ws, ps, -, -, -, rfl, hspelled⟩ := h
  rw [Reading.atStop, hcurrent, Option.any_some, Reading.isStop, List.any_eq_true] at hs
  obtain ⟨kinds, hkinds, hmem⟩ := hs
  rw [Reading.atStop, hcurrent', Option.any_some, Reading.isStop, List.any_eq_true]
  refine ⟨kinds, hkinds, ?_⟩
  rw [List.contains_iff_mem] at hmem ⊢
  exact hspelled.stops kinds hkinds hmem

theorem BeforeTwo.abreast (h : BeforeTwo b s s') : Abreast b .body s s' := by
  obtain ⟨horigins, d, w, first, second, vs, ws, ps, -, -, -, rfl, hs⟩ := h
  exact ⟨horigins, d, _, ps, rfl, hs⟩

/-- The word is no statement. -/
theorem BeforeTwo.statement {g : Unit → Script α} (h : BeforeTwo b s s') :
    Carries fuel s s' (Script.statement >>= g) x' Q := by
  intro a t hrun hreports
  obtain ⟨_, u, hu, ht⟩ := run_bind_iff.1 hrun
  exact absurd ((Sketch.goesOn_of_run ht).reports_eq_nil hreports)
    (statement_reports h.current_eq.1 rfl hu)

/-- A branch on the next word, on whatever line. -/
theorem Abreast.current_body {g g' : Option TokenKind → Script α} (h : Abreast b .body s s')
    (hnone : s.current = none → s'.current = none → Carries fuel s s' (g none) (g' none) Q)
    (hsome : ∀ k, Abreast b (.word true false k) s s' →
      Carries fuel s s' (g (some k)) (g' (some k)) Q)
    (htwo : BeforeTwo b s s' → Carries fuel s s' (g (some .kwElseIf)) (g' (some .kwElse)) Q) :
    Carries fuel s s' (current >>= g) (current >>= g') Q := by
  refine Carries.ask ?_
  change Carries fuel s s' (g s.current) (g' s'.current) Q
  rcases h.next with ⟨hs, hs'⟩ | ⟨k, hk⟩ | htwo'
  · rw [hs, hs']
    exact hnone hs hs'
  · rw [hk.current_eq.1, hk.current_eq.2]
    exact hsome k hk
  · rw [htwo'.current_eq.1, htwo'.current_eq.2.1]
    exact htwo htwo'

end Runs

end Grammar

end CRBasic
