import CRBasic.Proofs.Embedding.Alike
import CRBasic.Proofs.Grammar.Forms
import CRBasic.Proofs.Lines.Inline
import CRBasic.Proofs.Spelling.Words

/-!
# Lines before another spelling

A script that stands on one line and finds no problem takes the same words where the text before it has
some `ElseIf` written as two words (`respells_lines`): it takes no word that starts a line, but for the
first one of a statement, which is written the same.
-/

namespace CRBasic

namespace Parsing

/-- A sketch with other words left and other parts, after `d` more words. -/
def Sketch.beside (d : Nat) (rest : List Word) (parts : List (Piece Draft)) (s : Sketch) : Sketch :=
  { s with rest, parts, taken := s.taken + d, origins := s.origins.map (· + d) }

end Parsing

namespace Grammar

open Parsing Parsing.Script

/-- What holds of a parse that has found no problem, and of the words and parts of another one, where
some `ElseIf` are written as two words. -/
structure Spelled (b : Bool) (st : Stage) (m : Mode) (s : Sketch) (ws : List Word)
    (ps : List (Piece Draft)) : Prop where
  sees : m.Sees s.toReading
  unblamed : m.isBlamed = false
  loud : s.silenced = false
  reports : s.reports = #[]
  /-- No word in error is left. -/
  sound : ∀ w ∈ s.rest, w.kind ≠ .error
  /-- Where `ElseIf` ends the statements of a block, so does `Else`. -/
  stops : ∀ kinds ∈ s.frames, .kwElseIf ∈ kinds → .kwElse ∈ kinds
  rest : Word.Respelled s.rest ws
  head : m.isFirst → ws.head? = s.rest.head?
  parts : Piece.Respelled b s.parts ps
  measured : st = .measured → s.Measuring

/-- A run of a script without problems is a run where some `ElseIf` are written as two words. -/
def Respells (fuel : Nat) {α : Type} (st : Stage) (m : Mode) (x : Script α) (m' : Mode) : Prop :=
  ∀ (b : Bool) (d : Nat) (rest : List Word) (parts : List (Piece Draft)) (s : Sketch) (a : α)
    (t : Sketch), x.run (runRule script fuel) fuel s = some (a, t) → t.reports = #[] →
      Spelled b st m s rest parts → ∃ rest' parts',
        x.run (runRule script fuel) fuel (s.beside d rest parts) = some (a, t.beside d rest' parts') ∧
          Spelled b st m' t rest' parts'

section Answers

variable {b : Bool} {st : Stage} {m : Mode} {s : Sketch} {rest : List Word}
  {parts : List (Piece Draft)} {k : TokenKind}

theorem Mode.Le.unblamed {m m' : Mode} (h : m.Le m') (hm : m.isBlamed = false) :
    m'.isBlamed = false :=
  Bool.eq_false_iff.2 fun hm' => Bool.false_ne_true (hm.symm.trans (h.flags.2.1 hm'))

theorem Spelled.weaken {m' : Mode} (hm : m.Le m') (h : Spelled b st m s rest parts) :
    Spelled b st m' s rest parts :=
  { h with
    sees := hm.sees h.sees
    unblamed := hm.unblamed h.unblamed
    head := h.head ∘ hm.isFirst }

/-! ### Answers -/

theorem Spelled.onLine_eq (h : Spelled b st m s rest parts) (d : Nat) :
    (s.beside d rest parts).onLine = s.onLine := by
  have hrest := h.rest
  change Reading.onLine { s.toReading with rest := rest, .. } = _
  unfold Reading.onLine
  cases hs : s.rest with
  | nil =>
    rw [hs] at hrest
    rw [hrest.eq_nil_iff.2 rfl]
  | cons w ws =>
    rw [hs] at hrest
    cases hrest with
    | same _ _ => rfl
    | split hw _ => simp [hw.first_startsLine, hw.startsLine]

/-- A word that is seen on the line is the next one in either spelling. -/
theorem Spelled.head_of_onLine (h : Spelled b st m s rest parts) (hk : s.onLine = some k) :
    rest.head? = s.rest.head? := by
  obtain ⟨w, ws, hs, hline⟩ := exists_rest_of_onLine hk
  have hrest := h.rest
  rw [hs] at hrest ⊢
  exact hrest.head?_eq_of_onLine hline

section Head

variable (hhead : rest.head? = s.rest.head?)
include hhead

theorem current_beside (d : Nat) : (s.beside d rest parts).current = s.current :=
  congrArg (Option.map Word.kind) hhead

theorem text_beside (d : Nat) : (s.beside d rest parts).text = s.text :=
  congrArg (fun o => (Option.map Word.text o).getD []) hhead

theorem atStop_beside (d : Nat) : (s.beside d rest parts).atStop = s.atStop :=
  congrArg (Option.any s.isStop) (current_beside hhead d)

theorem Spelled.secondOnLine_eq (h : Spelled b st m s rest parts) (d : Nat) :
    (s.beside d rest parts).secondOnLine = s.secondOnLine := by
  have hrest := h.rest
  change Reading.secondOnLine { s.toReading with rest := rest, .. } = _
  unfold Reading.secondOnLine
  cases hs : s.rest with
  | nil =>
    rw [hs] at hrest
    rw [hrest.eq_nil_iff.2 rfl]
  | cons w ws =>
    rw [hs] at hrest hhead
    obtain ⟨ws', rfl, hws⟩ := hrest.tail_of_head? hhead
    cases hws with
    | nil => rfl
    | same _ _ => rfl
    | split hw _ => simp [hw.first_startsLine, hw.startsLine]

theorem Spelled.atAssignment_eq (h : Spelled b st m s rest parts) (d : Nat) :
    (s.beside d rest parts).atAssignment = s.atAssignment := by
  have hline : Word.line rest = Word.line s.rest := by
    have hrest := h.rest
    cases hs : s.rest with
    | nil =>
      rw [hs] at hrest
      rw [hrest.eq_nil_iff.2 rfl]
    | cons w ws =>
      rw [hs] at hrest hhead
      obtain ⟨ws', rfl, hws⟩ := hrest.tail_of_head? hhead
      rw [Word.line, Word.line, hws.takeWhile_eq]
  exact congrArg (Word.assignsBefore s.isStop 0) hline

end Head

theorem Spelled.measuredWords_eq (h : Spelled b .measured m s rest parts) (d : Nat) :
    (s.beside d rest parts).measuredWords = s.measuredWords := by
  obtain ⟨horigins, hle⟩ := h.measured rfl
  obtain ⟨o, os, ho⟩ := List.exists_cons_of_ne_nil horigins
  rw [Reading.origin, ho] at hle
  change s.taken + d - (s.origins.map (· + d)).headD 0 = s.taken - s.origins.headD 0
  rw [ho]
  exact Nat.add_sub_add_right s.taken d o

end Answers

section Rules

variable {fuel : Nat} {α β : Type} {st : Stage} {m m' m'' : Mode} {l b : Bool} {k : TokenKind}

/-! ### Single steps -/

theorem respells_pure (a : α) : Respells fuel st m (pure a) m := by
  intro b d rest parts s a' t hrun _ hs
  obtain ⟨rfl, rfl⟩ := run_pure_iff.1 hrun
  exact ⟨rest, parts, rfl, hs⟩

theorem respells_bind {x : Script α} {f : α → Script β} (hx : Respells fuel st m x m')
    (hf : ∀ a, Respells fuel st m' (f a) m'') : Respells fuel st m (x >>= f) m'' := by
  intro b d rest parts s c u hrun hreports hs
  obtain ⟨a, t, ht, hu⟩ := run_bind_iff.1 hrun
  have hclean := (Sketch.goesOn_of_run hu).reports_eq_nil hreports
  obtain ⟨rest', parts', ht', hs'⟩ := hx b d rest parts s a t ht hclean hs
  obtain ⟨rest'', parts'', hu', hs''⟩ := hf a b d rest' parts' t c u hu hreports hs'
  exact ⟨rest'', parts'', run_bind_iff.2 ⟨a, _, ht', hu'⟩, hs''⟩

theorem respells_weaken {m₀ m₁ : Mode} {x : Script α} (hpre : m₀.Le m) (hpost : m'.Le m₁)
    (h : Respells fuel st m x m') : Respells fuel st m₀ x m₁ := by
  intro b d rest parts s a t hrun hreports hs
  obtain ⟨rest', parts', ht, hs'⟩ := h b d rest parts s a t hrun hreports (hs.weaken hpre)
  exact ⟨rest', parts', ht, hs'.weaken hpost⟩

/-- A question with the same answer leads on from the modes that its answers tell. -/
theorem respells_ask {q : Query α} {f : α → Script β} (n : α → Mode)
    (hanswer : ∀ {b d rest parts} {s : Sketch}, Spelled b st m s rest parts →
      (s.beside d rest parts).answer q = s.answer q)
    (hn : ∀ {b rest parts} {s : Sketch}, Spelled b st m s rest parts →
      Spelled b st (n (s.answer q)) s rest parts)
    (h : ∀ a, Respells fuel st (n a) (f a) m') : Respells fuel st m (.ask q .done >>= f) m' := by
  intro b d rest parts s c t hrun hreports hs
  obtain ⟨rest', parts', ht, hs'⟩ :=
    h (s.answer q) b d rest parts s c t hrun hreports (hn hs)
  refine ⟨rest', parts', ?_, hs'⟩
  rw [run_ask_bind]
  change (f ((s.beside d rest parts).answer q)).run _ _ _ = _
  rwa [hanswer hs]

theorem respells_askAny {q : Query α} {f : α → Script β}
    (hanswer : ∀ {b d rest parts} {s : Sketch}, Spelled b st m s rest parts →
      (s.beside d rest parts).answer q = s.answer q)
    (h : ∀ a, Respells fuel st m (f a) m') : Respells fuel st m (.ask q .done >>= f) m' :=
  respells_ask (fun _ => m) hanswer id h

/-- A question of which the mode knows the answer. -/
theorem respells_known {q : Query α} {f : α → Script β} {a : α}
    (hanswer : ∀ {b d rest parts} {s : Sketch}, Spelled b st m s rest parts →
      (s.beside d rest parts).answer q = s.answer q)
    (ha : ∀ s : Sketch, m.Sees s.toReading → s.answer q = a)
    (h : Respells fuel st m (f a) m') : Respells fuel st m (.ask q .done >>= f) m' := by
  intro b d rest parts s c t hrun hreports hs
  have hask {u : Sketch} (hu : u.answer q = a) :
      (Script.ask q .done >>= f).run (runRule script fuel) fuel u =
        (f a).run (runRule script fuel) fuel u := by
    rw [run_ask_bind]
    change (f (u.answer q)).run _ _ _ = _
    rw [hu]
  rw [hask (ha s hs.sees)] at hrun
  rw [hask ((hanswer hs).trans (ha s hs.sees))]
  exact h b d rest parts s c t hrun hreports hs

/-- A mode in which a problem has been found is not reached. -/
theorem respells_blamed {x : Script α} (hm : m.isBlamed = true) : Respells fuel st m x m' := by
  intro b d rest parts s a t _ _ hs
  exact absurd (hs.unblamed.symm.trans hm) Bool.false_ne_true

/-- A problem is none that a run without problems finds. -/
theorem respells_report {place : Place} {cause : Cause} {f : Unit → Script α} :
    Respells fuel st m (report place cause >>= f) m' := by
  intro b d rest parts s a t hrun hreports hs
  exact absurd hreports (Sketch.reports_ne_nil hs.loud hrun)

theorem Spelled.take {b : Bool} {rest : List Word} {parts : List (Piece Draft)} {s : Sketch}
    (h : Spelled b st m s rest parts) (hsees : m'.Sees s.take.toReading)
    (hunblamed : m'.isBlamed = false) (hm' : m'.isFirst = false) (hs : s.rest ≠ [])
    (hhead : rest.head? = s.rest.head?) (d : Nat) : ∃ rest' parts',
      (s.beside d rest parts).take = s.take.beside d rest' parts' ∧
        Spelled b st m' s.take rest' parts' := by
  obtain ⟨w, ws, hw⟩ := List.exists_cons_of_ne_nil hs
  have hrest := h.rest
  have hsound := h.sound
  rw [hw] at hhead hrest hsound
  obtain ⟨ws', rfl, hws⟩ := hrest.tail_of_head? hhead
  rw [Sketch.take_eq hw] at hsees ⊢
  refine ⟨ws', .word w :: parts, ?_, ⟨hsees, hunblamed, h.loud, h.reports,
    fun v hv => hsound v (List.mem_cons_of_mem w hv), h.stops, hws, ?_, .word w h.parts,
    fun hst => ⟨(h.measured hst).1, Nat.le_succ_of_le (h.measured hst).2⟩⟩⟩
  · rw [Sketch.take_eq (s := s.beside d (w :: ws') parts) rfl]
    simp only [Sketch.beside, Nat.add_right_comm]
  · rw [hm']
    exact fun h => absurd h Bool.false_ne_true

theorem respells_take (hm' : m'.isFirst = false) (hm : m'.isBlamed → m.isBlamed)
    (hsees : ∀ s : Sketch, m.Sees s.toReading → m'.Sees s.take.toReading ∧ s.rest ≠ [])
    (hhead : ∀ {b rest parts} {s : Sketch}, Spelled b st m s rest parts →
      rest.head? = s.rest.head?) : Respells fuel st m take m' := by
  intro b d rest parts s u t hrun _ hs
  obtain rfl : t = s.take := run_act_iff.1 hrun
  obtain ⟨hsees, hne⟩ := hsees s hs.sees
  have hunblamed : m'.isBlamed = false :=
    Bool.eq_false_iff.2 fun h => Bool.false_ne_true (hs.unblamed.symm.trans (hm h))
  obtain ⟨rest', parts', htake, hs'⟩ := hs.take hsees hunblamed hm' hne (hhead hs) d
  exact ⟨rest', parts', run_act_iff.2 htake.symm, hs'⟩

theorem respells_listen (hm : m'.isBlamed = m.isBlamed ∧ m'.isFirst = m.isFirst)
    (hsees : ∀ s t : Reading, m.Sees s → t.rest = s.rest → m'.Sees t) :
    Respells fuel st m listen m' := by
  intro b d rest parts s u t hrun _ hs
  obtain rfl : t = s.perform .listen := run_act_iff.1 hrun
  refine ⟨rest, parts, rfl, hsees _ _ hs.sees rfl, hm.1.trans hs.unblamed, rfl, hs.reports, hs.sound,
    hs.stops, hs.rest, ?_, hs.parts, hs.measured⟩
  rw [hm.2]
  exact hs.head

theorem respells_collect {item : Script (Option β)} (h : Respells fuel st m item m) :
    Respells fuel st m (collect item) m := by
  intro b d rest parts s bs t hrun
  rw [run_collect_iff] at hrun
  simp only [run_collect_iff]
  refine repeatStep_induction (P := fun n (s : Sketch) bs (t : Sketch) => ∀ rest parts,
    t.reports = #[] → Spelled b st m s rest parts → ∃ rest' parts',
      repeatStep (item.run (runRule script fuel) fuel) n (s.beside d rest parts) =
        some (bs, t.beside d rest' parts') ∧ Spelled b st m t rest' parts') ?_ ?_ hrun rest parts
  · intro n s t hst rest parts hreports hs
    obtain ⟨rest', parts', ht, hs'⟩ := h b d rest parts s none t hst hreports hs
    refine ⟨rest', parts', ?_, hs'⟩
    rw [repeatStep, ht]
  · intro n s c u bs t hsu hut ih rest parts hreports hs
    have hclean := (Sketch.goesOn_of_rounds hut).reports_eq_nil hreports
    obtain ⟨rest', parts', hu, hs'⟩ := h b d rest parts s (some c) u hsu hclean hs
    obtain ⟨rest'', parts'', ht, hs''⟩ := ih rest' parts' hreports hs'
    refine ⟨rest'', parts'', ?_, hs''⟩
    simp only [repeatStep, hu, ht]

/-- Scripts follow the rules for single steps. -/
theorem respells_steps : StepRules fun st m x m' => Respells fuel st m x m' where
  pure := respells_pure
  bind := respells_bind
  weaken := respells_weaken
  idle {_ _ _ _ _ q f x} _ hf h := by
    intro b d rest parts s c t hrun
    rw [run_ask_bind, hf] at hrun
    simp only [run_ask_bind, hf]
    exact h b d rest parts s c t hrun
  onLine {_ _ l b _ _} hnone hsome := by
    refine respells_ask (fun o => o.elim (.live l b) (.seeing l b)) (fun hs => hs.onLine_eq _)
      (fun {_ _ _ s} hs => ?_) fun o => ?_
    · change Spelled _ _ (s.onLine.elim _ _) _ _ _
      cases ho : s.onLine with
      | none => exact hs
      | some k => exact { hs with sees := ho, unblamed := hs.unblamed, head := fun h => hs.head h }
    · cases o with
      | none => exact hnone
      | some k => exact hsome k
  onLine_seeing h := respells_known (fun hs => hs.onLine_eq _) (fun _ hm => hm) h
  current_seeing h := respells_known (fun hs => current_beside (hs.head_of_onLine hs.sees) _)
    (fun _ hm => Reading.current_of_onLine hm) h
  current_word h := respells_known (fun hs => current_beside (hs.head rfl) _) (fun _ hm => hm) h
  second_seeing h := respells_askAny
    (fun hs => hs.secondOnLine_eq (hs.head_of_onLine hs.sees) _) h
  second_word {_ _ b k _ _} hnone hsome := by
    refine respells_ask (fun o => o.elim (.word true b k) (.pair k))
      (fun hs => hs.secondOnLine_eq (hs.head rfl) _) (fun {_ _ _ s} hs => ?_) fun o => ?_
    · change Spelled _ _ (s.secondOnLine.elim _ _) _ _ _
      cases ho : s.secondOnLine with
      | none => exact hs
      | some k' => exact { hs with sees := ⟨hs.sees, ho⟩, unblamed := rfl, head := fun _ => hs.head rfl }
    · cases o with
      | none => exact hnone
      | some k' => exact hsome k'
  atStop _ _ := respells_blamed rfl
  tooDeep h := respells_askAny (fun _ => rfl) h
  take_word := respells_take rfl id (fun _ hm => ⟨trivial, Reading.ne_nil_of_current hm⟩)
    fun hs => hs.head rfl
  take_pair := respells_take rfl (fun h => absurd h Bool.false_ne_true)
    (fun _ hm => ⟨Sketch.onLine_take hm.2, Reading.ne_nil_of_current hm.1⟩) fun hs => hs.head rfl
  take_seeing _ := respells_take rfl id (fun _ hm => ⟨trivial, Reading.ne_nil_of_onLine hm⟩)
    fun hs => hs.head_of_onLine hs.sees
  report_live _ := by rw [← bind_pure (report _ _)]; exact respells_report
  report_seeing _ := by rw [← bind_pure (report _ _)]; exact respells_report
  report_word _ := by rw [← bind_pure (report _ _)]; exact respells_report
  listen_live := respells_listen ⟨rfl, rfl⟩ fun _ _ _ _ => trivial
  listen_word {_ s b k} := respells_listen ⟨rfl, rfl⟩
    fun _ _ hm hrest => Mode.Sees.of_rest (m := .word s b k) hm hrest
  collect := respells_collect

/-! ### Nodes -/

/-- What holds is about the words, the problems, the words that end a block, and the parts. -/
theorem Spelled.transfer {b c : Bool} {s t : Sketch} {ws : List Word} {ps qs : List (Piece Draft)}
    {st' : Stage} (h : Spelled b st m s ws ps)
    (hsame : t.rest = s.rest ∧ t.silenced = s.silenced ∧ t.reports = s.reports)
    (hstops : ∀ kinds ∈ t.frames, .kwElseIf ∈ kinds → .kwElse ∈ kinds)
    (hparts : Piece.Respelled c t.parts qs) (hmeasured : st' = .measured → t.Measuring) :
    Spelled c st' m t ws qs := by
  obtain ⟨hrest, hsilenced, hreports⟩ := hsame
  refine ⟨h.sees.of_rest hrest, h.unblamed, hsilenced.trans h.loud, hreports.trans h.reports, ?_,
    hstops, ?_, ?_, hparts, hmeasured⟩
  · rw [hrest]
    exact h.sound
  · rw [hrest]
    exact h.rest
  · rw [hrest]
    exact h.head

theorem respells_node {kind : NodeKind} {x : Script α} (h : Respells fuel st.inside m x m') :
    Respells fuel st m (node kind x) m' := by
  intro b d rest parts s a t hrun hreports hs
  obtain ⟨u, hu, rfl⟩ := run_within_iff.1 hrun
  have hinside : st.inside = .measured → st = .measured := by cases st <;> simp [Stage.inside]
  have hstage : st = .measured → st.inside = .measured := by rintro rfl; rfl
  have hfresh : Spelled false st.inside m s.fresh rest [] :=
    hs.transfer ⟨rfl, rfl, rfl⟩ hs.stops .nil fun hst => hs.measured (hinside hst)
  obtain ⟨rest', parts', hu', hs'⟩ := h false d rest [] _ a u hu hreports hfresh
  have hnode : (Draft.node kind u.parts.reverse).Respelled (.node kind parts'.reverse) :=
    hs'.parts.draft_node fun h => absurd h Bool.false_ne_true
  exact ⟨rest', .node (.node kind parts'.reverse) :: parts,
    run_within_iff.2 ⟨u.beside d rest' parts', hu', rfl⟩,
    hs'.transfer ⟨rfl, rfl, rfl⟩ hs'.stops (.node hnode hs.parts) fun hst => hs'.measured (hstage hst)⟩

theorem respells_wrap {kind : NodeKind} {x : Script α} (h : Respells fuel .inner m x m')
    (hst : st ≠ .measured) : Respells fuel st m (wrap kind x) m' := by
  intro b d rest parts s a t hrun hreports hs
  obtain ⟨u, hu, rfl⟩ := run_within_iff.1 hrun
  have hfresh : Spelled false .inner m s.fresh rest [] :=
    hs.transfer ⟨rfl, rfl, rfl⟩ hs.stops .nil Stage.noConfusion
  obtain ⟨rest', parts', hu', hs'⟩ := h false d rest [] _ a u hu hreports hfresh
  exact ⟨rest', Sketch.putAround kind parts' parts,
    run_within_iff.2 ⟨u.beside d rest' parts', hu', rfl⟩,
    hs'.transfer ⟨rfl, rfl, rfl⟩ hs'.stops (hs.parts.putAround hs'.parts kind) fun h => absurd h hst⟩

/-! ### Stretches that are no nodes -/

theorem respells_nested {x : Script α} (h : Respells fuel st m x m') :
    Respells fuel st m (within .nested x) m' := by
  intro b d rest parts s a t hrun hreports hs
  obtain ⟨u, hu, rfl⟩ := run_within_iff.1 hrun
  obtain ⟨rest', parts', hu', hs'⟩ := h b d rest parts _ a u hu hreports
    (hs.transfer ⟨rfl, rfl, rfl⟩ hs.stops hs.parts hs.measured)
  exact ⟨rest', parts', run_within_iff.2 ⟨u.beside d rest' parts', hu', rfl⟩,
    hs'.transfer ⟨rfl, rfl, rfl⟩ hs'.stops hs'.parts hs'.measured⟩

/-- In a measured stretch both spellings take the same number of words. -/
theorem respells_measured {x : Script α} (h : Respells fuel .measured m x m') :
    Respells fuel .inner m (within .measured x) m' := by
  intro b d rest parts s a t hrun hreports hs
  obtain ⟨u, hu, rfl⟩ := run_within_iff.1 hrun
  obtain ⟨rest', parts', hu', hs'⟩ := h b d rest parts _ a u hu hreports
    (hs.transfer ⟨rfl, rfl, rfl⟩ hs.stops hs.parts fun _ => ⟨List.cons_ne_nil _ _, Nat.le_refl _⟩)
  refine ⟨rest', parts', run_within_iff.2 ⟨u.beside d rest' parts', hu', ?_⟩,
    hs'.transfer ⟨rfl, rfl, rfl⟩ hs'.stops hs'.parts Stage.noConfusion⟩
  have htail : (u.origins.map (· + d)).tail = u.origins.tail.map (· + d) := List.map_tail.symm
  exact congrArg (fun os => { u.beside d rest' parts' with origins := os }) htail.symm

/-- Only a measured stretch asks how many words have been taken in it. -/
theorem Respells.toMeasured {x : Script α} (h : Respells fuel .inner m x m') :
    Respells fuel .measured m x m' := by
  intro b d rest parts s a t hrun hreports hs
  obtain ⟨rest', parts', ht, hs'⟩ := h b d rest parts s a t hrun hreports
    { hs with measured := Stage.noConfusion }
  exact ⟨rest', parts', ht,
    { hs' with measured := fun _ => (Sketch.goesOn_of_run hrun).measuring (hs.measured rfl) }⟩

/-- Outside measured stretches it does not matter whether a node is open. -/
theorem Respells.toOuter {x : Script α} (h : Respells fuel .inner m x m') :
    Respells fuel .outer m x m' := by
  intro b d rest parts s a t hrun hreports hs
  obtain ⟨rest', parts', ht, hs'⟩ := h b d rest parts s a t hrun hreports
    { hs with measured := Stage.noConfusion }
  exact ⟨rest', parts', ht, { hs' with measured := Stage.noConfusion }⟩

/-! ### Lines -/

/-- Where a line has words left that fit nowhere, there is a problem. -/
theorem respells_lineEnd : Respells fuel st (.live l b) lineEnd (.live true b) := by
  have hlisten : Respells fuel st (.live l b) listen (.live true b) := respells_steps.listen_live
  unfold lineEnd statementEnds
  simp only [LawfulMonad.bind_assoc]
  refine respells_steps.onLine hlisten fun k => ?_
  refine respells_askAny (fun hs => atStop_beside (hs.head_of_onLine hs.sees) _) fun stop => ?_
  cases stop with
  | true => exact respells_steps.unsee hlisten
  | false =>
    -- The rest of the line is skipped, with a report unless it starts with a lexical problem.
    refine respells_known (fun hs => current_beside (hs.head_of_onLine hs.sees) _)
      (fun _ hm => Reading.current_of_onLine hm) ?_
    by_cases hk : k = .error
    · intro c d rest parts s a t _ _ hs
      obtain ⟨w, ws, hrest, hkind⟩ := Reading.exists_rest (Reading.current_of_onLine hs.sees)
      refine absurd (hkind.trans hk) (hs.sound w ?_)
      rw [hrest]
      exact List.mem_cons_self
    · split
      · next hnone => cases hnone
      · next herror => exact absurd (Option.some.inj herror) hk
      · exact respells_report

/-- Scripts follow the rules for lines, if calls of expressions do. -/
theorem respells_lineRules (hexpression : ∀ {l b : Bool} power,
    Respells fuel .inner (.live l b) (expressionFrom power) (.live false b)) :
    LineRules fun st m x m' => Respells fuel st m x m' where
  toStepRules := respells_steps
  measured_of_inner h := h.toMeasured
  here h := respells_askAny (fun {_ d _ _ s} hs => by
    change (if (s.beside d _ _).onLine.isSome then _ else _) = if s.onLine.isSome then _ else _
    rw [hs.onLine_eq, hs.measuredWords_eq]) h
  behind h := respells_askAny (fun hs => congrArg Edge.endOf (hs.measuredWords_eq _)) h
  node _ := respells_node
  number h := (respells_node h : Respells fuel .inner _ (oneWord .numberLiteral) _)
  wrap h := respells_wrap h Stage.noConfusion
  wrapped hx hy := respells_bind hx fun _ => respells_wrap hy Stage.noConfusion
  nested := respells_nested
  measured := respells_measured
  error _ := by
    intro b d rest parts s a t _ _ hs
    obtain ⟨w, ws, hrest, hkind⟩ := Reading.exists_rest hs.sees
    refine absurd hkind (hs.sound w ?_)
    rw [hrest]
    exact List.mem_cons_self
  expression := hexpression
  lineEnd := respells_lineEnd

theorem respells_operationRules (hexpression : ∀ {l b : Bool} power,
    Respells fuel .inner (.live l b) (expressionFrom power) (.live false b)) :
    OperationRules fun st m x m' => Respells fuel st m x m' where
  toLineRules := respells_lineRules hexpression
  unary h := respells_node h
  binary hk :=
    respells_wrap (walk_operation (respells_lineRules hexpression) hk) Stage.noConfusion
  skipDeepExpression := respells_report

/-- A call of a rule runs where the script of the rule runs on less fuel. -/
theorem respells_call {rule : Rule} (h : Respells fuel st m (script rule) m') :
    Respells (fuel + 1) st m (.call rule .done) m' := by
  intro b d rest parts s u t hrun hreports hs
  obtain ⟨rest', parts', ht, hs'⟩ :=
    h b d rest parts s () t (run_of_runRule (run_call_iff.1 hrun)) hreports hs
  refine ⟨rest', parts', run_call_iff.2 ?_, hs'⟩
  rw [runRule, ht]

theorem respells_callOfNone {rule : Rule} : Respells 0 st m (.call rule .done) m' := by
  intro b d rest parts s u t hrun
  cases run_call_iff.1 hrun

theorem respells_expression (power : Nat) :
    Respells fuel .inner (.live l b) (expressionFrom power) (.live false b) := by
  induction fuel generalizing l b power with
  | zero => exact respells_callOfNone
  | succ fuel ih =>
    exact respells_call (walk_expressionRule (respells_operationRules fun power => ih power) power)

/-- Scripts that stand on one line run in either spelling. -/
theorem respells_lines : LineRules fun st m x m' => Respells fuel st m x m' :=
  respells_lineRules fun power => respells_expression power

theorem respells_texts : TextRules fun st m x m' => Respells fuel st m x m' where
  toLineRules := respells_lines
  text := respells_askAny fun hs => text_beside (hs.head_of_onLine hs.sees) _

/-! ### Problems between edges of a line -/

theorem respells_instructionArguments (instruction : TokenKind) (least most : Nat) :
    Respells fuel .measured (.live true b) (instructionArguments instruction least most)
      (.live false b) := by
  have hlines : LineRules fun st m x m' => Respells fuel st m x m' := respells_lines
  refine hlines.ifOnLine ?_ respells_report
  refine hlines.bind (walk_argumentList hlines) fun args => ?_
  dsimp only
  split
  · exact hlines.pure args.items
  · exact respells_report

theorem respells_tableArguments (instruction : TokenKind) (least most : Nat) :
    Respells fuel .inner (.live true b)
      (within .measured do let _ ← instructionArguments instruction least most) (.live false b) :=
  respells_measured (respells_bind (respells_instructionArguments _ _ _) fun _ => respells_pure ())

theorem respells_scanArguments (instruction : TokenKind) (least most : Nat) :
    Respells fuel .inner (.live true b) (scanArguments instruction least most) (.live false b) := by
  refine respells_measured (respells_bind (respells_instructionArguments _ _ _) fun args => ?_)
  unfold checkScanUnits
  split
  · next units _ =>
    rw [← bind_pure (report _ _)]
    split
    · exact respells_pure ()
    · exact respells_report
  · exact respells_pure ()

theorem respells_closingVariable (name? : Option (List Char)) :
    Respells fuel .inner (.live true b) (closingVariable name?) (.live false b) := by
  have hlines : LineRules fun st m x m' => Respells fuel st m x m' := respells_lines
  refine hlines.ifOnLine ?_ (hlines.post .quiet (hlines.pure ()))
  have hname : Respells fuel .measured (.seeing true b .ident) nameReference (.live false b) :=
    hlines.measured_of_inner (walk_nameReference hlines (hlines.take_seeing (.inr rfl)))
  refine respells_measured (respells_texts.text fun closing => respells_bind hname fun _ => ?_)
  cases name? with
  | none => exact respells_pure ()
  | some name =>
    dsimp only
    rw [← bind_pure (report _ _)]
    split
    · exact respells_pure ()
    · exact respells_report

/-- The line that opens a block, from the opening word on. -/
theorem respells_head (form : BlockForm) :
    Respells fuel .inner (.live true b) form.head (.live false b) :=
  BlockForm.walk_head respells_texts respells_scanArguments respells_tableArguments form

end Rules

end Grammar

end CRBasic
