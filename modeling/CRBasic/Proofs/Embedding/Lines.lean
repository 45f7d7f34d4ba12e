import CRBasic.Proofs.Embedding.Alike
import CRBasic.Proofs.Grammar.Walk

/-!
# Lines in a larger text

Everything that stands on one line is alike in a text and in a larger one (`alike_lines`).  Where the
nesting is too deep, the rest of a line is skipped and problems are passed over; so ends of lines are
looked at word by word.
-/

namespace CRBasic

namespace Grammar

open Parsing Parsing.Script

section Rules

variable {c : Setting} {total : Nat} {Lost : Sketch → Prop} {fuel : Nat} {α β : Type} {st : Stage}
  {m m' m'' : Mode} {l b : Bool} {k : TokenKind} {s t : Sketch}

/-! ### Ends of lines -/

/-- The next word cannot belong to the statement. -/
def AtEnd (s : Sketch) : Prop := s.onLine = none ∨ s.atStop

theorem run_statementEnds {call : Rule → Sketch → Option Sketch} {f : Bool → Script α} :
    (statementEnds >>= f).run call fuel s =
      (f (s.onLine.isNone || s.atStop)).run call fuel s := by
  rw [statementEnds, LawfulMonad.bind_assoc, onLine, run_ask_bind, answer_onLine]
  cases s.onLine with
  | none => rfl
  | some k => rfl

theorem atEnd_iff : AtEnd s ↔ (s.onLine.isNone || s.atStop) = true := by
  rw [AtEnd, Bool.or_eq_true, Option.isNone_iff_eq_none]

theorem run_statementEnds_of_atEnd {call : Rule → Sketch → Option Sketch} {f : Bool → Script α}
    (h : AtEnd s) : (statementEnds >>= f).run call fuel s = (f true).run call fuel s := by
  rw [run_statementEnds, atEnd_iff.1 h]

theorem run_statementEnds_of_not {call : Rule → Sketch → Option Sketch} {f : Bool → Script α}
    (h : ¬ AtEnd s) : (statementEnds >>= f).run call fuel s = (f false).run call fuel s := by
  rw [run_statementEnds, Bool.eq_false_iff.2 ((not_congr atEnd_iff).1 h)]

theorem exists_onLine (h : ¬ AtEnd s) : ∃ k, s.onLine = some k ∧ s.atStop = false := by
  rw [AtEnd, not_or, Bool.not_eq_true] at h
  obtain ⟨k, hk⟩ := Option.ne_none_iff_exists'.1 h.1
  exact ⟨k, hk, h.2⟩

theorem AtEnd.embed (before : List (Piece Draft)) (h : AtEnd s) : AtEnd (c.embed before s) := by
  refine h.imp (fun h => by rwa [Setting.onLine_embed]) fun h => ?_
  obtain ⟨k, hk, -⟩ := (Option.any_eq_true _ _).1 h
  rw [Setting.atStop_embed (Reading.ne_nil_of_current hk), h, Bool.true_or]

/-- Where no block is open around the text, statements end alike. -/
theorem atEnd_embed_iff (hframes : c.frames = []) {before : List (Piece Draft)} :
    AtEnd (c.embed before s) ↔ AtEnd s := by
  refine ⟨fun h => ?_, .embed before⟩
  rw [AtEnd, Setting.onLine_embed] at h
  cases hs : s.onLine with
  | none => exact .inl hs
  | some k =>
    rw [Setting.atStop_embed_of_nil hframes (Reading.ne_nil_of_onLine hs), hs] at h
    exact .inr (h.resolve_left nofun)

theorem alike_statementEnds {f : Bool → Script α} (hframes : c.frames = [])
    (hend : Alike c total Lost fuel st (.live l b) (f true) m)
    (hmore : ∀ k, Alike c total Lost fuel st (.seeing true b k) (f false) m) :
    Alike c total Lost fuel st (.live l b) (statementEnds >>= f) m := by
  intro before s a t hbefore hrun
  by_cases h : AtEnd s
  · rw [run_statementEnds_of_atEnd h] at hrun
    rw [run_statementEnds_of_atEnd (h.embed before)]
    exact hend before s a t hbefore hrun
  · rw [run_statementEnds_of_not h] at hrun
    rw [run_statementEnds_of_not ((not_congr (atEnd_embed_iff hframes)).2 h)]
    obtain ⟨k, hk, hstop⟩ := exists_onLine h
    obtain ⟨hgone, hholds⟩ := hmore k before s a t hbefore hrun
    refine ⟨fun hs => hgone (.inl (hs.lost nofun)), fun hs => hholds ?_⟩
    have hloud : s.silenced = false := Bool.eq_false_iff.2 fun hsilenced => h (hs.settled hsilenced)
    exact { hs with sees := hk, loud := fun _ => hloud }

/-- A round of taking what is left of a line. -/
def takeRound : Script (Option Unit) := do
  if ← (do return !(← statementEnds)) then
    take
    return some ()
  else return none

theorem run_takeRound_of_atEnd {call : Rule → Sketch → Option Sketch} (h : AtEnd s) :
    takeRound.run call fuel s = some (none, s) := by
  rw [takeRound, LawfulMonad.bind_assoc, run_statementEnds_of_atEnd h]
  rfl

theorem run_takeRound_of_not {call : Rule → Sketch → Option Sketch} (h : ¬ AtEnd s) :
    takeRound.run call fuel s = some (some (), s.take) := by
  rw [takeRound, LawfulMonad.bind_assoc, run_statementEnds_of_not h]
  rfl

/-- What is left of a line is taken alike where no block is open around the text. -/
theorem takeLine_embed (hframes : c.frames = []) (before : List (Piece Draft)) {u : Unit}
    (hrun : takeLine.run (runRule script fuel) fuel s = some (u, t)) :
    takeLine.run (runRule script fuel) fuel (c.embed before s) = some (u, c.embed before t) ∧
      AtEnd t ∧ t.reports = s.reports ∧ t.silenced = s.silenced := by
  have hrun : (collect takeRound >>= fun _ => pure ()).run (runRule script fuel) fuel s =
    some (u, t) := hrun
  obtain ⟨us, v, hv, hdone⟩ := run_bind_iff.1 hrun
  obtain ⟨-, rfl⟩ := run_pure_iff.1 hdone
  rw [run_collect_iff] at hv
  have hloop := repeatStep_induction (P := fun n (s : Sketch) us (t : Sketch) =>
    repeatStep (takeRound.run (runRule script fuel) fuel) n (c.embed before s) =
        some (us, c.embed before t) ∧
      AtEnd t ∧ t.reports = s.reports ∧ t.silenced = s.silenced) ?_ ?_ hv
  · exact ⟨run_bind_iff.2 ⟨us, _, run_collect_iff.2 hloop.1, rfl⟩, hloop.2⟩
  · intro n s t hst
    by_cases h : AtEnd s
    · rw [run_takeRound_of_atEnd h] at hst
      cases hst
      rw [repeatStep, run_takeRound_of_atEnd (h.embed before)]
      exact ⟨rfl, h, rfl, rfl⟩
    · rw [run_takeRound_of_not h] at hst
      cases hst
  · rintro n s b u bs t hsu - ⟨ht, hend, hreports, hsilenced⟩
    by_cases h : AtEnd s
    · rw [run_takeRound_of_atEnd h] at hsu
      cases hsu
    · rw [run_takeRound_of_not h] at hsu
      cases hsu
      obtain ⟨k, hk, -⟩ := exists_onLine h
      obtain ⟨w, ws, hrest, -⟩ := rest_of_onLine hk
      have hround : takeRound.run (runRule script fuel) fuel (c.embed before s) =
          some (some (), (c.embed before s).take) :=
        run_takeRound_of_not ((not_congr (atEnd_embed_iff hframes)).2 h)
      rw [Setting.take_embed (Reading.ne_nil_of_onLine hk)] at hround
      rw [Sketch.take_eq hrest] at hreports hsilenced
      simp only [repeatStep, hround, ht]
      exact ⟨trivial, hend, hreports, hsilenced⟩

theorem alike_takeLine (hlost : Losing c Lost) (hframes : c.frames = []) :
    Alike c total Lost fuel st (.live true b) takeLine (.live true b) := by
  intro before s u t _ hrun
  refine ⟨fun hs => .inl (hlost.kept hrun (hs.lost nofun)), fun hs => .inr ?_⟩
  obtain ⟨ht, hend, hreports, hsilenced⟩ := takeLine_embed hframes before hrun
  have hgoes := Sketch.goesOn_of_run hrun
  refine ⟨ht, trivial, fun _ => hsilenced.trans (hs.loud rfl), fun _ => hframes,
    fun _ => Nat.lt_of_lt_of_le (hs.started rfl) hgoes.taken_le, ?_, fun _ => hend,
    hgoes.taken.trans hs.count, ?_, fun h => absurd hframes h, ?_⟩
  · rw [isStop_of_frames hgoes.frames]
    exact hs.closers
  · rw [hreports]
    exact hs.placed
  · exact hgoes.measuring ∘ hs.measured

theorem alike_lineEnd_of_nil (hlost : Losing c Lost) (hframes : c.frames = []) :
    Alike c total Lost fuel st (.live l b) lineEnd (.live true b) := by
  have hlisten {l b' : Bool} (hb : b → b') :
      Alike c total Lost fuel st (.live l b') listen (.live true b) :=
    alike_listen hlost nofun ⟨hb, id⟩ fun _ _ _ _ => trivial
  have hskip {b' : Bool} (hb : b → b') : Alike c total Lost fuel st (.live true b')
      (do node .errorNode takeLine; listen) (.live true b) :=
    alike_bind (alike_node hlost (alike_takeLine hlost hframes)) fun _ => hlisten hb
  refine alike_statementEnds hframes (hlisten id) fun k => ?_
  refine alike_known (a := some k) (fun before s hs => ?_) nofun hlost ?_
  · have hk : s.onLine = some k := hs.sees
    exact ⟨(Setting.current_embed (Reading.ne_nil_of_onLine hk)).trans (Reading.current_of_onLine hk),
      Reading.current_of_onLine hk⟩
  · split
    · exact alike_weaken (.seen id id) (.refl _) (hskip id)
    · exact alike_weaken (.seen id id) (.refl _) (hskip id)
    · next found _ _ =>
      have hreport : Alike c total Lost fuel st (.seeing true b k)
          (report .here (.trailing found)) (.live true true) :=
        alike_report hlost nofun (fun s hs => .inl ⟨rfl, hs.started rfl⟩) ⟨rfl, rfl⟩
          fun _ _ _ _ => trivial
      exact alike_bind hreport fun _ => hskip fun _ => rfl

/-- What is left of a line is reported. -/
theorem exists_trailing {call : Rule → Sketch → Option Sketch} {u : Unit} (h : ¬ AtEnd s)
    (herror : ∀ k, s.current = some k → k ≠ .error) (hrun : lineEnd.run call fuel s = some (u, t)) :
    ∃ k, ∃ x : Script Unit,
      x.run call fuel (s.perform (.report .here (.trailing k))) = some (u, t) := by
  obtain ⟨k, hk, -⟩ := exists_onLine h
  have hcurrent := Reading.current_of_onLine hk
  rw [lineEnd, run_statementEnds_of_not h] at hrun
  change (current >>= fun o => _).run _ _ s = _ at hrun
  rw [current, run_ask_bind, answer_current, hcurrent] at hrun
  split at hrun
  · next heq => cases heq
  · next heq => exact absurd (Option.some.inj heq) (herror k hcurrent)
  · exact ⟨_, _, hrun⟩

/-- A line of a text inside blocks of the larger text ends without a problem, or is lost. -/
theorem alike_lineEnd_of_ne (hlost : Losing c Lost) (hframes : c.frames ≠ []) :
    Alike c total Lost fuel st (.live l b) lineEnd (.live true b) := by
  intro before s u t hbefore hrun
  refine ⟨fun hs => .inl (hlost.kept hrun (hs.lost nofun)), fun hs => ?_⟩
  by_cases h : AtEnd s
  · have hlisten : Alike c total Lost fuel st (.live l b) listen (.live true b) :=
      alike_listen hlost nofun ⟨id, id⟩ fun _ _ _ _ => trivial
    rw [lineEnd, run_statementEnds_of_atEnd h] at hrun
    rw [lineEnd, run_statementEnds_of_atEnd (h.embed before)]
    exact (hlisten before s u t hbefore hrun).2 hs
  · have herror (k : TokenKind) (hk : s.current = some k) : k ≠ .error := by
      obtain ⟨w, ws, hrest, rfl⟩ := Reading.exists_rest hk
      exact (hs.clean hframes).2.2 w (by rw [hrest]; exact List.mem_cons_self)
    obtain ⟨k, x, hx⟩ := exists_trailing h herror hrun
    exact .inl (.inl (hlost.kept hx (hs.lost_report hlost hframes)))

theorem alike_lineEnd (hlost : Losing c Lost) :
    Alike c total Lost fuel st (.live l b) lineEnd (.live true b) := by
  by_cases hframes : c.frames = []
  · exact alike_lineEnd_of_nil hlost hframes
  · exact alike_lineEnd_of_ne hlost hframes

theorem alike_skipDeepExpression (hlost : Losing c Lost) :
    Alike c total Lost fuel .inner (.live l b) skipDeepExpression (.live false b) := by
  intro before s u t hbefore hrun
  refine ⟨fun hs => .inl (hlost.kept hrun (hs.lost nofun)), fun hs => ?_⟩
  have hreport : Alike c total Lost fuel .inner (.live l b) (report .here .nestingTooDeep)
      (.live l true) :=
    alike_report hlost nofun (fun s hs => .inl ⟨rfl, hs.started rfl⟩) ⟨rfl, rfl⟩
      fun _ _ _ _ => trivial
  obtain ⟨_, v, hv, hnode⟩ := run_bind_iff.1 hrun
  rcases (hreport before s _ v hbefore hv).2 hs with h | ⟨hv', h⟩
  · exact .inl (.inl (hlost.kept hnode (h.lost nofun)))
  · -- Inside the node problems are passed over before the end of the line.
    have hframes := h.blamed rfl
    obtain ⟨w, hw, rfl⟩ := run_within_iff.1 hnode
    obtain ⟨_, w', hw', htake⟩ := run_bind_iff.1 hw
    obtain rfl := run_act_iff.1 hw'
    obtain ⟨ht, hend, hreports, hsilenced⟩ := takeLine_embed hframes [] htake
    have hgoes := Sketch.goesOn_of_run htake
    refine .inr ⟨run_bind_iff.2 ⟨(), _, hv', run_within_iff.2 ⟨c.embed [] w, ?_, ?_⟩⟩, ?_⟩
    · exact run_bind_iff.2 ⟨(), _, run_act_iff.2 rfl, ht⟩
    · exact Setting.node_embed.symm
    · refine ⟨trivial, nofun, fun _ => hframes,
        fun _ => Nat.lt_of_lt_of_le (h.started rfl) hgoes.taken_le, ?_, fun _ => hend,
        hgoes.taken.trans h.count, ?_, fun hne => absurd hframes hne, nofun⟩
      · change ∀ k, w.toReading.isStop k → k.closes
        rw [isStop_of_frames hgoes.frames]
        exact h.closers
      · change ∀ r ∈ w.reports, _
        rw [hreports]
        exact h.placed

/-! ### Rules -/

/-- What stands on a line is alike, if calls of expressions are. -/
theorem alike_lineRules (hlost : Losing c Lost) (hexpression : ∀ {l b : Bool} power,
    Alike c total Lost fuel .inner (.live l b) (expressionFrom power) (.live false b)) :
    LineRules fun st m x m' => Alike c total Lost fuel st m x m' where
  pure := alike_pure
  bind := alike_bind
  weaken := alike_weaken
  measured_of_inner {_ _ _ x} h := by
    intro before s a t hbefore hrun
    obtain ⟨hgone, hholds⟩ := h before s a t (fun _ => hbefore (by decide)) hrun
    refine ⟨hgone, fun hs => (hholds { hs with measured := by simp }).imp_right fun h => ⟨h.1, ?_⟩⟩
    exact { h.2 with measured := (Sketch.goesOn_of_run hrun).measuring ∘ hs.measured }
  idle {_ _ st m m' q f x} _ hf h := by
    intro before s a t hbefore hrun
    rw [run_ask_bind, hf] at hrun ⊢
    exact h before s a t hbefore hrun
  onLine {_ st l b m f} hnone hsome := by
    refine alike_ask (fun o => o.elim (.live l b) (.seeing l b)) (fun _ h => absurd h Mode.live_ne_body)
      (fun before s _ => Setting.onLine_embed) (fun s hs => ?_) fun o => ?_
    · change Holds c total st (s.onLine.elim _ _) s
      cases h : s.onLine with
      | none => exact hs
      | some k => exact { hs with sees := h }
    · cases o with
      | none => exact hnone
      | some k => exact hsome k
  onLine_seeing h := alike_known
    (fun before s hs => ⟨Setting.onLine_embed.trans hs.sees, hs.sees⟩) Mode.seeing_ne_body hlost h
  current_seeing h := alike_known
    (fun before s hs => ⟨(Setting.current_embed (Reading.ne_nil_of_onLine hs.sees)).trans
      (Reading.current_of_onLine hs.sees), Reading.current_of_onLine hs.sees⟩)
      Mode.seeing_ne_body hlost h
  current_word h := alike_known
    (fun before s hs => ⟨(Setting.current_embed (Reading.ne_nil_of_current hs.sees)).trans hs.sees,
      hs.sees⟩) Mode.word_ne_body hlost h
  second_seeing h := alike_askAny
    (fun before s hs => Setting.secondOnLine_embed (Reading.ne_nil_of_onLine hs.sees)) h
  second_word {_ st b k m f} hnone hsome := by
    refine alike_ask (fun o => o.elim (.word true b k) (.pair k)) (fun _ h => absurd h Mode.word_ne_body)
      (fun before s hs => Setting.secondOnLine_embed (Reading.ne_nil_of_current hs.sees)) (fun s hs => ?_)
      fun o => ?_
    · change Holds c total st (s.secondOnLine.elim _ _) s
      cases h : s.secondOnLine with
      | none => exact hs
      | some k' => exact { hs with sees := ⟨hs.sees, h⟩, blamed := Bool.noConfusion }
    · cases o with
      | none => exact hnone
      | some k' => exact hsome k'
  atStop {_ st l k m f} htrue hfalse := by
    refine alike_ask (fun stop => .seeing (l || !stop) true k) (fun _ h => absurd h Mode.seeing_ne_body)
      (fun before s hs => Setting.atStop_embed_of_nil (hs.blamed rfl) (Reading.ne_nil_of_onLine hs.sees))
      (fun s hs => ?_) fun stop => ?_
    · change Holds c total st (.seeing (l || !s.atStop) true k) s
      refine { hs with loud := fun hl => ?_ }
      have hl : l = true ∨ s.atStop = false := by simpa [Mode.isLoud] using hl
      rcases hl with rfl | hstop
      · exact hs.loud rfl
      · have hk : s.onLine = some k := hs.sees
        refine Bool.eq_false_iff.2 fun hsilenced => ?_
        have := hs.settled hsilenced
        simp [hk, hstop] at this
    · cases stop with
      | true => simpa using htrue
      | false => simpa using hfalse
  tooDeep h := alike_askAny (fun before s _ => Setting.tooDeep_embed) h
  here h := alike_askAny (fun before s hs => by
    change (if (c.embed before s).onLine.isSome then Edge.startAfter _ else Edge.endOf _) = _
    rw [Setting.onLine_embed, Setting.measuredWords_embed (hs.measured rfl).1]
    rfl) h
  behind h := alike_askAny (fun before s hs => by
    change Edge.endOf _ = _
    rw [Setting.measuredWords_embed (hs.measured rfl).1]
    rfl) h
  take_word := alike_take hlost Mode.word_ne_body (fun s hs => Reading.ne_nil_of_current hs.sees)
    (fun s hs => hs.loud rfl) (fun _ _ => trivial) id
  take_pair := alike_take hlost Mode.pair_ne_body (fun s hs => Reading.ne_nil_of_current hs.sees.1)
    (fun s hs => hs.loud rfl) (fun s hs => Sketch.onLine_take hs.sees.2) Bool.noConfusion
  take_seeing hk := alike_take hlost Mode.seeing_ne_body (fun s hs => Reading.ne_nil_of_onLine hs.sees)
    (fun s hs => hs.silenced_eq hk) (fun _ _ => trivial) id
  report_live _ := alike_report hlost Mode.live_ne_body (fun s hs => .inl ⟨rfl, hs.started rfl⟩) ⟨rfl, rfl⟩
    fun _ _ _ _ => trivial
  report_seeing _ := alike_report hlost Mode.seeing_ne_body (fun s hs => .inl ⟨rfl, hs.started rfl⟩) ⟨rfl, rfl⟩
    fun _ _ h hrest => Mode.Sees.of_rest (m := .seeing _ _ _) h hrest
  report_word _ := alike_report hlost Mode.word_ne_body
    (fun s hs => .inr ⟨rfl, Reading.ne_nil_of_current hs.sees⟩) ⟨rfl, rfl⟩
    fun _ _ h hrest => Mode.Sees.of_rest (m := .word _ _ _) h hrest
  listen_live := alike_listen hlost Mode.live_ne_body ⟨id, id⟩ fun _ _ _ _ => trivial
  listen_word := alike_listen hlost Mode.word_ne_body ⟨id, id⟩
    fun _ _ h hrest => Mode.Sees.of_rest (m := .word _ _ _) h hrest
  node _ h := alike_node hlost h
  number h := alike_node hlost h
  wrap h := alike_wrap hlost h
  wrapped := alike_wrapped hlost
  nested := alike_nested hlost
  measured := alike_measured hlost
  collect := alike_collect
  error {_ st s b m x} h := by
    intro before v a t hbefore hrun
    obtain ⟨hgone, hholds⟩ := h before v a t hbefore hrun
    refine ⟨fun hs => hgone (.inl (hs.lost Mode.word_ne_body)), fun hs => hholds { hs with blamed := fun _ => ?_ }⟩
    obtain ⟨w, ws, hrest, hw⟩ := Reading.exists_rest hs.sees
    exact Classical.byContradiction fun hframes =>
      (hs.clean hframes).2.2 w (by rw [hrest]; exact List.mem_cons_self) hw
  expression := hexpression
  lineEnd := alike_lineEnd hlost

theorem alike_operationRules (hlost : Losing c Lost) (hexpression : ∀ {l b : Bool} power,
    Alike c total Lost fuel .inner (.live l b) (expressionFrom power) (.live false b)) :
    OperationRules fun st m x m' => Alike c total Lost fuel st m x m' where
  toLineRules := alike_lineRules hlost hexpression
  unary h := alike_node hlost h
  binary hk := alike_wrap hlost (walk_operation (alike_lineRules hlost hexpression) hk)
  skipDeepExpression := alike_skipDeepExpression hlost

/-- A rule is called alike if its script is alike on less fuel. -/
theorem alike_call {rule : Rule} (h : Alike c total Lost fuel st m (script rule) m') :
    Alike c total Lost (fuel + 1) st m (.call rule .done) m' := by
  intro before s u t hbefore hrun
  have hrun := run_of_runRule (run_call_iff.1 hrun)
  obtain ⟨hgone, hholds⟩ := h before s () t hbefore hrun
  refine ⟨hgone, fun hs => (hholds hs).imp_right fun ⟨ht, h⟩ => ⟨?_, h⟩⟩
  refine run_call_iff.2 ?_
  rw [runRule, ht]

theorem alike_callOfNone {rule : Rule} : Alike c total Lost 0 st m (.call rule .done) m' := by
  intro before s u t _ hrun
  cases run_call_iff.1 hrun

/-- Expressions are alike. -/
theorem alike_expression (hlost : Losing c Lost) (power : Nat) :
    Alike c total Lost fuel .inner (.live l b) (expressionFrom power) (.live false b) := by
  induction fuel generalizing l b power with
  | zero => exact alike_callOfNone
  | succ fuel ih =>
    exact alike_call (walk_expressionRule (alike_operationRules hlost fun power => ih power) power)

/-- Everything that stands on one line is alike. -/
theorem alike_lines (hlost : Losing c Lost) :
    LineRules fun st m x m' => Alike c total Lost fuel st m x m' :=
  alike_lineRules hlost fun power => alike_expression hlost power

theorem alike_texts (hlost : Losing c Lost) :
    TextRules fun st m x m' => Alike c total Lost fuel st m x m' where
  toLineRules := alike_lines hlost
  text h := alike_askAny (fun _ _ hs => Setting.text_embed (Reading.ne_nil_of_onLine hs.sees)) h

end Rules

end Grammar

end CRBasic
