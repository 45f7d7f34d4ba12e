import CRBasic.Proofs.Embedding.Setting

/-!
# Scripts in a text and in a larger one

A script is `Alike` in a text and in a larger one around it, if it takes the same steps on both as
long as nothing is lost.  What counts as lost is left open: problems that show the surroundings, such
as a block that the text does not end.  Scripts that are alike build up scripts that are.
-/

namespace CRBasic

/-- An edge lies at one of the first `total` words. -/
def Edge.Inside (total : Nat) : Edge → Prop
  | startAfter n => n < total
  | endOf n => 0 < n ∧ n ≤ total

/-- The cause is that a block has no terminator. -/
def Cause.isUnclosed : Cause → Bool
  | .unclosedBlock _ _ => true
  | _ => false

/-- A report lies at one of the first `total` words, or is about an unclosed block after them. -/
def Report.Placed (total : Nat) (r : Report) : Prop :=
  (r.start.Inside total ∧ r.stop.Inside total) ∨
    (r.cause.isUnclosed ∧ r.start = .startAfter total ∧ r.stop = .endOf (total + 1))

/-- A measured stretch is open, and has started at a word up to here. -/
def Parsing.Reading.Measuring (s : Parsing.Reading) : Prop :=
  s.origins ≠ [] ∧ s.origin ≤ s.taken

theorem Parsing.Reading.GoesOn.measuring {s t : Parsing.Reading} (h : s.GoesOn t)
    (hs : s.Measuring) : t.Measuring := by
  rw [Measuring, origin, h.origins]
  exact ⟨hs.1, Nat.le_trans hs.2 h.taken_le⟩

namespace Grammar

open Parsing Parsing.Script

namespace Mode

def isLoud : Mode → Bool
  | word _ _ _ | pair _ _ | body => true
  | live loud _ | seeing loud _ _ => loud

def isBlamed : Mode → Bool
  | word _ blamed _ | live _ blamed | seeing _ blamed _ => blamed
  | pair _ _ | body => false

def isStarted : Mode → Bool
  | word started _ _ => started
  | pair _ _ | live _ _ | seeing _ _ _ | body => true

theorem Le.flags {m m' : Mode} (h : m.Le m') :
    (m'.isLoud → m.isLoud) ∧ (m'.isBlamed → m.isBlamed) ∧ (m'.isStarted → m.isStarted) := by
  cases h <;> simp_all [isLoud, isBlamed, isStarted]

theorem Le.eq_body {m' : Mode} (h : Mode.body.Le m') : m' = .body := by
  cases h
  rfl

end Mode

/-- What holds of the sketches of a text of `total` words in a setting. -/
structure Holds (c : Setting) (total : Nat) (st : Stage) (m : Mode) (s : Sketch) : Prop where
  sees : m.Sees s.toReading
  loud : m.isLoud → s.silenced = false
  blamed : m.isBlamed → c.frames = []
  started : m.isStarted → 0 < s.taken
  closers : ∀ k, s.isStop k → k.closes
  /-- Problems are passed over only at the end of a line. -/
  settled : s.silenced → s.onLine = none ∨ s.atStop
  count : s.taken + s.rest.length = total
  placed : ∀ r ∈ s.reports, r.Placed total
  /-- Inside blocks of the larger text there are no problems. -/
  clean : c.frames ≠ [] → s.silenced = false ∧ s.reports = #[] ∧ ∀ w ∈ s.rest, w.kind ≠ .error
  measured : st = .measured → s.Measuring

/-- Nothing is lost of what is lost, and problems inside blocks of the larger text are lost. -/
structure Losing (c : Setting) (Lost : Sketch → Prop) : Prop where
  kept {α : Type} {x : Script α} {fuel : Nat} {s t : Sketch} {a : α}
    (hrun : x.run (runRule script fuel) fuel s = some (a, t)) (hs : Lost s) : Lost t
  leave {s t : Sketch} {scope : Scope} (ht : Lost t) :
    Lost (Machine.leave t (Machine.begin s scope).1 scope)
  report {s : Sketch} (hframes : c.frames ≠ []) (hs : s.reports ≠ #[]) : Lost s

/-- Something is lost, or a block of the text has not ended at the end of the text. -/
def Gone (c : Setting) (Lost : Sketch → Prop) (m : Mode) (s : Sketch) : Prop :=
  Lost s ∨ (m = .body ∧ s.rest = [] ∧ s.silenced = false ∧ c.post ≠ [])

/-- A script takes the same steps on a text as on the text in a setting, until something is gone. -/
def Alike (c : Setting) (total : Nat) (Lost : Sketch → Prop) (fuel : Nat) {α : Type} (st : Stage)
    (m : Mode) (x : Script α) (m' : Mode) : Prop :=
  ∀ (before : List (Piece Draft)) (s : Sketch) (a : α) (t : Sketch),
    (st ≠ .outer → before = []) → x.run (runRule script fuel) fuel s = some (a, t) →
      (Gone c Lost m s → Gone c Lost m' t) ∧
      (Holds c total st m s → Gone c Lost m' t ∨
        (x.run (runRule script fuel) fuel (c.embed before s) = some (a, c.embed before t) ∧
          Holds c total st m' t))

section Rules

variable {c : Setting} {total : Nat} {Lost : Sketch → Prop} {fuel : Nat} {α β : Type} {st : Stage}
  {m m' m'' : Mode} {l b : Bool} {k : TokenKind} {s t u : Sketch}

/-! ### What holds -/

theorem Gone.weaken (hm : m.Le m') (h : Gone c Lost m s) : Gone c Lost m' s := by
  rcases h with h | ⟨rfl, h⟩
  · exact .inl h
  · exact .inr ⟨hm.eq_body, h⟩

theorem Gone.lost (h : Gone c Lost m s) (hm : m ≠ .body) : Lost s :=
  h.resolve_right fun h => hm h.1

theorem Holds.weaken (hm : m.Le m') (h : Holds c total st m s) : Holds c total st m' s :=
  { h with
    sees := hm.sees h.sees
    loud := h.loud ∘ hm.flags.1
    blamed := h.blamed ∘ hm.flags.2.1
    started := h.started ∘ hm.flags.2.2 }

/-- A word that ends no block shows that problems are not passed over. -/
theorem Holds.silenced_eq (h : Holds c total st (.seeing l b k) s)
    (hk : l = true ∨ k.closes = false) : s.silenced = false := by
  rcases hk with hk | hk
  · exact h.loud hk
  · refine Bool.eq_false_iff.2 fun hs => ?_
    have honLine : s.onLine = some k := h.sees
    rcases h.settled hs with hnone | hstop
    · rw [hnone] at honLine
      cases honLine
    · rw [Reading.atStop, Reading.current_of_onLine honLine, Option.any_some] at hstop
      rw [h.closers k hstop] at hk
      cases hk

/-! ### Scripts built up -/

theorem alike_pure (a : α) : Alike c total Lost fuel st m (pure a) m := by
  intro before s a' t _ hrun
  obtain ⟨rfl, rfl⟩ := run_pure_iff.1 hrun
  exact ⟨id, fun hs => .inr ⟨rfl, hs⟩⟩

theorem alike_bind {x : Script α} {f : α → Script β} (hx : Alike c total Lost fuel st m x m')
    (hf : ∀ a, Alike c total Lost fuel st m' (f a) m'') :
    Alike c total Lost fuel st m (x >>= f) m'' := by
  intro before s b u hbefore hrun
  obtain ⟨a, t, ht, hu⟩ := run_bind_iff.1 hrun
  obtain ⟨hgone, hholds⟩ := hx before s a t hbefore ht
  obtain ⟨hgone', hholds'⟩ := hf a before t b u hbefore hu
  refine ⟨hgone' ∘ hgone, fun hs => ?_⟩
  rcases hholds hs with h | ⟨ht', h⟩
  · exact .inl (hgone' h)
  · refine (hholds' h).imp_right fun ⟨hu', h'⟩ => ⟨?_, h'⟩
    exact run_bind_iff.2 ⟨a, _, ht', hu'⟩

theorem alike_weaken {m₀ m₁ : Mode} {x : Script α} (hpre : m₀.Le m) (hpost : m'.Le m₁)
    (h : Alike c total Lost fuel st m x m') : Alike c total Lost fuel st m₀ x m₁ := by
  intro before s a t hbefore hrun
  obtain ⟨hgone, hholds⟩ := h before s a t hbefore hrun
  refine ⟨fun hs => (hgone (hs.weaken hpre)).weaken hpost, fun hs => ?_⟩
  rcases hholds (hs.weaken hpre) with h | ⟨ht, h⟩
  · exact .inl (h.weaken hpost)
  · exact .inr ⟨ht, h.weaken hpost⟩

/-- A question with the same answer in the larger text leads on from the modes that its answers
tell. -/
theorem alike_ask {q : Query α} {f : α → Script β} (n : α → Mode)
    (hbody : ∀ a, m = .body → n a = .body)
    (hanswer : ∀ before (s : Sketch), Holds c total st m s →
      (c.embed before s).answer q = s.answer q)
    (hn : ∀ s : Sketch, Holds c total st m s → Holds c total st (n (s.answer q)) s)
    (h : ∀ a, Alike c total Lost fuel st (n a) (f a) m') :
    Alike c total Lost fuel st m (.ask q .done >>= f) m' := by
  intro before s b t hbefore hrun
  obtain ⟨hgone, hholds⟩ := h (s.answer q) before s b t hbefore hrun
  refine ⟨fun hs => hgone (hs.imp_right fun ⟨hm, h⟩ => ⟨hbody _ hm, h⟩), fun hs => ?_⟩
  refine (hholds (hn s hs)).imp_right fun ⟨ht, h⟩ => ⟨?_, h⟩
  rw [run_ask_bind]
  change (f ((c.embed before s).answer q)).run _ _ _ = _
  rw [hanswer before s hs]
  exact ht

theorem alike_askAny {q : Query α} {f : α → Script β}
    (hanswer : ∀ before (s : Sketch), Holds c total st m s →
      (c.embed before s).answer q = s.answer q)
    (h : ∀ a, Alike c total Lost fuel st m (f a) m') :
    Alike c total Lost fuel st m (.ask q .done >>= f) m' :=
  alike_ask (fun _ => m) (fun _ => id) hanswer (fun _ => id) h

/-- A question of which the mode knows the answer. -/
theorem alike_known {q : Query α} {f : α → Script β} {a : α}
    (ha : ∀ before (s : Sketch), Holds c total st m s →
      (c.embed before s).answer q = a ∧ s.answer q = a) (hm : m ≠ .body)
    (hlost : Losing c Lost) (h : Alike c total Lost fuel st m (f a) m') :
    Alike c total Lost fuel st m (.ask q .done >>= f) m' := by
  intro before s b t hbefore hrun
  refine ⟨fun hs => .inl (hlost.kept hrun (hs.lost hm)), fun hs => ?_⟩
  obtain ⟨hembed, hs'⟩ := ha before s hs
  have hrun' : (f a).run (runRule script fuel) fuel s = some (b, t) := by
    rw [← hs']
    exact hrun
  refine ((h before s b t hbefore hrun').2 hs).imp_right fun ⟨ht, h⟩ => ⟨?_, h⟩
  rw [run_ask_bind]
  change (f ((c.embed before s).answer q)).run _ _ _ = _
  rw [hembed]
  exact ht

/-! ### Actions -/

theorem alike_act {action : Action} (hlost : Losing c Lost) (hm : m ≠ .body)
    (hperform : ∀ before (s : Sketch), Holds c total st m s →
      (c.embed before s).perform action = c.embed before (s.perform action))
    (hn : ∀ s : Sketch, Holds c total st m s →
      Lost (s.perform action) ∨ Holds c total st m' (s.perform action)) :
    Alike c total Lost fuel st m (.act action .done) m' := by
  intro before s u t hbefore hrun
  refine ⟨fun hs => .inl (hlost.kept hrun (hs.lost hm)), fun hs => ?_⟩
  obtain rfl := run_act_iff.1 hrun
  rcases hn s hs with h | h
  · exact .inl (.inl h)
  · exact .inr ⟨run_act_iff.2 (hperform before s hs).symm, h⟩

theorem Holds.take {w : Word} {ws : List Word} (h : Holds c total st m s) (hrest : s.rest = w :: ws)
    (hloud : s.silenced = false) (hsees : m'.Sees s.take.toReading)
    (hblamed : m'.isBlamed → m.isBlamed) : Holds c total st m' s.take := by
  have hcount := h.count
  rw [hrest, List.length_cons] at hcount
  rw [Sketch.take_eq hrest] at hsees ⊢
  refine ⟨hsees, fun _ => hloud, h.blamed ∘ hblamed, fun _ => Nat.succ_pos _, h.closers, ?_, ?_,
    h.placed, fun hframes => ?_, fun hst => ⟨(h.measured hst).1, ?_⟩⟩
  · intro hs
    rw [hloud] at hs
    cases hs
  · dsimp only
    omega
  · obtain ⟨hs, hreports, hwords⟩ := h.clean hframes
    refine ⟨hs, hreports, fun v hv => hwords v ?_⟩
    rw [hrest]
    exact List.mem_cons_of_mem w hv
  · exact Nat.le_succ_of_le (h.measured hst).2

theorem alike_take (hlost : Losing c Lost) (hm : m ≠ .body)
    (hrest : ∀ s : Sketch, Holds c total st m s → s.rest ≠ [])
    (hloud : ∀ s : Sketch, Holds c total st m s → s.silenced = false)
    (hsees : ∀ s : Sketch, Holds c total st m s → m'.Sees s.take.toReading)
    (hblamed : m'.isBlamed → m.isBlamed) : Alike c total Lost fuel st m take m' := by
  refine alike_act hlost hm (fun before s hs => Setting.take_embed (hrest s hs)) fun s hs => ?_
  obtain ⟨w, ws, hw⟩ := List.exists_cons_of_ne_nil (hrest s hs)
  exact .inr (hs.take hw (hloud s hs) (hsees s hs) hblamed)

/-- The places of a report that the grammar makes. -/
theorem edges_inside {place : Place} (hcount : s.taken + s.rest.length = total)
    (hplace : (place = .here ∧ 0 < s.taken) ∨ (place = .word ∧ s.rest ≠ [])) :
    (s.edges place).1.Inside total ∧ (s.edges place).2.Inside total := by
  have hword (hrest : s.rest ≠ []) : s.taken < total ∧ 0 < s.taken + 1 ∧ s.taken + 1 ≤ total := by
    have := List.length_pos_iff.2 hrest
    omega
  rcases hplace with ⟨rfl, hstarted⟩ | ⟨rfl, hrest⟩
  · simp only [Reading.edges]
    split
    · next h =>
      obtain ⟨k, hk⟩ := Option.isSome_iff_exists.1 h
      exact hword (Reading.ne_nil_of_onLine hk)
    · have : 0 < s.taken ∧ s.taken ≤ total := by omega
      exact ⟨this, this⟩
  · exact hword hrest

theorem Holds.report {place : Place} {cause : Cause} (h : Holds c total st m s)
    (hframes : c.frames = []) (hplaced : (⟨cause, (s.edges place).1, (s.edges place).2⟩ : Report).Placed total)
    (hm : m'.isLoud = m.isLoud ∧ m'.isStarted = m.isStarted)
    (hsees : m'.Sees (s.perform (.report place cause)).toReading) :
    Holds c total st m' (s.perform (.report place cause)) := by
  change Holds c total st m' { s with toReading := s.toReading.report place cause }
  change m'.Sees (s.toReading.report place cause) at hsees
  rw [Reading.report] at hsees ⊢
  split
  · next hs =>
    rw [if_pos hs] at hsees
    exact ⟨hsees, hm.1 ▸ h.loud, fun _ => hframes, hm.2 ▸ h.started, h.closers, h.settled, h.count,
      h.placed, h.clean, h.measured⟩
  · next hs =>
    rw [if_neg hs] at hsees
    refine ⟨hsees, hm.1 ▸ h.loud, fun _ => hframes, hm.2 ▸ h.started, h.closers, h.settled, h.count,
      fun r hr => ?_, fun hne => absurd hframes hne, h.measured⟩
    rcases Array.mem_push.1 hr with hr | rfl
    · exact h.placed r hr
    · exact hplaced

/-- Inside a block of the larger text a report is lost. -/
theorem Holds.lost_report {place : Place} {cause : Cause} (hlost : Losing c Lost)
    (h : Holds c total st m s) (hframes : c.frames ≠ []) :
    Lost (s.perform (.report place cause)) := by
  refine hlost.report hframes ?_
  change (s.toReading.report place cause).reports ≠ #[]
  rw [Reading.report, (h.clean hframes).1]
  simp

theorem alike_report {place : Place} {cause : Cause} (hlost : Losing c Lost) (hm : m ≠ .body)
    (hplace : ∀ s : Sketch, Holds c total st m s →
      (place = .here ∧ 0 < s.taken) ∨ (place = .word ∧ s.rest ≠ []))
    (hflags : m'.isLoud = m.isLoud ∧ m'.isStarted = m.isStarted)
    (hsees : ∀ s t : Reading, m.Sees s → t.rest = s.rest → m'.Sees t) :
    Alike c total Lost fuel st m (report place cause) m' := by
  refine alike_act hlost hm (fun before s hs => Setting.report_embed ?_) fun s hs => ?_
  · rcases hplace s hs with ⟨rfl, -⟩ | ⟨rfl, -⟩ <;> trivial
  · by_cases hframes : c.frames = []
    · refine .inr (hs.report hframes (.inl (edges_inside hs.count (hplace s hs))) hflags ?_)
      exact hsees s.toReading _ hs.sees (s.toReading.rest_report place cause)
    · exact .inl (hs.lost_report hlost hframes)

theorem alike_listen (hlost : Losing c Lost) (hm : m ≠ .body)
    (hflags : (m'.isBlamed → m.isBlamed) ∧ (m'.isStarted → m.isStarted))
    (hsees : ∀ s t : Reading, m.Sees s → t.rest = s.rest → m'.Sees t) :
    Alike c total Lost fuel st m listen m' := by
  refine alike_act hlost hm (fun before s hs => rfl) fun s hs => .inr ?_
  refine ⟨hsees s.toReading _ hs.sees rfl, fun _ => rfl, hs.blamed ∘ hflags.1, hs.started ∘ hflags.2,
    hs.closers, nofun, hs.count, hs.placed, fun hframes => ?_, hs.measured⟩
  exact ⟨rfl, (hs.clean hframes).2⟩

/-! ### Stretches -/

theorem begin_same (s : Sketch) (scope : Scope) :
    (Machine.begin s scope).2.rest = s.rest ∧ (Machine.begin s scope).2.taken = s.taken ∧
      (Machine.begin s scope).2.silenced = s.silenced ∧
      (Machine.begin s scope).2.reports = s.reports := by
  cases scope <;> exact ⟨rfl, rfl, rfl, rfl⟩

theorem leave_same (s : Sketch) (mark : List (Piece Draft)) (scope : Scope) :
    (Machine.leave s mark scope).rest = s.rest ∧ (Machine.leave s mark scope).taken = s.taken ∧
      (Machine.leave s mark scope).silenced = s.silenced ∧
      (Machine.leave s mark scope).reports = s.reports := by
  cases scope <;> exact ⟨rfl, rfl, rfl, rfl⟩

/-- What holds is about the words, the problems, and the blocks that are open. -/
theorem Holds.transfer {st' : Stage} (h : Holds c total st m s)
    (hsame : t.rest = s.rest ∧ t.taken = s.taken ∧ t.silenced = s.silenced ∧ t.reports = s.reports)
    (hclosers : ∀ k, t.isStop k → k.closes) (hstop : s.silenced → s.atStop → t.atStop)
    (hmeasured : st' = .measured → t.Measuring) : Holds c total st' m t := by
  obtain ⟨hrest, htaken, hsilenced, hreports⟩ := hsame
  have honLine : t.onLine = s.onLine := by rw [Reading.onLine, hrest, Reading.onLine]
  refine ⟨h.sees.of_rest hrest, ?_, h.blamed, ?_, hclosers, ?_, ?_, ?_, ?_, hmeasured⟩
  · rw [hsilenced]
    exact h.loud
  · rw [htaken]
    exact h.started
  · rw [hsilenced, honLine]
    exact fun hs => (h.settled hs).imp_right (hstop hs)
  · rw [htaken, hrest]
    exact h.count
  · rw [hreports]
    exact h.placed
  · rw [hsilenced, hreports, hrest]
    exact h.clean

/-- A stretch of a text is a stretch of the larger text. -/
theorem alike_within {scope : Scope} {x : Script α} (st' : Stage) (hlost : Losing c Lost)
    (hbegin : ∀ s : Sketch, Holds c total st m s → Holds c total st' m (Machine.begin s scope).2)
    (hleave : ∀ s u : Sketch, Holds c total st m s → Holds c total st' m' u →
      (Machine.begin s scope).2.toReading.GoesOn u.toReading →
        Holds c total st m' (Machine.leave u (Machine.begin s scope).1 scope))
    (hembed : ∀ before (s : Sketch), (st ≠ .outer → before = []) → ∃ before',
      (st' ≠ .outer → before' = []) ∧
      (Machine.begin (c.embed before s) scope).2 = c.embed before' (Machine.begin s scope).2 ∧
      ∀ u : Sketch, (Machine.begin s scope).2.toReading.GoesOn u.toReading →
        Machine.leave (c.embed before' u) (Machine.begin (c.embed before s) scope).1 scope =
          c.embed before (Machine.leave u (Machine.begin s scope).1 scope))
    (h : Alike c total Lost fuel st' m x m') :
    Alike c total Lost fuel st m (within scope x) m' := by
  intro before s a t hbefore hrun
  obtain ⟨u, hu, rfl⟩ := run_within_iff.1 hrun
  obtain ⟨before', hbefore', hstart, hend⟩ := hembed before s hbefore
  obtain ⟨hgone, hholds⟩ := h before' _ a u hbefore' hu
  have hgoes := Sketch.goesOn_of_run hu
  obtain ⟨hrest, -, hsilenced, -⟩ := leave_same u (Machine.begin s scope).1 scope
  have hout (h : Gone c Lost m' u) :
      Gone c Lost m' (Machine.leave u (Machine.begin s scope).1 scope) :=
    h.imp hlost.leave fun h => by rwa [hrest, hsilenced]
  refine ⟨fun hs => ?_, fun hs => ?_⟩
  · rcases hs with hs | hs
    · exact .inl (hlost.kept hrun hs)
    · obtain ⟨hrest', -, hsilenced', -⟩ := begin_same s scope
      exact hout (hgone (.inr (by rwa [hrest', hsilenced'])))
  · rcases hholds (hbegin s hs) with h | ⟨hu', h⟩
    · exact .inl (hout h)
    · refine .inr ⟨run_within_iff.2 ⟨c.embed before' u, ?_, (hend u hgoes).symm⟩, hleave s u hs h hgoes⟩
      rw [hstart]
      exact hu'

theorem isStop_of_frames (h : t.frames = s.frames) : t.isStop = s.isStop := by
  funext k
  rw [Reading.isStop, h, Reading.isStop]

theorem atStop_of_same (hrest : t.rest = s.rest) (hframes : t.frames = s.frames) :
    t.atStop = s.atStop := by
  rw [Reading.atStop, isStop_of_frames hframes, Reading.current, hrest]
  rfl

/-- A stretch with the same open blocks. -/
theorem Holds.transfer_of_frames {st' : Stage} (h : Holds c total st m s)
    (hsame : t.rest = s.rest ∧ t.taken = s.taken ∧ t.silenced = s.silenced ∧ t.reports = s.reports)
    (hframes : t.frames = s.frames) (hmeasured : st' = .measured → t.Measuring) :
    Holds c total st' m t :=
  h.transfer hsame (isStop_of_frames hframes ▸ h.closers)
    (fun _ => (atStop_of_same hsame.1 hframes).symm ▸ id) hmeasured

theorem alike_node {kind : NodeKind} {x : Script α} (hlost : Losing c Lost)
    (h : Alike c total Lost fuel st.inside m x m') :
    Alike c total Lost fuel st m (node kind x) m' := by
  have hinside : st.inside = .measured → st = .measured := by cases st <;> simp [Stage.inside]
  have hstage : st = .measured → st.inside = .measured := by rintro rfl; rfl
  refine alike_within st.inside hlost (fun s hs => ?_) (fun s u _ hu _ => ?_)
    (fun before s hbefore => ⟨[], fun _ => rfl, rfl, fun u _ => Setting.node_embed⟩) h
  · exact hs.transfer_of_frames (begin_same s (.node kind)) rfl (hs.measured ∘ hinside)
  · exact hu.transfer_of_frames (leave_same u _ (.node kind)) rfl (hu.measured ∘ hstage)

theorem alike_wrapLast {kind : NodeKind} {x : Script α} {a : α} (hlost : Losing c Lost)
    (before : List (Piece Draft)) (h : Alike c total Lost fuel .inner m x m') (hst : st ≠ .measured)
    (hlast : before = [] ∨ ∃ d ps, s.parts = .node d :: ps)
    (hrun : (wrap kind x).run (runRule script fuel) fuel s = some (a, t)) :
    (Gone c Lost m s → Gone c Lost m' t) ∧
      (Holds c total st m s → Gone c Lost m' t ∨
        ((wrap kind x).run (runRule script fuel) fuel (c.embed before s) =
          some (a, c.embed before t) ∧ Holds c total st m' t)) := by
  obtain ⟨u, hu, rfl⟩ := run_within_iff.1 hrun
  obtain ⟨hgone, hholds⟩ := h [] _ a u (fun _ => rfl) hu
  have hout (h : Gone c Lost m' u) :
      Gone c Lost m' (Machine.leave u (Machine.begin s (.wrap kind)).1 (.wrap kind)) :=
    h.imp hlost.leave id
  refine ⟨fun hs => ?_, fun hs => ?_⟩
  · rcases hs with hs | hs
    · exact .inl (hlost.kept hrun hs)
    · exact hout (hgone (.inr hs))
  · have hstart : Holds c total .inner m (Machine.begin s (.wrap kind)).2 :=
      hs.transfer_of_frames (begin_same s (.wrap kind)) rfl nofun
    rcases hholds hstart with h | ⟨hu', h⟩
    · exact .inl (hout h)
    · refine .inr ⟨run_within_iff.2 ⟨c.embed [] u, hu', (Setting.wrap_embed hlast).symm⟩, ?_⟩
      exact h.transfer_of_frames (leave_same u _ (.wrap kind)) rfl fun h => absurd h hst

theorem alike_wrap {kind : NodeKind} {x : Script α} (hlost : Losing c Lost)
    (h : Alike c total Lost fuel .inner m x m') :
    Alike c total Lost fuel .inner m (wrap kind x) m' :=
  fun before _ _ _ hbefore hrun => alike_wrapLast hlost before h nofun (.inl (hbefore nofun)) hrun

theorem alike_wrapped {kind : NodeKind} {x : Script α} {y : Script β} (hlost : Losing c Lost)
    (hx : Alike c total Lost fuel .outer m (node kind x) m')
    (hy : Alike c total Lost fuel .inner m' y m'') :
    Alike c total Lost fuel .outer m (node kind x >>= fun _ => wrap .functionCall y) m'' := by
  intro before s b u hbefore hrun
  obtain ⟨a, t, ht, hu⟩ := run_bind_iff.1 hrun
  obtain ⟨ps, hps⟩ := Sketch.parts_node ht
  obtain ⟨hgone, hholds⟩ := hx before s a t hbefore ht
  have houter : Stage.outer ≠ .measured := nofun
  obtain ⟨hgone', hholds'⟩ := alike_wrapLast hlost before hy houter (.inr ⟨_, _, hps⟩) hu
  refine ⟨hgone' ∘ hgone, fun hs => ?_⟩
  rcases hholds hs with h | ⟨ht', h⟩
  · exact .inl (hgone' h)
  · refine (hholds' h).imp_right fun ⟨hu', h'⟩ => ⟨?_, h'⟩
    exact run_bind_iff.2 ⟨a, _, ht', hu'⟩

theorem alike_nested {x : Script α} (hlost : Losing c Lost) (h : Alike c total Lost fuel st m x m') :
    Alike c total Lost fuel st m (within .nested x) m' := by
  refine alike_within st hlost (fun s hs => ?_) (fun s u _ hu _ => ?_)
    (fun before s hbefore => ⟨before, hbefore, ?_, fun u hu => ?_⟩) h
  · exact hs.transfer_of_frames (begin_same s .nested) rfl hs.measured
  · exact hu.transfer_of_frames (leave_same u _ .nested) rfl hu.measured
  · change { c.embed before s with depth := s.depth + c.depth + 1 } = _
    rw [Nat.add_right_comm]
    rfl
  · refine Setting.leave_nested ?_
    rw [hu.depth]
    exact Nat.succ_pos s.depth

theorem alike_measured {x : Script α} (hlost : Losing c Lost)
    (h : Alike c total Lost fuel .measured m x m') :
    Alike c total Lost fuel .inner m (within .measured x) m' := by
  refine alike_within .measured hlost (fun s hs => ?_) (fun s u _ hu _ => ?_)
    (fun before s hbefore => ⟨[], fun _ => rfl, ?_, fun u hu => ?_⟩) h
  · exact hs.transfer_of_frames (begin_same s .measured) rfl fun _ =>
      ⟨List.cons_ne_nil _ _, Nat.le_refl _⟩
  · exact hu.transfer_of_frames (leave_same u _ .measured) rfl nofun
  · rw [hbefore nofun]
    rfl
  · rw [hbefore nofun]
    exact Setting.leave_measured

/-- A stretch in which more words end a block.  It ends where problems are not passed over. -/
theorem alike_stopAt {kinds : List TokenKind} {x : Script α} (hlost : Losing c Lost)
    (hkinds : ∀ k ∈ kinds, k.closes) (hm : m'.isLoud) (h : Alike c total Lost fuel st m x m') :
    Alike c total Lost fuel st m (within (.stopAt kinds) x) m' := by
  have hstop (s : Sketch) (k : TokenKind) : (Machine.begin s (.stopAt kinds)).2.isStop k =
      (kinds.contains k || s.isStop k) := rfl
  refine alike_within st hlost (fun s hs => ?_) (fun s u hs hu hgoes => ?_)
    (fun before s hbefore => ⟨before, hbefore, rfl, fun u hu => ?_⟩) h
  · refine hs.transfer (begin_same s (.stopAt kinds)) (fun k hk => ?_) (fun _ h => ?_) hs.measured
    · rw [hstop, Bool.or_eq_true] at hk
      exact hk.elim (fun hk => hkinds k (List.contains_iff_mem.1 hk)) (hs.closers k)
    · obtain ⟨k, hk, h⟩ := (Option.any_eq_true _ _).1 h
      refine (Option.any_eq_true _ _).2 ⟨k, hk, ?_⟩
      rw [hstop, h, Bool.or_true]
  · have hframes : (Machine.leave u (Machine.begin s (.stopAt kinds)).1 (.stopAt kinds)).frames =
        s.frames := congrArg List.tail hgoes.frames
    refine hu.transfer (leave_same u _ (.stopAt kinds)) ?_ (fun hsilenced => ?_) hu.measured
    · rw [isStop_of_frames hframes]
      exact hs.closers
    · rw [hu.loud hm] at hsilenced
      cases hsilenced
  · refine Setting.leave_stopAt ?_
    rw [hu.frames]
    exact List.cons_ne_nil _ _

theorem alike_collect {item : Script (Option β)}
    (h : Alike c total Lost fuel st m item m) : Alike c total Lost fuel st m (collect item) m := by
  intro before s bs t hbefore hrun
  rw [run_collect_iff] at hrun ⊢
  have hround := fun s b t hst => h before s b t hbefore hst
  refine repeatStep_induction (P := fun n (s : Sketch) bs (t : Sketch) =>
    (Gone c Lost m s → Gone c Lost m t) ∧
      (Holds c total st m s → Gone c Lost m t ∨
        (repeatStep (item.run (runRule script fuel) fuel) n (c.embed before s) =
          some (bs, c.embed before t) ∧ Holds c total st m t))) ?_ ?_ hrun
  · intro n s t hst
    obtain ⟨hgone, hholds⟩ := hround s none t hst
    refine ⟨hgone, fun hs => (hholds hs).imp_right fun h => ⟨?_, h.2⟩⟩
    rw [repeatStep, h.1]
  · rintro n s b u bs t hsu - ⟨hgone', hholds'⟩
    obtain ⟨hgone, hholds⟩ := hround s (some b) u hsu
    refine ⟨hgone' ∘ hgone, fun hs => ?_⟩
    rcases hholds hs with h | ⟨hu, h⟩
    · exact .inl (hgone' h)
    · refine (hholds' h).imp_right fun h' => ⟨?_, h'.2⟩
      simp only [repeatStep, hu, h'.1]

/-! ### Single runs -/

variable {before : List (Piece Draft)}

/-- The steps of a run are those of the run in the larger text, until something is gone. -/
def StepsAlike (c : Setting) (total : Nat) (Lost : Sketch → Prop) (fuel : Nat) {α : Type} (st : Stage)
    (m : Mode) (before : List (Piece Draft)) (s : Sketch) (x : Script α) (a : α) (t : Sketch) : Prop :=
  Gone c Lost m t ∨ (x.run (runRule script fuel) fuel (c.embed before s) = some (a, c.embed before t) ∧
    Holds c total st m t)

theorem Alike.steps {x : Script α} {a : α} (h : Alike c total Lost fuel st m x m')
    (hbefore : st ≠ .outer → before = []) (hs : Holds c total st m s)
    (hrun : x.run (runRule script fuel) fuel s = some (a, t)) :
    StepsAlike c total Lost fuel st m' before s x a t :=
  (h before s a t hbefore hrun).2 hs

theorem steps_onLine {f : Option TokenKind → Script α} {a : α}
    (h : StepsAlike c total Lost fuel st m before s (f s.onLine) a t) :
    StepsAlike c total Lost fuel st m before s (onLine >>= f) a t := by
  refine h.imp_right fun ⟨ht, h⟩ => ⟨?_, h⟩
  rw [onLine, run_ask_bind, answer_onLine, Setting.onLine_embed]
  exact ht

theorem steps_bind {x : Script α} {f : α → Script β} {a : α} {b : β} (hlost : Losing c Lost)
    (hm : m ≠ .body) (hu : (f a).run (runRule script fuel) fuel t = some (b, u))
    (hx : StepsAlike c total Lost fuel st m before s x a t)
    (hf : Holds c total st m t → StepsAlike c total Lost fuel st m' before t (f a) b u) :
    StepsAlike c total Lost fuel st m' before s (x >>= f) b u := by
  rcases hx with h | ⟨ht, h⟩
  · exact .inl (.inl (hlost.kept hu (h.lost hm)))
  · exact (hf h).imp_right fun ⟨hu, h⟩ => ⟨run_bind_iff.2 ⟨a, _, ht, hu⟩, h⟩

theorem steps_pure (a : α) (hs : Holds c total st m s) :
    StepsAlike c total Lost fuel st m before s (pure a) a s := .inr ⟨rfl, hs⟩

theorem steps_node {kind : NodeKind} {x : Script α} {a : α} (hlost : Losing c Lost)
    (h : StepsAlike c total Lost fuel st.inside m [] { s with parts := [] } x a t) :
    StepsAlike c total Lost fuel st m before s (node kind x) a
      (Machine.leave t (Machine.begin s (.node kind)).1 (.node kind)) := by
  have hstage : st = .measured → st.inside = .measured := by rintro rfl; rfl
  rcases h with h | ⟨ht, h⟩
  · exact .inl (h.imp hlost.leave id)
  · refine .inr ⟨run_within_iff.2 ⟨c.embed [] t, ht, Setting.node_embed.symm⟩, ?_⟩
    exact h.transfer_of_frames (leave_same t _ (.node kind)) rfl (h.measured ∘ hstage)

end Rules

end Grammar

end CRBasic
