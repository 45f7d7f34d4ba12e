import CRBasic.Proofs.Grammar.WalkStatement
import CRBasic.Proofs.Lines.Tidy

/-!
# What stands on one line

A script that stands on one line takes words of one line only: after the first word of a statement no
word that starts a line (`keeps_lines`).  So the nodes that it puts stand on one line, and so do those
that it puts around another node.
-/

namespace CRBasic

namespace Grammar

open Parsing Parsing.Script

/-- Whether no word has been taken yet of what stands on a line. -/
def Mode.isFirst : Mode → Bool
  | .word _ _ _ | .pair _ _ => true
  | .live _ _ | .seeing _ _ _ | .body => false

/-- Whether the words that have been taken stand on the line that is read. -/
def Mode.isOpen : Mode → Bool
  | .live _ _ | .seeing _ _ _ => true
  | .word _ _ _ | .pair _ _ | .body => false

/-- Words that may stand before those of a mode: they stand on one line, and before the first word there
are none. -/
def FitsLine (m : Mode) (ws : List Word) : Prop := Word.OneLine ws ∧ (m.isFirst → ws = [])

/-- If the last part is a node, its words may stand before what follows. -/
def EndsOnLine (m : Mode) (s : Sketch) : Prop :=
  ∀ d before, s.parts = .node d :: before → FitsLine m d.words

/-- What holds between two steps of a script, which may have to stand on one line. -/
structure Stands (words : List Word) (line : Bool) (st : Stage) (m : Mode) (s : Sketch) : Prop where
  sees : m.Sees s.toReading
  tidy : s.Tidy words
  ends : st ≠ .outer → line ∨ m.isOpen → EndsOnLine m s

/-- From one mode to another, no words have been taken that start a line, other than the first one. -/
structure Stays (words : List Word) (m m' : Mode) (s t : Sketch) : Prop where
  onLine : Word.OnLine words (s.taken + m.isFirst.toNat) t.taken
  first : m'.isFirst → m.isFirst ∧ t.taken = s.taken

/-- A script leads from a mode to another one, and stays on the line if it has to. -/
def Keeps (words : List Word) (fuel : Nat) (line : Bool) {α : Type} (st : Stage) (m : Mode)
    (x : Script α) (m' : Mode) : Prop :=
  ∀ (s : Sketch) (a : α) (t : Sketch), x.run (runRule script fuel) fuel s = some (a, t) →
    Stands words line st m s → Stands words line st m' t ∧ (line → Stays words m m' s t)

section Stays

variable {words : List Word} {m m' m'' : Mode} {s t u : Sketch}

theorem Mode.Le.isFirst {m m' : Mode} (h : m.Le m') : m'.isFirst → m.isFirst := by
  cases h <;> simp [Mode.isFirst]

theorem Mode.Le.isOpen {m m' : Mode} (h : m.Le m') : m'.isOpen → m.isOpen := by
  cases h <;> simp [Mode.isOpen]

theorem Stays.refl (m : Mode) (s : Sketch) : Stays words m m s s :=
  ⟨Word.onLine_of_le (Nat.le_add_right _ _), fun h => ⟨h, rfl⟩⟩

theorem Stays.trans (h : Stays words m m' s t) (h' : Stays words m' m'' t u) :
    Stays words m m'' s u := by
  refine ⟨?_, fun hfirst => ?_⟩
  · cases hm' : m'.isFirst with
    | true =>
      obtain ⟨hm, htaken⟩ := h.first hm'
      have honLine := h'.onLine
      rwa [hm', htaken, ← hm] at honLine
    | false =>
      have honLine := h'.onLine
      rw [hm'] at honLine
      exact h.onLine.trans honLine
  · obtain ⟨hm', htu⟩ := h'.first hfirst
    obtain ⟨hm, hst⟩ := h.first hm'
    exact ⟨hm, htu.trans hst⟩

theorem Stays.weaken {m₀ m₁ : Mode} (hpre : m₀.Le m) (hpost : m'.Le m₁)
    (h : Stays words m m' s t) : Stays words m₀ m₁ s t := by
  refine ⟨h.onLine.mono (Nat.add_le_add_left ?_ _) (Nat.le_refl _), fun hfirst => ?_⟩
  · have hle := hpre.isFirst
    cases hm : m.isFirst <;> simp_all
  · obtain ⟨hm, htaken⟩ := h.first (hpost.isFirst hfirst)
    exact ⟨hpre.isFirst hm, htaken⟩

theorem EndsOnLine.weaken (hm : m.Le m') (h : EndsOnLine m s) : EndsOnLine m' s := by
  intro d before hparts
  obtain ⟨hline, hwords⟩ := h d before hparts
  exact ⟨hline, hwords ∘ hm.isFirst⟩

end Stays

section Rules

variable {words : List Word} {fuel : Nat} {line : Bool} {α β : Type} {st : Stage}
  {m m' m'' : Mode} {l b : Bool} {k : TokenKind} {s t : Sketch}

theorem Stands.weaken (hm : m.Le m') (h : Stands words line st m s) : Stands words line st m' s :=
  ⟨hm.sees h.sees, h.tidy, fun hst hline => (h.ends hst (hline.imp_right hm.isOpen)).weaken hm⟩

/-! ### Single steps -/

theorem keeps_pure (a : α) : Keeps words fuel line st m (pure a) m := by
  intro s b t hrun hs
  obtain ⟨-, rfl⟩ := run_pure_iff.1 hrun
  exact ⟨hs, fun _ => .refl m t⟩

theorem keeps_bind {x : Script α} {f : α → Script β} (hx : Keeps words fuel line st m x m')
    (hf : ∀ a, Keeps words fuel line st m' (f a) m'') : Keeps words fuel line st m (x >>= f) m'' := by
  intro s b u hrun hs
  obtain ⟨a, t, ht, hu⟩ := run_bind_iff.1 hrun
  obtain ⟨ht, hst⟩ := hx s a t ht hs
  obtain ⟨hu, htu⟩ := hf a t b u hu ht
  exact ⟨hu, fun hline => (hst hline).trans (htu hline)⟩

theorem keeps_weaken {m₀ m₁ : Mode} {x : Script α} (hpre : m₀.Le m) (hpost : m'.Le m₁)
    (h : Keeps words fuel line st m x m') : Keeps words fuel line st m₀ x m₁ := by
  intro s a t hrun hs
  obtain ⟨ht, hst⟩ := h s a t hrun (hs.weaken hpre)
  exact ⟨ht.weaken hpost, fun hline => (hst hline).weaken hpre hpost⟩

/-- The same words have been taken in both modes. -/
def Mode.Same (m m' : Mode) : Prop := m'.isFirst = m.isFirst ∧ m'.isOpen = m.isOpen

/-- A step that takes no word and puts no node. -/
theorem Stands.still (h : Stands words line st m s) (hm : m.Same m') (hsees : m'.Sees t.toReading)
    (htidy : t.Tidy words) (hparts : t.parts = s.parts) : Stands words line st m' t := by
  refine ⟨hsees, htidy, fun hst hline d before hd => ?_⟩
  rw [hm.2] at hline
  rw [FitsLine, hm.1]
  exact h.ends hst hline d before (hparts ▸ hd)

theorem Stays.still (hm : m.Same m') (htaken : t.taken = s.taken) : Stays words m m' s t := by
  refine ⟨Word.onLine_of_le (Nat.le_trans (Nat.le_of_eq htaken) (Nat.le_add_right _ _)), ?_⟩
  rw [hm.1]
  exact fun hfirst => ⟨hfirst, htaken⟩

/-- A question leads on from the modes that its answers tell. -/
theorem keeps_ask {q : Query α} {f : α → Script β} (n : α → Mode) (hm : ∀ a, m.Same (n a))
    (hn : ∀ s : Sketch, m.Sees s.toReading → (n (s.answer q)).Sees s.toReading)
    (h : ∀ a, Keeps words fuel line st (n a) (f a) m') :
    Keeps words fuel line st m (.ask q .done >>= f) m' := by
  intro s b t hrun hs
  have hs' := hs.still (hm (s.answer q)) (hn s hs.sees) hs.tidy rfl
  obtain ⟨ht, hst⟩ := h (s.answer q) s b t hrun hs'
  exact ⟨ht, fun hline => (Stays.still (hm _) rfl).trans (hst hline)⟩

theorem keeps_askAny {q : Query α} {f : α → Script β} (h : ∀ a, Keeps words fuel line st m (f a) m') :
    Keeps words fuel line st m (.ask q .done >>= f) m' :=
  keeps_ask (fun _ => m) (fun _ => ⟨rfl, rfl⟩) (fun _ hm => hm) h

/-- A question of which the mode knows the answer. -/
theorem keeps_known {q : Query α} {f : α → Script β} {a : α}
    (ha : ∀ s : Sketch, m.Sees s.toReading → s.answer q = a)
    (h : Keeps words fuel line st m (f a) m') :
    Keeps words fuel line st m (.ask q .done >>= f) m' := by
  intro s b t hrun hs
  refine h s b t ?_ hs
  rw [← ha s hs.sees]
  exact hrun

theorem keeps_take (hm' : m'.isFirst = false)
    (hsees : ∀ s : Sketch, m.Sees s.toReading → m'.Sees s.take.toReading)
    (hword : ∀ s : Sketch, m.Sees s.toReading → ∃ w ws, s.rest = w :: ws ∧
      (m.isFirst = false → w.startsLine = false)) : Keeps words fuel line st m take m' := by
  intro s u t hrun hs
  obtain rfl : t = s.take := run_act_iff.1 hrun
  obtain ⟨w, ws, hrest, hstart⟩ := hword s hs.sees
  refine ⟨⟨hsees s hs.sees, hs.tidy.take, fun _ _ d before hparts => ?_⟩, fun _ => ⟨?_, ?_⟩⟩
  · rw [Sketch.take_eq hrest] at hparts
    cases hparts
  · rw [Sketch.take_eq hrest]
    cases hm : m.isFirst with
    | true => exact Word.onLine_of_le (Nat.le_refl _)
    | false =>
      intro i v hi hlt hv
      obtain rfl : i = s.taken := Nat.le_antisymm (Nat.le_of_lt_succ hlt) hi
      rw [hs.tidy.getElem?_taken hrest] at hv
      cases hv
      exact hstart hm
  · rw [hm']
    exact nofun

theorem exists_rest_of_onLine (hk : s.onLine = some k) :
    ∃ w ws, s.rest = w :: ws ∧ w.startsLine = false := by
  rw [Reading.onLine] at hk
  split at hk
  · cases hk
  · next w ws hrest =>
    split at hk
    · cases hk
    · next hline => exact ⟨w, ws, hrest, by simpa using hline⟩

/-- A report whose place is within a line. -/
theorem Stands.report {place : Place} {cause : Cause} (hs : Stands words line st m s)
    (hcause : cause.kind = .grammatical)
    (hplace : (⟨cause, (s.edges place).1, (s.edges place).2⟩ : Report).OneLine words)
    (hunits : (⟨cause, (s.edges place).1, (s.edges place).2⟩ : Report).Unnamed words)
    (hm : m.Same m') (hsees : ∀ s t : Reading, m.Sees s → t.rest = s.rest → m'.Sees t) :
    Stands words line st m' (s.perform (.report place cause)) ∧
      Stays words m m' s (s.perform (.report place cause)) := by
  have hrest : (s.perform (.report place cause)).rest = s.rest := s.toReading.rest_report place cause
  exact ⟨hs.still hm (hsees _ _ hs.sees hrest) (hs.tidy.report hcause hplace hunits) rfl,
    .still hm (s.toReading.taken_report place cause)⟩

theorem unnamed_of_isRoutine {r : Report} (h : r.cause.isRoutine) : r.Unnamed words := by
  intro hcause
  rw [hcause] at h
  cases h

theorem keeps_report {place : Place} {cause : Cause} (hcause : cause.isRoutine)
    (hplace : place = .here ∨ place = .word) (hm : m.Same m')
    (hsees : ∀ s t : Reading, m.Sees s → t.rest = s.rest → m'.Sees t) :
    Keeps words fuel line st m (report place cause) m' := by
  intro s u t hrun hs
  obtain rfl : t = s.perform (.report place cause) := run_act_iff.1 hrun
  obtain ⟨ht, hstays⟩ := hs.report (Cause.kind_of_isRoutine hcause) (hs.tidy.oneLine_edges hplace cause)
    (unnamed_of_isRoutine hcause) hm hsees
  exact ⟨ht, fun _ => hstays⟩

theorem keeps_listen (hm : m.Same m')
    (hsees : ∀ s t : Reading, m.Sees s → t.rest = s.rest → m'.Sees t) :
    Keeps words fuel line st m listen m' := by
  intro s u t hrun hs
  obtain rfl : t = s.perform .listen := run_act_iff.1 hrun
  exact ⟨hs.still hm (hsees _ _ hs.sees rfl) hs.tidy.listen rfl, fun _ => .still hm rfl⟩

theorem keeps_collect {item : Script (Option β)} (h : Keeps words fuel line st m item m) :
    Keeps words fuel line st m (collect item) m := by
  intro s bs t hrun
  rw [run_collect_iff] at hrun
  refine repeatStep_induction (P := fun _ (s : Sketch) _ (t : Sketch) =>
    Stands words line st m s → Stands words line st m t ∧ (line → Stays words m m s t)) ?_ ?_ hrun
  · exact fun _ s t hst => h s none t hst
  · intro n s b u bs t hsu _ ih hs
    obtain ⟨hu, hsu⟩ := h s (some b) u hsu hs
    obtain ⟨ht, hut⟩ := ih hu
    exact ⟨ht, fun hline => (hsu hline).trans (hut hline)⟩

/-- Scripts follow the rules for single steps, on one line as well as over several. -/
theorem keeps_steps : StepRules fun st m x m' => Keeps words fuel line st m x m' where
  pure := keeps_pure
  bind := keeps_bind
  weaken := keeps_weaken
  idle _ hf h := keeps_askAny fun a => by rw [hf a]; exact h
  onLine {_ _ l b _ _} hnone hsome := by
    refine keeps_ask (fun o => o.elim (.live l b) (.seeing l b)) (fun o => ?_) (fun s _ => ?_) fun o => ?_
    · cases o <;> exact ⟨rfl, rfl⟩
    · change Mode.Sees (s.onLine.elim _ _) _
      cases h : s.onLine with
      | none => trivial
      | some k => exact h
    · cases o with
      | none => exact hnone
      | some k => exact hsome k
  onLine_seeing h := keeps_known (fun _ hm => hm) h
  current_seeing h := keeps_known (fun s hm => Reading.current_of_onLine hm) h
  current_word h := keeps_known (fun _ hm => hm) h
  second_seeing h := keeps_askAny h
  second_word {_ _ b k _ _} hnone hsome := by
    refine keeps_ask (fun o => o.elim (.word true b k) (.pair k)) (fun o => ?_) (fun s hm => ?_)
      fun o => ?_
    · cases o <;> exact ⟨rfl, rfl⟩
    · change Mode.Sees (s.secondOnLine.elim _ _) _
      cases h : s.secondOnLine with
      | none => exact hm
      | some k' => exact ⟨hm, h⟩
    · cases o with
      | none => exact hnone
      | some k' => exact hsome k'
  atStop {_ _ l k _ _} htrue hfalse := by
    refine keeps_ask (fun stop => .seeing (l || !stop) true k) (fun _ => ⟨rfl, rfl⟩) (fun _ hm => hm)
      fun stop => ?_
    cases stop with
    | true => simpa using htrue
    | false => simpa using hfalse
  tooDeep h := keeps_askAny h
  take_word := keeps_take rfl (fun _ _ => trivial) fun s hm => by
    obtain ⟨w, ws, hrest, -⟩ := Reading.exists_rest hm
    exact ⟨w, ws, hrest, nofun⟩
  take_pair := keeps_take rfl (fun s hm => Sketch.onLine_take hm.2) fun s hm => by
    obtain ⟨w, ws, hrest, -⟩ := Reading.exists_rest hm.1
    exact ⟨w, ws, hrest, nofun⟩
  take_seeing _ := keeps_take rfl (fun _ _ => trivial) fun s hm => by
    obtain ⟨w, ws, hrest, hline⟩ := exists_rest_of_onLine hm
    exact ⟨w, ws, hrest, fun _ => hline⟩
  report_live hcause := keeps_report hcause (.inl rfl) ⟨rfl, rfl⟩
    fun _ _ _ _ => trivial
  report_seeing {_ l b k _} hcause := keeps_report hcause (.inl rfl) ⟨rfl, rfl⟩
    fun _ _ hm hrest => Mode.Sees.of_rest (m := .seeing l b k) hm hrest
  report_word {_ s b k _} hcause := keeps_report hcause (.inr rfl) ⟨rfl, rfl⟩
    fun _ _ hm hrest => Mode.Sees.of_rest (m := .word s b k) hm hrest
  listen_live := keeps_listen ⟨rfl, rfl⟩ fun _ _ _ _ => trivial
  listen_word {_ s b k} := keeps_listen ⟨rfl, rfl⟩
    fun _ _ hm hrest => Mode.Sees.of_rest (m := .word s b k) hm hrest
  collect := keeps_collect

/-! ### Nodes -/

/-- The run of a node is that of its script inside a new node.  The node has the words taken. -/
theorem exists_node_of_run {kind : NodeKind} {x : Script α} {a : α} (hs : s.Tidy words)
    (hrun : (node kind x).run (runRule script fuel) fuel s = some (a, t)) :
    ∃ u : Sketch, x.run (runRule script fuel) fuel s.fresh = some (a, u) ∧
      t = { u with parts := .node (.node kind u.parts.reverse) :: s.parts } ∧
      (u.Tidy words → Draft.wordsOfAll u.parts.reverse = Word.between words s.taken u.taken) := by
  obtain ⟨u, hu, rfl⟩ := run_within_iff.1 hrun
  exact ⟨u, hu, rfl, fun htidy => hs.fresh.words_of_run hu htidy⟩

theorem Stands.fresh (h : Stands words line st m s) : Stands words line st.inside m s.fresh :=
  ⟨h.sees, h.tidy.fresh, fun _ _ _ _ hparts => nomatch hparts⟩

/-- Words that have been taken fit after words that fit before them. -/
theorem Stays.fitsLine {ws : List Word} (h : Stays words m m' s t) (hws : FitsLine m ws) :
    FitsLine m' (ws ++ Word.between words s.taken t.taken) := by
  obtain ⟨hline, hempty⟩ := hws
  refine ⟨?_, fun hfirst => ?_⟩
  · have honLine := h.onLine
    cases hm : m.isFirst with
    | true =>
      rw [hm] at honLine
      rw [hempty hm, List.nil_append]
      exact honLine.oneLine_between
    | false =>
      rw [hm] at honLine
      exact hline.append fun w hw => honLine.of_mem_between hw
  · obtain ⟨hm, htaken⟩ := h.first hfirst
    rw [hempty hm, htaken, Word.between_self, List.append_nil]

theorem fitsLine_nil (m : Mode) : FitsLine m [] := ⟨nofun, fun _ => rfl⟩

/-- A node that fits is put before some of the parts, with others inside it. -/
theorem Stands.put {st' : Stage} {d : Draft} {before : List (Piece Draft)} {u : Sketch}
    (hs : Stands words true st m s) (hu : Stands words true st' m' u)
    (hbefore : ∀ e, .node e ∈ before → .node e ∈ s.parts)
    (hd : ∀ e, .node e ∈ d.pieces → .node e ∈ s.parts ∨ .node e ∈ u.parts)
    (hfits : FitsLine m' d.words) :
    Stands words true st m' { u with parts := .node d :: before } := by
  have hlined : d.Lined := Draft.lined_iff.2 ⟨fun _ => hfits.1, fun e he =>
    (hd e he).elim (hs.tidy.parts e) (hu.tidy.parts e)⟩
  refine ⟨hu.sees, ⟨hu.tidy.rest_eq, hu.tidy.taken_le, fun e he => ?_, hu.tidy.reports⟩,
    fun _ _ e before' hparts => ?_⟩
  · rcases List.mem_cons.1 he with he | he
    · cases he
      exact hlined
    · exact hs.tidy.parts e (hbefore e he)
  · cases hparts
    exact hfits

theorem keeps_node {kind : NodeKind} {x : Script α} (h : Keeps words fuel true st.inside m x m') :
    Keeps words fuel true st m (node kind x) m' := by
  intro s a t hrun hs
  obtain ⟨u, hu, rfl, hwords⟩ := exists_node_of_run hs.tidy hrun
  obtain ⟨hu', hstays⟩ := h s.fresh a u hu hs.fresh
  have hstays : Stays words m m' s u := ⟨(hstays rfl).onLine, (hstays rfl).first⟩
  have hfits : FitsLine m' (Draft.node kind u.parts.reverse).words := by
    rw [Draft.words, hwords hu'.tidy]
    exact hstays.fitsLine (fitsLine_nil m)
  exact ⟨hs.put hu' (fun _ => id) (fun e he => .inr (List.mem_reverse.1 he)) hfits,
    fun _ => ⟨hstays.onLine, hstays.first⟩⟩

/-- A node may be put around a node that stands on the same line. -/
theorem keeps_wrap {kind : NodeKind} {x : Script α} (h : Keeps words fuel true .inner m x m') :
    Keeps words fuel true .inner m (wrap kind x) m' := by
  intro s a t hrun hs
  obtain ⟨u, hu, rfl⟩ := run_within_iff.1 hrun
  obtain ⟨hu', hstays⟩ := h s.fresh a u hu hs.fresh
  have hstays : Stays words m m' s u := ⟨(hstays rfl).onLine, (hstays rfl).first⟩
  have hwords : Draft.wordsOfAll u.parts.reverse = Word.between words s.taken u.taken :=
    hs.tidy.fresh.words_of_run hu hu'.tidy
  have hinside (e : Draft) (he : .node e ∈ u.parts.reverse) : .node e ∈ u.parts :=
    List.mem_reverse.1 he
  refine ⟨?_, fun _ => ⟨hstays.onLine, hstays.first⟩⟩
  change Stands words true .inner m' { u with parts := Sketch.putAround kind u.parts s.parts }
  unfold Sketch.putAround
  split
  · next d before hparts =>
    refine hs.put hu' (fun e he => ?_) (fun e he => ?_) ?_
    · rw [hparts]
      exact List.mem_cons_of_mem _ he
    · rcases List.mem_cons.1 he with he | he
      · cases he
        exact .inl (by rw [hparts]; exact List.mem_cons_self)
      · exact .inr (hinside e he)
    · rw [Draft.words, hwords]
      exact hstays.fitsLine (hs.ends nofun (.inl rfl) d before hparts)
  · refine hs.put hu' (fun _ => id) (fun e he => .inr (hinside e he)) ?_
    rw [Draft.words, hwords]
    exact hstays.fitsLine (fitsLine_nil m)

/-- The node that a statement starts with stands on its line, so another one may be put around it. -/
theorem keeps_wrapped {kind : NodeKind} {x : Script α} {y : Script β}
    (hx : Keeps words fuel true .outer m (node kind x) m') (hy : Keeps words fuel true .inner m' y m'') :
    Keeps words fuel true .outer m (node kind x >>= fun _ => wrap .functionCall y) m'' := by
  intro s b v hrun hs
  obtain ⟨a, t, ht, hv⟩ := run_bind_iff.1 hrun
  obtain ⟨ht', hstays⟩ := hx s a t ht hs
  obtain ⟨u, hu, rfl, hwords⟩ := exists_node_of_run hs.tidy ht
  have hinner : Stands words true .inner m'
      { u with parts := .node (.node kind u.parts.reverse) :: s.parts } := by
    refine ⟨ht'.sees, ht'.tidy, fun _ _ d before hparts => ?_⟩
    cases hparts
    have hnode := (Draft.lined_iff.1 (ht'.tidy.parts _ List.mem_cons_self)).2
    have hutidy : u.Tidy words := ⟨ht'.tidy.rest_eq, ht'.tidy.taken_le,
      fun e he => hnode e (List.mem_reverse.2 he), ht'.tidy.reports⟩
    have hfits := (hstays rfl).fitsLine (fitsLine_nil m)
    rwa [List.nil_append, ← hwords hutidy] at hfits
  obtain ⟨hv', hstays'⟩ := keeps_wrap hy _ b v hv hinner
  exact ⟨⟨hv'.sees, hv'.tidy, fun hst => absurd rfl hst⟩,
    fun hline => (hstays hline).trans (hstays' hline)⟩

/-! ### Stretches that are no nodes -/

theorem keeps_within {scope : Scope} {x : Script α}
    (hbegin : ∀ s : Sketch, (Machine.begin s scope).2.rest = s.rest ∧
      (Machine.begin s scope).2.taken = s.taken ∧ (Machine.begin s scope).2.parts = s.parts ∧
      (Machine.begin s scope).2.reports = s.reports)
    (hleave : ∀ (t : Sketch) mark, (Machine.leave t mark scope).rest = t.rest ∧
      (Machine.leave t mark scope).taken = t.taken ∧ (Machine.leave t mark scope).parts = t.parts ∧
      (Machine.leave t mark scope).reports = t.reports)
    (h : ∀ (s : Sketch) (a : α) (t : Sketch),
      x.run (runRule script fuel) fuel (Machine.begin s scope).2 = some (a, t) →
      Stands words line st m (Machine.begin s scope).2 → Stands words line st m' t ∧
        (line → Stays words m m' (Machine.begin s scope).2 t)) :
    Keeps words fuel line st m (within scope x) m' := by
  intro s a t hrun hs
  obtain ⟨u, hu, rfl⟩ := run_within_iff.1 hrun
  obtain ⟨hrest, htaken, hparts, hreports⟩ := hbegin s
  obtain ⟨hrest', htaken', hparts', hreports'⟩ := hleave u (Machine.begin s scope).1
  have hstart := hs.still ⟨rfl, rfl⟩ (hs.sees.of_rest hrest)
    (hs.tidy.transfer hrest htaken hparts hreports) hparts
  obtain ⟨hu', hstays⟩ := h s a u hu hstart
  refine ⟨hu'.still ⟨rfl, rfl⟩ (hu'.sees.of_rest hrest')
    (hu'.tidy.transfer hrest' htaken' hparts' hreports') hparts', fun hline => ?_⟩
  exact (Stays.still ⟨rfl, rfl⟩ htaken).trans ((hstays hline).trans (.still ⟨rfl, rfl⟩ htaken'))

theorem keeps_nested {x : Script α} (h : Keeps words fuel line st m x m') :
    Keeps words fuel line st m (within .nested x) m' :=
  keeps_within (fun _ => ⟨rfl, rfl, rfl, rfl⟩) (fun _ _ => ⟨rfl, rfl, rfl, rfl⟩) fun _ => h _

theorem keeps_stopAt {kinds : List TokenKind} {x : Script α} (h : Keeps words fuel line st m x m') :
    Keeps words fuel line st m (within (.stopAt kinds) x) m' :=
  keeps_within (fun _ => ⟨rfl, rfl, rfl, rfl⟩) (fun _ _ => ⟨rfl, rfl, rfl, rfl⟩) fun _ => h _

/-- Stages differ only in what surrounds the open node. -/
theorem Keeps.stage {st' : Stage} {x : Script α} (hst : st ≠ .outer) (hst' : st' ≠ .outer)
    (h : Keeps words fuel line st m x m') : Keeps words fuel line st' m x m' := by
  intro s a t hrun hs
  obtain ⟨ht, hstays⟩ := h s a t hrun ⟨hs.sees, hs.tidy, fun _ => hs.ends hst'⟩
  exact ⟨⟨ht.sees, ht.tidy, fun _ => ht.ends hst⟩, hstays⟩

/-- In a measured stretch edges are counted from its start. -/
theorem keeps_measured {x : Script α} (h : ∀ (s : Sketch) (a : α) (t : Sketch),
      x.run (runRule script fuel) fuel s = some (a, t) → s.origin = s.taken →
      Stands words line .measured m s →
      Stands words line .measured m' t ∧ (line → Stays words m m' s t)) :
    Keeps words fuel line .inner m (within .measured x) m' := by
  have hmeasured : Keeps words fuel line .measured m (within .measured x) m' :=
    keeps_within (fun _ => ⟨rfl, rfl, rfl, rfl⟩) (fun _ _ => ⟨rfl, rfl, rfl, rfl⟩)
      fun _ a t hrun => h _ a t hrun rfl
  exact hmeasured.stage (by decide) (by decide)

/-! ### Lines -/

/-- Problems do not matter to what stays on a line. -/
theorem Keeps.live {l' b' l₁ b₁ : Bool} {x : Script α}
    (h : Keeps words fuel line st (.live l b) x (.live l' b')) (l₂ b₂ : Bool) :
    Keeps words fuel line st (.live l₁ b₁) x (.live l₂ b₂) := by
  intro s a t hrun hs
  obtain ⟨ht, hstays⟩ := h s a t hrun (hs.still ⟨rfl, rfl⟩ trivial hs.tidy rfl)
  have hbefore : Stays words (.live l₁ b₁) (.live l b) s s := .still ⟨rfl, rfl⟩ rfl
  have hbehind : Stays words (.live l' b') (.live l₂ b₂) t t := .still ⟨rfl, rfl⟩ rfl
  exact ⟨ht.still ⟨rfl, rfl⟩ trivial ht.tidy rfl, fun hline =>
    (hbefore.trans (hstays hline)).trans hbehind⟩

theorem keeps_statementEnds : Keeps words fuel line st m statementEnds m := by
  refine keeps_askAny fun o => ?_
  have hstop : Keeps words fuel line st m (atStop >>= pure) m := keeps_askAny keeps_pure
  split
  · exact keeps_pure _
  · exact hstop

theorem keeps_lineEnd : Keeps words fuel true st (.live l b) lineEnd (.live true b) := by
  have hlisten : Keeps words fuel true st (.live l b) listen (.live true b) :=
    keeps_steps.listen_live
  have hskip : Keeps words fuel true st (.live l b) (do node .errorNode takeLine; listen)
      (.live true b) :=
    keeps_bind ((keeps_node keeps_steps.takeLine).live l b) fun _ => hlisten
  refine keeps_bind keeps_statementEnds fun ends => ?_
  cases ends with
  | true => exact hlisten
  | false =>
    refine keeps_askAny fun o => ?_
    split
    · exact hskip
    · exact hskip
    · exact keeps_bind (keeps_steps.post .blamed (keeps_steps.report_live rfl)) fun _ => hskip

/-- Scripts follow the rules for lines, if calls of expressions do. -/
theorem keeps_lineRules (hexpression : ∀ {l b : Bool} power,
    Keeps words fuel true .inner (.live l b) (expressionFrom power) (.live false b)) :
    LineRules fun st m x m' => Keeps words fuel true st m x m' where
  toStepRules := keeps_steps
  measured_of_inner h := h.stage (by decide) (by decide)
  here := keeps_askAny
  behind := keeps_askAny
  node _ := keeps_node
  number h := (keeps_node h : Keeps words fuel true .inner _ (oneWord .numberLiteral) _)
  wrap := keeps_wrap
  wrapped := keeps_wrapped
  nested := keeps_nested
  measured h := keeps_measured fun s a t hrun _ => h s a t hrun
  error {_ st s b m x} h := by
    intro u a t hrun hu
    obtain ⟨ht, hstays⟩ := h u a t hrun (hu.still ⟨rfl, rfl⟩ hu.sees hu.tidy rfl)
    have hsame : Stays words (.word s b .error) (.word s true .error) u u := .still ⟨rfl, rfl⟩ rfl
    exact ⟨ht, fun hline => hsame.trans (hstays hline)⟩
  expression := hexpression
  lineEnd := keeps_lineEnd

theorem keeps_skipDeepExpression :
    Keeps words fuel true .inner (.live l b) skipDeepExpression (.live false b) := by
  have hsilence : Keeps words fuel true .inner (.live l b) silence (.live l b) := by
    intro s u t hrun hs
    obtain rfl : t = s.perform .silence := run_act_iff.1 hrun
    exact ⟨hs.still ⟨rfl, rfl⟩ trivial hs.tidy.silence rfl, fun _ => .still ⟨rfl, rfl⟩ rfl⟩
  have hreport : Keeps words fuel true .inner (.live l b) (report .here .nestingTooDeep)
      (.live l b) := keeps_steps.post .blamed (keeps_steps.report_live rfl)
  refine keeps_bind hreport fun _ => keeps_node ?_
  exact keeps_bind hsilence fun _ => keeps_steps.takeLine.live false b

theorem keeps_operationRules (hexpression : ∀ {l b : Bool} power,
    Keeps words fuel true .inner (.live l b) (expressionFrom power) (.live false b)) :
    OperationRules fun st m x m' => Keeps words fuel true st m x m' where
  toLineRules := keeps_lineRules hexpression
  unary {_ _ _ x} h :=
    (keeps_node h : Keeps words fuel true .inner _ (Script.node .unaryExpr x) _)
  binary hk := keeps_wrap (walk_operation (keeps_lineRules hexpression) hk)
  skipDeepExpression := keeps_skipDeepExpression

/-- A call of a rule keeps what the script of the rule keeps on less fuel. -/
theorem keeps_call {rule : Rule} (h : Keeps words fuel line st m (script rule) m') :
    Keeps words (fuel + 1) line st m (.call rule .done) m' :=
  fun s _ t hrun hs => h s () t (run_of_runRule (run_call_iff.1 hrun)) hs

theorem keeps_callOfNone {rule : Rule} : Keeps words 0 line st m (.call rule .done) m' := by
  intro s u t hrun
  cases run_call_iff.1 hrun

theorem keeps_expression (power : Nat) :
    Keeps words fuel true .inner (.live l b) (expressionFrom power) (.live false b) := by
  induction fuel generalizing l b power with
  | zero => exact keeps_callOfNone
  | succ fuel ih =>
    exact keeps_call (walk_expressionRule (keeps_operationRules fun power => ih power) power)

/-- Scripts that stand on one line stay on it. -/
theorem keeps_lines : LineRules fun st m x m' => Keeps words fuel true st m x m' :=
  keeps_lineRules fun power => keeps_expression power

theorem keeps_texts : TextRules fun st m x m' => Keeps words fuel true st m x m' where
  toLineRules := keeps_lines
  text := keeps_askAny

end Rules

end Grammar

end CRBasic
