import CRBasic.Proofs.Embedding.Lines

/-!
# Names before an assignment operator

Whether a statement is an assignment is found out before its parts are read, by a search for an
assignment operator outside parentheses.  The search passes over every name that is read without a
problem, with its argument list (`nameReference_passes`): parentheses are closed where they were
opened, and no word that ends a block is taken.
-/

namespace CRBasic

namespace Word

/-- A search for an assignment operator, inside so many parentheses, passes over some words. -/
def Passed (depth : Nat) (ws : List Word) : Prop :=
  ∀ (isStop : TokenKind → Bool) (rest : List Word), (∀ k, isStop k → k.closes) →
    assignsBefore isStop depth (ws ++ rest) = assignsBefore isStop depth rest

variable {depth : Nat} {ws vs : List Word} {w v : Word}

theorem Passed.append (hws : Passed depth ws) (hvs : Passed depth vs) : Passed depth (ws ++ vs) := by
  intro isStop rest hstop
  rw [List.append_assoc, hws isStop _ hstop, hvs isStop _ hstop]

theorem passed_single (hw : w.kind ≠ .lParen ∧ w.kind ≠ .rParen)
    (hdepth : 0 < depth ∨ (w.kind.closes = false ∧ w.kind.isAssignment = false)) :
    Passed depth [w] := by
  intro isStop rest hstop
  rw [List.singleton_append, assignsBefore, if_neg hw.1, if_neg hw.2]
  rcases hdepth with hdepth | ⟨hcloses, hassignment⟩
  · have hne : depth ≠ 0 := by omega
    simp [hne]
  · have hnot : isStop w.kind = false := by
      refine Bool.eq_false_iff.2 fun h => ?_
      rw [hstop _ h] at hcloses
      cases hcloses
    simp [hassignment, hnot]

/-- Words that are passed over inside parentheses are passed over with the parentheses. -/
theorem passed_enclosed (hw : w.kind = .lParen) (hv : v.kind = .rParen)
    (hws : Passed (depth + 1) ws) : Passed depth (w :: (ws ++ [v])) := by
  intro isStop rest hstop
  rw [List.cons_append, List.append_assoc, assignsBefore, if_pos hw, hws isStop _ hstop,
    List.singleton_append, assignsBefore, hv, if_neg nofun, if_pos rfl, Nat.add_sub_cancel]

end Word

namespace Grammar

open Parsing Parsing.Script

/-- From one sketch to a later one, words of one line are taken that a search passes over: anywhere,
or only inside parentheses. -/
def Passes (deep : Bool) (s t : Sketch) : Prop :=
  ∃ ws, s.rest = ws ++ t.rest ∧ (∀ w ∈ ws, w.startsLine = false) ∧
    ∀ depth, (deep → 0 < depth) → Word.Passed depth ws

/-- A run of a script that finds no problem takes only words that a search passes over.  The word that
is next on the line may be known. -/
def Skims (fuel : Nat) (deep : Bool) (next? : Option TokenKind) {α : Type} (x : Script α) : Prop :=
  ∀ (s : Sketch) (a : α) (t : Sketch), x.run (runRule script fuel) fuel s = some (a, t) →
    t.reports = #[] → s.silenced = false → (∀ k ∈ next?, s.onLine = some k) →
      t.silenced = false ∧ Passes deep s t

section Skims

variable {fuel : Nat} {deep : Bool} {α β : Type} {next? : Option TokenKind}
  {s t u : Sketch} {k : TokenKind}

/-! ### Built up -/

theorem passes_of_rest (h : t.rest = s.rest) : Passes deep s t :=
  ⟨[], h.symm, by simp, fun _ _ _ _ _ => rfl⟩

theorem Passes.trans (hst : Passes deep s t) (htu : Passes deep t u) : Passes deep s u := by
  obtain ⟨ws, hs, hws, hpassed⟩ := hst
  obtain ⟨vs, ht, hvs, hpassed'⟩ := htu
  refine ⟨ws ++ vs, by rw [hs, ht, List.append_assoc], fun w hw => ?_, fun depth hdepth =>
    (hpassed depth hdepth).append (hpassed' depth hdepth)⟩
  exact (List.mem_append.1 hw).elim (hws w) (hvs w)

theorem Passes.deepen (h : Passes false s t) : Passes deep s t := by
  obtain ⟨ws, hs, hws, hpassed⟩ := h
  exact ⟨ws, hs, hws, fun depth _ => hpassed depth nofun⟩

theorem Passes.of_rest {s' t' : Sketch} (h : Passes deep s t) (hs : s'.rest = s.rest)
    (ht : t'.rest = t.rest) : Passes deep s' t' := by
  obtain ⟨ws, hrest, hws, hpassed⟩ := h
  exact ⟨ws, by rw [hs, ht, hrest], hws, hpassed⟩

theorem skims_pure (a : α) : Skims fuel deep next? (pure a) := by
  intro s b t hrun _ hs _
  obtain ⟨-, rfl⟩ := run_pure_iff.1 hrun
  exact ⟨hs, passes_of_rest rfl⟩

theorem skims_bind {x : Script α} {f : α → Script β} (hx : Skims fuel deep next? x)
    (hf : ∀ a, Skims fuel deep none (f a)) : Skims fuel deep next? (x >>= f) := by
  intro s c u hrun hu hs hm
  obtain ⟨a, t, ht, hrun⟩ := run_bind_iff.1 hrun
  have hreports := (Sketch.goesOn_of_run hrun).reports_eq_nil hu
  obtain ⟨ht, hst⟩ := hx s a t ht hreports hs hm
  obtain ⟨hu, htu⟩ := hf a t c u hrun hu ht nofun
  exact ⟨hu, hst.trans htu⟩

/-- What is judged anywhere is judged at a word that is seen. -/
theorem Skims.seen {x : Script α} (h : Skims fuel deep none x) : Skims fuel deep next? x :=
  fun s a t hrun ht hs _ => h s a t hrun ht hs nofun

theorem skims_ask {q : Query α} {f : α → Script β} (h : ∀ a, Skims fuel deep next? (f a)) :
    Skims fuel deep next? (.ask q .done >>= f) :=
  fun s b t hrun ht hs hm => h _ s b t hrun ht hs hm

theorem skims_onLine {f : Option TokenKind → Script α}
    (hnone : Skims fuel deep none (f none))
    (hsome : ∀ k, Skims fuel deep (some k) (f (some k))) :
    Skims fuel deep none (onLine >>= f) := by
  intro s a t hrun ht hs _
  rw [onLine, run_ask_bind, answer_onLine] at hrun
  cases h : s.onLine with
  | none =>
    rw [h] at hrun
    exact hnone s a t hrun ht hs (by simp)
  | some k =>
    rw [h] at hrun
    exact hsome k s a t hrun ht hs (by simpa using h)

/-- Where no problem is found there is no report. -/
theorem skims_report {place : Place} {cause : Cause} {f : Unit → Script α} :
    Skims fuel deep next? (report place cause >>= f) :=
  fun _ _ _ hrun ht hs _ => absurd ht (Sketch.reports_ne_nil hs hrun)

theorem skims_within {scope : Scope} {x : Script α} (h : Skims fuel deep next? x) :
    Skims fuel deep next? (within scope x) := by
  intro s a t hrun ht hs hm
  obtain ⟨u, hu, rfl⟩ := run_within_iff.1 hrun
  obtain ⟨hrest, -, hsilenced, -⟩ := begin_same s scope
  obtain ⟨hrest', -, hsilenced', hreports'⟩ := leave_same u (Machine.begin s scope).1 scope
  rw [hreports'] at ht
  have honLine : (Machine.begin s scope).2.onLine = s.onLine := by
    rw [Reading.onLine, hrest, Reading.onLine]
  obtain ⟨hu, hpasses⟩ := h _ a u hu ht (hsilenced.trans hs) (honLine ▸ hm)
  exact ⟨hsilenced'.trans hu, hpasses.of_rest hrest.symm hrest'⟩

theorem skims_collect {item : Script (Option β)} (h : Skims fuel deep none item) :
    Skims fuel deep none (collect item) := by
  intro s bs t hrun ht hs _
  rw [run_collect_iff] at hrun
  refine repeatStep_induction (P := fun _ (s : Sketch) _ (t : Sketch) => t.reports = #[] →
    s.silenced = false → t.silenced = false ∧ Passes deep s t) ?_ ?_ hrun ht hs
  · exact fun _ s t hst ht hs => h s none t hst ht hs nofun
  · intro _ s b u _ t hsu hut ih ht hs
    have hreports := (Sketch.goesOn_of_rounds hut).reports_eq_nil ht
    obtain ⟨hu, hsu⟩ := h s (some b) u hsu hreports hs nofun
    obtain ⟨ht, hut⟩ := ih ht hu
    exact ⟨ht, hsu.trans hut⟩

/-! ### Words -/

theorem exists_onLine_word (h : s.onLine = some k) :
    ∃ w ws, s.rest = w :: ws ∧ w.kind = k ∧ w.startsLine = false := by
  rw [Reading.onLine] at h
  split at h
  · cases h
  · next w ws hrest =>
    split at h
    · cases h
    · next hw => exact ⟨w, ws, hrest, Option.some.inj h, Bool.eq_false_iff.2 hw⟩

theorem passes_take (h : s.onLine = some k) (hk : k ≠ .lParen ∧ k ≠ .rParen)
    (hdeep : deep = true ∨ (k.closes = false ∧ k.isAssignment = false)) : Passes deep s s.take := by
  obtain ⟨w, ws, hrest, rfl, hw⟩ := exists_onLine_word h
  rw [Sketch.take_eq hrest]
  refine ⟨[w], hrest, by simpa using hw, fun depth hdepth => Word.passed_single hk ?_⟩
  exact hdeep.imp_left hdepth

theorem skims_take (hk : k ≠ .lParen ∧ k ≠ .rParen)
    (hdeep : deep = true ∨ (k.closes = false ∧ k.isAssignment = false)) :
    Skims fuel deep (some k) take := by
  intro s u t hrun _ hs hm
  obtain rfl := run_act_iff.1 hrun
  obtain ⟨w, ws, hrest, -, -⟩ := exists_onLine_word (hm k rfl)
  refine ⟨?_, passes_take (hm k rfl) hk hdeep⟩
  change s.take.silenced = false
  rw [Sketch.take_eq hrest]
  exact hs

theorem skims_eatThen {kind : TokenKind} {f : Bool → Script α}
    (hk : kind ≠ .lParen ∧ kind ≠ .rParen)
    (hdeep : deep = true ∨ (kind.closes = false ∧ kind.isAssignment = false))
    (htrue : Skims fuel deep none (f true)) (hfalse : Skims fuel deep none (f false)) :
    Skims fuel deep none (eat kind >>= f) := by
  rw [eat, LawfulMonad.bind_assoc]
  refine skims_onLine hfalse fun k => ?_
  split
  · next hkind =>
    obtain rfl : k = kind := by simpa using hkind
    rw [LawfulMonad.bind_assoc]
    exact skims_bind (skims_take hk hdeep) fun _ => htrue
  · exact hfalse.seen

/-- A word that is wanted is on the line, if no problem is found. -/
theorem run_want {kind : TokenKind} {v : Unit} (hs : s.silenced = false) (ht : t.reports = #[])
    (hrun : (want kind).run (runRule script fuel) fuel s = some (v, t)) :
    s.onLine = some kind ∧ t = s.take := by
  obtain ⟨c, u, hu, hrun⟩ := run_bind_iff.1 hrun
  obtain ⟨-, rfl⟩ := run_pure_iff.1 hrun
  rw [expect, eat, LawfulMonad.bind_assoc, onLine, run_ask_bind, answer_onLine] at hu
  split at hu
  · next hkind => exact ⟨by simpa using hkind, (run_pure_iff.1 hu).2⟩
  · have htake : t = s.perform (.report .here (.missing kind)) := (run_pure_iff.1 hu).2
    rw [htake] at ht
    change (s.toReading.report .here (.missing kind)).reports = #[] at ht
    simp [Reading.report, hs] at ht

theorem want_puts {kind : TokenKind} {v : Unit} (hs : s.silenced = false) (ht : t.reports = #[])
    (hrun : (want kind).run (runRule script fuel) fuel s = some (v, t)) :
    ∃ w, w.kind = kind ∧ t.parts = .word w :: s.parts := by
  obtain ⟨hk, rfl⟩ := run_want hs ht hrun
  obtain ⟨w, ws, hrest, hw⟩ := rest_of_onLine hk
  exact ⟨w, hw, by rw [Sketch.take_eq hrest]⟩

/-! ### Parentheses -/

/-- A run of a script that finds no problem goes on to the end of the parentheses around. -/
def Closes (fuel : Nat) (x : Script α) : Prop :=
  ∀ (s : Sketch) (a : α) (t : Sketch), x.run (runRule script fuel) fuel s = some (a, t) →
    t.reports = #[] → s.silenced = false → t.silenced = false ∧
      ∃ u : Sketch, ∃ w, Passes true s u ∧ u.rest = w :: t.rest ∧ w.kind = .rParen ∧
        w.startsLine = false

theorem closes_bind {x : Script α} {f : α → Script β} (hx : Skims fuel true none x)
    (hf : ∀ a, Closes fuel (f a)) : Closes fuel (x >>= f) := by
  intro s b t hrun ht hs
  obtain ⟨a, u, hu, hrun⟩ := run_bind_iff.1 hrun
  have hreports := (Sketch.goesOn_of_run hrun).reports_eq_nil ht
  obtain ⟨huloud, hsu⟩ := hx s a u hu hreports hs nofun
  obtain ⟨htloud, v, w, huv, h⟩ := hf a u b t hrun ht huloud
  exact ⟨htloud, v, w, hsu.trans huv, h⟩

theorem closes_ask {q : Query α} {f : α → Script β} (h : ∀ a, Closes fuel (f a)) :
    Closes fuel (.ask q .done >>= f) :=
  fun s b t hrun ht hs => h _ s b t hrun ht hs

/-- The end of the parentheses, after which no word is taken. -/
theorem closes_want {f : Unit → Script α} (hf : ∀ (s : Sketch) (a : α) (t : Sketch),
    (f ()).run (runRule script fuel) fuel s = some (a, t) → t = s) :
    Closes fuel (want .rParen >>= f) := by
  intro s a t hrun ht hs
  obtain ⟨_, u, hu, hrun⟩ := run_bind_iff.1 hrun
  obtain rfl := hf u a t hrun
  obtain ⟨hk, rfl⟩ := run_want hs ht hu
  obtain ⟨w, ws, hrest, hw, hline⟩ := exists_onLine_word hk
  rw [Sketch.take_eq hrest]
  exact ⟨hs, s, w, passes_of_rest rfl, hrest, hw, hline⟩

/-- Parentheses are passed over with what is between them. -/
theorem skims_enclosed {x : Script α} (h : Closes fuel x) :
    Skims fuel deep (some .lParen) (take >>= fun _ => x) := by
  intro s a t hrun ht hs hm
  obtain ⟨w, ws, hrest, hw, hline⟩ := exists_onLine_word (hm _ rfl)
  obtain ⟨_, s', hs', hrun⟩ := run_bind_iff.1 hrun
  have htake : s' = { s with rest := ws, taken := s.taken + 1, parts := .word w :: s.parts } :=
    (run_act_iff.1 hs').trans (Sketch.take_eq hrest)
  have hs'loud : s'.silenced = false := by rw [htake, hs]
  obtain ⟨htloud, u, v, ⟨vs, hvs, hvsline, hpassed⟩, hu, hv, hvline⟩ := h s' a t hrun ht hs'loud
  refine ⟨htloud, w :: (vs ++ [v]), ?_, ?_, fun depth _ => Word.passed_enclosed hw hv ?_⟩
  · have hws : ws = vs ++ u.rest := by rw [← hvs, htake]
    rw [hrest, hws, hu]
    simp
  · simpa [hline, hvline, or_imp, forall_and] using hvsline
  · exact hpassed (depth + 1) fun _ => Nat.succ_pos depth

/-! ### Names and expressions -/

/-- The names of a name after its dots. -/
theorem skims_dots : Skims fuel false none (do
    let _ ← collect (do
      if ← eat .dot then
        if ← eat .ident then return some ()
        else
          report .here (.missingPart .nameAfterDot)
          return none
      else return none)) := by
  refine skims_bind (skims_collect ?_) fun _ => skims_pure ()
  refine skims_eatThen ⟨nofun, nofun⟩ (.inr ⟨rfl, rfl⟩) ?_ (skims_pure _)
  exact skims_eatThen ⟨nofun, nofun⟩ (.inr ⟨rfl, rfl⟩) (skims_pure _) skims_report

/-- Calls of expressions skim, inside parentheses. -/
def CallsSkim (fuel : Nat) : Prop := ∀ power, Skims fuel true none (expressionFrom power)

section Calls

variable (hcalls : CallsSkim fuel)
include hcalls

theorem skims_argument : Skims fuel true none argument :=
  skims_ask fun _ => skims_ask fun _ => skims_ask fun _ =>
    skims_bind (hcalls 0) fun _ => skims_ask fun _ => skims_pure _

theorem skims_separated : Skims fuel true none (separated argument) := by
  refine skims_bind (skims_argument hcalls) fun a => skims_bind (skims_collect ?_) fun as => skims_pure _
  refine skims_eatThen ⟨nofun, nofun⟩ (.inl rfl) ?_ (skims_pure _)
  exact skims_bind (skims_argument hcalls) fun a => skims_pure _

theorem skims_arguments : Skims fuel false (some .lParen) arguments := by
  have hend (start : Edge) (items : List Argument) : Closes fuel (do
      want .rParen
      let stop ← behind
      return (⟨start, stop, items⟩ : Arguments)) :=
    closes_want fun s a t hrun => (run_pure_iff.1 hrun).2
  have hlist : Skims fuel false (some .lParen) argumentList := by
    refine skims_within (skims_ask fun start => skims_enclosed (closes_ask fun o => ?_))
    split
    · exact closes_bind (skims_pure []) fun items => hend start items
    · exact closes_bind (skims_separated hcalls) fun items => hend start items
  exact skims_within (skims_bind hlist fun _ => skims_pure _)

/-- After its first word, a name that is read without a problem is passed over. -/
theorem nameReference_passes {w : Word} {ws : List Word} {v : Unit}
    (hrun : nameReference.run (runRule script fuel) fuel s = some (v, t)) (ht : t.reports = #[])
    (hs : s.silenced = false) (hrest : s.rest = w :: ws) :
    t.silenced = false ∧ Passes false s.take t := by
  have hcall : Skims fuel false none (do
      if (← onLine) == some .lParen then wrap .functionCall arguments) := by
    refine skims_onLine (skims_pure ()) fun k => ?_
    split
    · next hk =>
      obtain rfl : k = .lParen := by simpa using hk
      exact skims_within (skims_arguments hcalls)
    · exact skims_pure ()
  obtain ⟨_, u, hu, hrun⟩ := run_bind_iff.1 hrun
  have hreports := (Sketch.goesOn_of_run hrun).reports_eq_nil ht
  obtain ⟨u', hu', rfl⟩ := run_within_iff.1 hu
  obtain ⟨_, s', hs', hdots⟩ := run_bind_iff.1 hu'
  have htake : s' = { s with rest := ws, taken := s.taken + 1, parts := [.word w] } :=
    (run_act_iff.1 hs').trans (Sketch.take_eq (s := s.fresh) hrest)
  obtain ⟨huloud, hpasses⟩ := skims_dots s' _ u' hdots hreports (by rw [htake, hs]) nofun
  obtain ⟨htloud, hpasses'⟩ := hcall _ v t hrun ht huloud nofun
  refine ⟨htloud, Passes.trans (t := u') (hpasses.of_rest ?_ rfl) (hpasses'.of_rest rfl rfl)⟩
  rw [Sketch.take_eq hrest, htake]

theorem skims_operand : Skims fuel true none operand := by
  have hnode {k : TokenKind} {kind : NodeKind} (hk : k ≠ .lParen ∧ k ≠ .rParen) :
      Skims fuel true (some k) (oneWord kind >>= fun _ => pure true) :=
    skims_bind (skims_within (skims_take hk (.inl rfl))) fun _ => skims_pure true
  refine skims_onLine skims_report fun k => ?_
  split
  · next hk => cases hk; exact hnode ⟨nofun, nofun⟩
  · next hk => cases hk; exact hnode ⟨nofun, nofun⟩
  · next hk => cases hk; exact hnode ⟨nofun, nofun⟩
  · next hk => cases hk; exact hnode ⟨nofun, nofun⟩
  · next hk => cases hk; exact hnode ⟨nofun, nofun⟩
  · next hk =>
    cases hk
    refine skims_bind (fun s v t hrun ht hs hm => ?_) fun _ => skims_pure true
    obtain ⟨w, ws, hrest, hw, hline⟩ := exists_onLine_word (hm _ rfl)
    obtain ⟨htloud, hpasses⟩ := nameReference_passes hcalls hrun ht hs hrest
    have hname : Passes false s s.take := passes_take (hm _ rfl) ⟨nofun, nofun⟩ (.inr ⟨rfl, rfl⟩)
    exact ⟨htloud, (hname.trans hpasses).deepen⟩
  · next hk =>
    cases hk
    refine skims_bind (skims_within (skims_enclosed ?_)) fun _ => skims_pure true
    have hclose : Closes fuel (want .rParen >>= pure) :=
      closes_want fun s a t hrun => (run_pure_iff.1 hrun).2
    rw [bind_pure] at hclose
    exact closes_bind (hcalls 0) fun _ => hclose
  · exact skims_report

theorem skims_operators (power : Nat) : Skims fuel true none (operators power) := by
  refine skims_bind (skims_collect (skims_onLine (skims_pure none) fun k => ?_)) fun _ => skims_pure ()
  rw [Option.bind_some]
  split
  · exact skims_pure none
  · next hpower =>
    have hk : k ≠ .lParen ∧ k ≠ .rParen := by constructor <;> rintro rfl <;> cases hpower
    split
    · exact skims_pure none
    · refine skims_bind (skims_within ?_) fun _ => skims_pure _
      exact skims_bind (skims_take hk (.inl rfl)) fun _ => hcalls _

theorem skims_expressionRule (power : Nat) : Skims fuel true none (expressionRule power) := by
  have hplain : Skims fuel true none (do if ← operand then operators power) := by
    refine skims_bind (skims_operand hcalls) fun c => ?_
    split
    · exact skims_operators hcalls power
    · exact skims_pure ()
  refine skims_ask fun deep => ?_
  split
  · exact skims_report
  · refine skims_within (skims_onLine hplain fun k => ?_)
    rw [Option.bind_some]
    split
    · next hpower =>
      have hk : k ≠ .lParen ∧ k ≠ .rParen := by constructor <;> rintro rfl <;> cases hpower
      refine skims_bind (skims_within ?_) fun _ => skims_operators hcalls power
      exact skims_bind (skims_take hk (.inl rfl)) fun _ => hcalls _
    · exact hplain.seen

end Calls

theorem callsSkim (fuel : Nat) : CallsSkim fuel := by
  induction fuel with
  | zero =>
    intro power s v t hrun
    cases run_call_iff.1 hrun
  | succ fuel ih =>
    intro power s v t hrun
    exact skims_expressionRule ih power s () t (run_of_runRule (run_call_iff.1 hrun))

/-- A statement that is read as an assignment without a problem is found to be one, whatever words end
the blocks around it. -/
theorem assignsBefore_of_run {isStop : TokenKind → Bool} {v : Unit} (hk : s.current = some .ident)
    (hs : s.silenced = false) (hstop : ∀ k, isStop k → k.closes)
    (hrun : assignmentStatement.run (runRule script fuel) fuel s = some (v, t))
    (ht : t.reports = #[]) : Word.assignsBefore isStop 0 (Word.line s.rest) = true := by
  obtain ⟨w, ws, hrest, hw⟩ := Reading.exists_rest hk
  obtain ⟨u, hu, rfl⟩ := run_within_iff.1 hrun
  obtain ⟨_, s', hname, hrun⟩ := run_bind_iff.1 hu
  have hreports := (Sketch.goesOn_of_run hrun).reports_eq_nil ht
  obtain ⟨hloud, vs, hvs, hvsline, hpassed⟩ :=
    nameReference_passes (callsSkim fuel) hname hreports hs (s := s.fresh) hrest
  rw [Sketch.take_eq (s := s.fresh) hrest] at hvs
  rw [onLine, run_ask_bind, answer_onLine] at hrun
  split at hrun
  · next hassignment =>
    obtain ⟨k, hk, hassignment⟩ := (Option.any_eq_true _ _).1 hassignment
    obtain ⟨x, xs, hx, rfl, hxline⟩ := exists_onLine_word hk
    have hline : Word.line s.rest = [w] ++ (vs ++ x :: xs.takeWhile (!·.startsLine)) := by
      have hws : ws = vs ++ x :: xs := by rw [← hx, ← hvs]
      rw [hrest, Word.line, hws, List.takeWhile_append_of_pos (by simpa using hvsline),
        List.takeWhile_cons, hxline]
      rfl
    have hparen : x.kind ≠ .lParen ∧ x.kind ≠ .rParen := by
      constructor <;> intro h <;> rw [h] at hassignment <;> cases hassignment
    have hfirst : Word.Passed 0 [w] :=
      Word.passed_single (by rw [hw]; decide) (.inr (by rw [hw]; exact ⟨rfl, rfl⟩))
    rw [hline, hfirst isStop _ hstop, hpassed 0 Bool.noConfusion isStop _ hstop, Word.assignsBefore,
      if_neg hparen.1, if_neg hparen.2, hassignment]
    rfl
  · have hu : u.reports = #[] := ht
    exact absurd hu (Sketch.reports_ne_nil (f := fun _ => do expression; lineEnd) hloud hrun)

end Skims

end Grammar

end CRBasic
