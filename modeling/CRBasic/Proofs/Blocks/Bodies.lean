import CRBasic.Proofs.Blocks.Ends

/-!
# Bodies lay down blocks

What is on one line lays down parts whether it is heard or not.  What goes over several lines does so
where it is heard (`Builds`): the bodies of blocks and their branches lay down parts, if statements do.
-/

namespace CRBasic

namespace Grammar

open Parsing Parsing.Script Draft

/-- The kind of the next word that a mode tells. -/
def Mode.kind? : Mode → Option TokenKind
  | .word _ _ k | .pair k _ | .seeing _ _ k => some k
  | .live _ _ | .body => none

/-- Where a text is heard, every run of a script lays down some parts.  If it finds no problem, its
result and the parts are as told. -/
def Builds (fuel total : Nat) (K : NodeKind) (st : Stage) (m : Mode) {α : Type} (x : Script α)
    (Q : α → List (Piece Draft) → Prop) : Prop :=
  ∀ (s : Sketch) (a : α) (t : Sketch), x.run (runRule script fuel) fuel s = some (a, t) →
    Heard total st m s → ∃ ps, Laid K false s t ps ∧ (Clean s.toReading t.toReading → Q a ps)

/-- A script leads from one mode to another where a text is heard. -/
abbrev Hears (fuel total : Nat) {α : Type} (st : Stage) (m : Mode) (x : Script α) (m' : Mode) : Prop :=
  Alike .alone total (fun _ => False) fuel st m x m'

variable {fuel total : Nat} {K kind : NodeKind} {α β : Type} {st : Stage} {m m' : Mode}
  {x : Script α} {f : α → Script β} {P Q : α → List (Piece Draft) → Prop}
  {R : β → List (Piece Draft) → Prop} {s t u : Sketch} {a : α} {b started : Bool}
  {ps qs hs : List (Piece Draft)} {k opener : TokenKind} {stops : List TokenKind}

/-! ### Rules -/

theorem Heard.knows (h : Heard total st m s) : Knows m.kind? s.toReading := by
  have hsees := h.sees
  cases m with
  | word s b k => exact fun _ hk => (Option.some.inj hk) ▸ hsees
  | pair k k' => exact fun _ hk => (Option.some.inj hk) ▸ hsees.1
  | seeing l b k => exact fun _ hk => (Option.some.inj hk) ▸ Reading.current_of_onLine hsees
  | live l b => exact nofun
  | body => exact nofun

theorem Heard.fresh (h : Heard total st m s) : Heard total st.inside m s.fresh := by
  have hinside : st.inside = .measured → st = .measured := by cases st <;> simp [Stage.inside]
  exact h.transfer_of_frames ⟨rfl, rfl, rfl, rfl⟩ rfl (h.measured ∘ hinside)

theorem builds_of_lays (h : Lays fuel K false m.kind? x Q) : Builds fuel total K st m x Q := by
  intro s a t hrun hs
  obtain ⟨ps, hps, hQ⟩ := h s a t hrun hs.knows
  exact ⟨ps, hps, hQ rfl⟩

theorem Builds.mono (h : Builds fuel total K st m x P) (hPQ : ∀ a ps, P a ps → Q a ps) :
    Builds fuel total K st m x Q := by
  intro s a t hrun hs
  obtain ⟨ps, hps, hP⟩ := h s a t hrun hs
  exact ⟨ps, hps, fun hclean => hPQ a ps (hP hclean)⟩

theorem Builds.free (h : Builds fuel total K st m x P) : Builds fuel total K st m x Free :=
  h.mono fun _ _ _ => trivial

theorem builds_pure (h : Q a []) : Builds fuel total K st m (pure a) Q :=
  builds_of_lays (lays_pure h)

theorem builds_bind (hm : Hears fuel total st m x m') (hx : Builds fuel total K st m x P)
    (hf : ∀ a, Builds fuel total K st m' (f a) fun b qs => ∀ ps, P a ps → R b (ps ++ qs)) :
    Builds fuel total K st m (x >>= f) R := by
  intro s b u hrun hs
  obtain ⟨a, t, ht, hu⟩ := run_bind_iff.1 hrun
  obtain ⟨ps, hps, hP⟩ := hx s a t ht hs
  obtain ⟨qs, hqs, hR⟩ := hf a t b u hu (Heard.of_run hm ht hs)
  refine ⟨ps ++ qs, hps.trans hqs, fun hclean => ?_⟩
  exact hR (hps.second hqs.goes rfl hclean) ps (hP (hclean.first hqs.goes))

theorem builds_seq (hm : Hears fuel total st m x m') (hx : Builds fuel total K st m x P)
    (hf : ∀ a, Builds fuel total K st m' (f a) Free) : Builds fuel total K st m (x >>= f) Free :=
  builds_bind hm hx.free fun a => (hf a).mono fun _ _ _ _ _ => trivial

/-- The parts that the first step puts are there at the end. -/
theorem builds_keep {p : Piece Draft → Prop} (hm : Hears fuel total st m x m')
    (hx : Builds fuel total K st m x fun _ ps => ∃ q ∈ ps, p q)
    (hf : ∀ a, Builds fuel total K st m' (f a) Free) :
    Builds fuel total K st m (x >>= f) fun _ ps => ∃ q ∈ ps, p q :=
  builds_bind hm hx fun a => (hf a).mono fun _ _ _ _ ⟨q, hq, hp⟩ => ⟨q, List.mem_append_left _ hq, hp⟩

/-- The parts that the second step puts are there at the end. -/
theorem builds_later {p : Piece Draft → Prop} (hm : Hears fuel total st m x m')
    (hx : Builds fuel total K st m x P)
    (hf : ∀ a, Builds fuel total K st m' (f a) fun _ ps => ∃ q ∈ ps, p q) :
    Builds fuel total K st m (x >>= f) fun _ ps => ∃ q ∈ ps, p q :=
  builds_bind hm hx fun a => (hf a).mono fun _ _ ⟨q, hq, hp⟩ _ _ => ⟨q, List.mem_append_right _ hq, hp⟩

theorem builds_current {f : Option TokenKind → Script β}
    (hnone : Builds fuel total K st .body (f none) R)
    (hsome : ∀ k, Builds fuel total K st (.word true false k) (f (some k)) R) :
    Builds fuel total K st .body (current >>= f) R := by
  intro s b t hrun hs
  rw [current, run_ask_bind, answer_current] at hrun
  cases hk : s.current with
  | none =>
    rw [hk] at hrun
    exact hnone s b t hrun hs
  | some k =>
    rw [hk] at hrun
    exact hsome k s b t hrun { hs with sees := hk, blamed := Bool.noConfusion }

theorem builds_node (hends : kind.ends? = none) (hlist : kind ≠ .stmtList)
    (h : Builds fuel total kind st.inside m x Q) (hfits : ∀ a ps, Q a ps → kind.Fits ps) :
    Builds fuel total K st m (node kind x) Free := by
  intro s a t hrun hs
  obtain ⟨u, hu, rfl⟩ := run_within_iff.1 hrun
  obtain ⟨ps, hps, hQ⟩ := h s.fresh a u hu hs.fresh
  have hfits (hclean : Clean s.toReading u.toReading) : kind.Fits ps :=
    hfits a ps (hQ ⟨hclean.heard, hclean.reports, hclean.words⟩)
  exact ⟨_, hps.node hends hlist fun _ => hfits, fun _ => trivial⟩

theorem builds_collect {item : Script (Option β)} (hm : Hears fuel total st m item m)
    (h : Builds fuel total K st m item Free) : Builds fuel total K st m (collect item) Free := by
  intro s bs t hrun hs
  rw [run_collect_iff] at hrun
  suffices hlaid : ∃ ps, Laid K false s t ps by
    obtain ⟨ps, hps⟩ := hlaid
    exact ⟨ps, hps, fun _ => trivial⟩
  refine repeatStep_induction (P := fun _ s _ t => Heard total st m s → ∃ ps, Laid K false s t ps)
    ?_ ?_ hrun hs
  · intro _ s t hst hs
    obtain ⟨ps, hps, -⟩ := h s none t hst hs
    exact ⟨ps, hps⟩
  · intro _ s b u _ t hsu _ ih hs
    obtain ⟨ps, hps, -⟩ := h s (some b) u hsu hs
    obtain ⟨qs, hqs⟩ := ih (Heard.of_run hm hsu hs)
    exact ⟨ps ++ qs, hps.trans hqs⟩

/-! ### Bodies -/

/-- A part is a statement list. -/
def IsBody (p : Piece Draft) : Prop := ∃ d, p = .node d ∧ d.kind = .stmtList

/-- A sketch inside the body of a block. -/
def inBody (stops : List TokenKind) (s : Sketch) : Sketch :=
  { s with frames := stops :: s.frames, depth := s.depth + 1, parts := [] }

theorem Heard.inBody (hstops : ∀ k ∈ stops, k.closes) (h : Heard total .inner m s) :
    Heard total .outer m (inBody stops s) := by
  have hstop (k : TokenKind) : (Grammar.inBody stops s).isStop k = (stops.contains k || s.isStop k) :=
    rfl
  refine h.transfer ⟨rfl, rfl, rfl, rfl⟩ (fun k hk => ?_) (fun _ h => ?_) nofun
  · rw [hstop, Bool.or_eq_true] at hk
    exact hk.elim (fun hk => hstops k (List.contains_iff_mem.1 hk)) (h.closers k)
  · obtain ⟨k, hk, h⟩ := (Option.any_eq_true _ _).1 h
    exact (Option.any_eq_true _ _).2 ⟨k, hk, by rw [hstop, h, Bool.or_true]⟩

/-- The statement list of a block whose statements have been laid down. -/
theorem laid_body {x : Script Unit} {v : Unit} (hbranch : K.hasBranch = stops.contains .kwElse)
    (hrun : (node .stmtList (within (.stopAt stops) (within .nested x))).run (runRule script fuel) fuel
      s = some (v, t)) :
    ∃ u, x.run (runRule script fuel) fuel (inBody stops s) = some (v, u) ∧ u.rest = t.rest ∧
      ∀ ps, Laid .stmtList false (inBody stops s) u ps →
        Laid K false s t [.node (.node .stmtList ps)] := by
  have hgoes := Sketch.goesOn_of_run hrun
  obtain ⟨u, hu, rfl⟩ := run_within_iff.1 hrun
  obtain ⟨u, hu', rfl⟩ := run_within_iff.1 hu
  obtain ⟨u, hu'', rfl⟩ := run_within_iff.1 hu'
  refine ⟨u, hu'', rfl, fun ps h => ?_⟩
  have hfilled := h.filled (s := inBody stops s) (ownUnclosed_of_ends? rfl _ _) fun _ _ => trivial
  have hbranch' : (inBody stops s).inBranch = (stops.contains .kwElse || s.inBranch) := rfl
  rw [hbranch'] at hfilled
  refine Filled.laid (⟨hgoes, hfilled.words, hfilled.placed, hfilled.unclosed,
    fun hblamed hclean => ?_⟩ :
      Filled .stmtList (stops.contains .kwElse || s.inBranch) false s _ ps) ?_ ?_
  · exact hfilled.fits hblamed ⟨hclean.heard, hclean.reports, hclean.words⟩
  · rw [branchIn, hbranch, Bool.or_comm]
    exact congrArg (· || s.inBranch) (Bool.and_true _)
  · change Piece.node (.node .stmtList u.parts.reverse) :: s.parts = _
    rw [h.parts]
    simp [inBody]

/-- Calls of statements lay down parts. -/
def Statements (fuel total : Nat) : Prop :=
  ∀ {K : NodeKind} {started b : Bool} {k : TokenKind},
    Builds fuel total K .outer (.word started b k) statement Free

theorem hears : StatementRules fun st m x m' => Hears fuel total st m x m' := heard_rules

section Calls

variable (hcalls : Statements fuel total)
include hcalls

/-- The statements of a block, up to a word that ends them. -/
theorem laid_statements {us : Unit}
    (hrun : (whileM continuesBody statement).run (runRule script fuel) fuel s = some (us, t))
    (hs : Heard total .outer (.live true b) s) : ∃ ps, Laid K false s t ps := by
  obtain ⟨us, hus⟩ := run_whileM_iff.1 hrun
  refine rounds_induction run_continuesBody (P := fun _ s t =>
    Heard total .outer (.live true false) s → ∃ ps, Laid K false s t ps) ?_ ?_ hus
    (hs.weaken (.live id nofun))
  · exact fun _ s _ _ => ⟨[], .refl s⟩
  · intro _ s u _ t hgo hsu _ ih hs
    rw [Bool.and_eq_true] at hgo
    obtain ⟨k, hk⟩ := Option.isSome_iff_exists.1 hgo.1
    have hword : Heard total .outer (.word true false k) s := { hs with sees := hk }
    obtain ⟨ps, hps, -⟩ := hcalls s () u hsu hword
    obtain ⟨qs, hqs⟩ := ih (Heard.of_run hears.statement hsu hword)
    exact ⟨ps ++ qs, hps.trans hqs⟩

theorem builds_blockBody (hstops : ∀ k ∈ stops, k.closes)
    (hbranch : K.hasBranch = stops.contains .kwElse) :
    Builds fuel total K .inner (.live true b) (blockBody stops) fun _ ps => ∃ p ∈ ps, IsBody p := by
  intro s a t hrun hs
  obtain ⟨u, hu, -, hlaid⟩ := laid_body hbranch hrun
  obtain ⟨ps, hps⟩ := laid_statements hcalls hu (hs.inBody hstops)
  exact ⟨_, hlaid ps hps, fun _ => ⟨_, List.mem_cons_self, _, rfl, rfl⟩⟩

/-- The first line of a block ends, and its body follows. -/
theorem builds_lineThenBody {l : Bool} (hstops : ∀ k ∈ stops, k.closes)
    (hbranch : K.hasBranch = stops.contains .kwElse) :
    Builds fuel total K .inner (.live l b) (do lineEnd; blockBody stops)
      fun _ ps => ∃ p ∈ ps, IsBody p :=
  builds_later hears.lineEnd (builds_of_lays lays_lineEnd) fun _ =>
    builds_blockBody hcalls hstops hbranch

/-! ### Branches -/

/-- The branches of a block after its first one. -/
def moreBranches (item : Script (Option Unit)) (k : TokenKind) (kind : NodeKind)
    (stops : List TokenKind) : Script Unit := do
  let _ ← collect item
  if (← current) == some k then
    node kind do
      take
      lineEnd
      blockBody stops

omit hcalls in
theorem moreBranches_bind {item : Script (Option Unit)} {y : Script Unit} :
    (moreBranches item k kind stops >>= fun _ => y) = (do
      let _ ← collect item
      if (← current) == some k then
        node kind do
          take
          lineEnd
          blockBody stops
      y) := by
  rw [moreBranches, LawfulMonad.bind_assoc]
  refine congrArg (collect item >>= ·) (funext fun _ => ?_)
  rw [LawfulMonad.bind_assoc]
  refine congrArg (current >>= ·) (funext fun o => ?_)
  split <;> rfl

omit hcalls in
theorem hears_moreBranches {item : Script (Option Unit)}
    (hitem : Hears fuel total .inner .body item .body) (hkind : kind.isRoutine)
    (hstops : ∀ k ∈ stops, k.closes) :
    Hears fuel total .inner .body (moreBranches item k kind stops) .body := by
  refine hears.bind (hears.collect hitem) fun _ => hears.current_body (hears.pure ()) fun k' => ?_
  split
  · exact hears.node hkind (hears.bind hears.take_word fun _ =>
      walk_lineThenBody hears.toBlockRules hstops)
  · exact hears.pre .bodyWord (hears.pure ())

theorem builds_moreBranches {item : Script (Option Unit)}
    (hitem : Hears fuel total .inner .body item .body)
    (hx : Builds fuel total K .inner .body item Free) (hk : k.isTerminator = false)
    (hends : kind.ends? = none) (hlist : kind ≠ .stmtList) (hstops : ∀ k ∈ stops, k.closes)
    (hbranch : kind.hasBranch = stops.contains .kwElse)
    (hfits : ∀ ps, (∃ p ∈ ps, IsBody p) → kind.Fits ps) :
    Builds fuel total K .inner .body (moreBranches item k kind stops) Free := by
  refine builds_seq (hears.collect hitem) (builds_collect hitem hx) fun _ => ?_
  refine builds_current (builds_pure trivial) fun k' => ?_
  split
  · next hkind =>
    obtain rfl : k' = k := by simpa using hkind
    refine builds_node hends hlist (Q := fun _ ps => ∃ p ∈ ps, IsBody p) ?_ fun _ ps => hfits ps
    exact builds_later hears.take_word (builds_of_lays (lays_take hk)) fun _ =>
      builds_lineThenBody hcalls hstops hbranch
  · exact builds_pure trivial

/-- A branch with a condition of its own. -/
theorem builds_conditionalBranch {l : Bool} :
    Builds fuel total .elseIfClause .inner (.live l b) conditionalBranch
      fun _ ps => HasExpression ps ∧ ∃ p ∈ ps, IsBody p := by
  refine builds_bind (walk_condition hears.toLineRules) (builds_of_lays lays_condition) fun _ => ?_
  refine (builds_lineThenBody hcalls closes_branchStops rfl).mono ?_
  rintro _ qs ⟨p, hp, hbody⟩ ps ⟨d, hd, hform⟩
  exact ⟨⟨d, List.mem_append_left _ hd, hform⟩, p, List.mem_append_right _ hp, hbody⟩

omit hcalls in
/-- A condition and a body are what an `If` needs. -/
theorem fits_conditional (h : HasExpression ps ∧ ∃ p ∈ ps, IsBody p) :
    NodeKind.Fits .ifStmt ps ∧ NodeKind.Fits .elseIfClause ps := by
  obtain ⟨hexpression, p, hp, d, rfl, hd⟩ := h
  exact ⟨⟨hexpression, d, hp, hd⟩, hexpression, d, hp, hd⟩

omit hcalls in
theorem builds_take (hm : m.kind? = some k) (hk : k.isTerminator = false) :
    Builds fuel total K st m take Free :=
  builds_of_lays (hm ▸ (lays_take hk).free)

theorem builds_elseIfBranch : Builds fuel total K .inner .body elseIfBranch Free := by
  refine builds_current (builds_pure trivial) fun k => ?_
  have hclause {m m' : Mode} {x : Script Unit} (hx : Hears fuel total .inner m x m') {l b : Bool}
      (hm : m' = .live l b) (h : Builds fuel total .elseIfClause .inner m x Free) :
      Builds fuel total K .inner m
        (do node .elseIfClause (do x; conditionalBranch); return some ()) Free := by
    subst hm
    have hbody : Builds fuel total .elseIfClause .inner m (do x; conditionalBranch) fun _ ps =>
        HasExpression ps ∧ ∃ p ∈ ps, IsBody p := by
      refine builds_bind hx h fun _ => (builds_conditionalBranch hcalls).mono ?_
      rintro _ qs ⟨⟨d, hd, hform⟩, p, hp, hbody⟩ ps -
      exact ⟨⟨d, List.mem_append_right _ hd, hform⟩, p, List.mem_append_right _ hp, hbody⟩
    refine builds_seq (hears.node rfl (hears.bind hx fun _ => walk_conditionalBranch hears.toBlockRules))
      (builds_node rfl nofun hbody fun _ ps h => (fits_conditional h).2) fun _ => builds_pure trivial
  split
  · next hk =>
    cases hk
    exact hclause hears.take_word rfl (builds_take rfl rfl)
  · next hk =>
    cases hk
    intro s b t hrun hs
    rw [secondOnLine, run_ask_bind] at hrun
    split at hrun
    · next hsecond =>
      have hsecond : s.secondOnLine = some .kwIf := beq_iff_eq.1 hsecond
      have hpair : Heard total .inner (.pair .kwElse .kwIf) s :=
        { hs with sees := ⟨hs.sees, hsecond⟩, blamed := nofun }
      have htwo : Hears fuel total .inner (.pair .kwElse .kwIf) (do take; take) (.live true false) :=
        hears.bind hears.take_pair fun _ => hears.take_seeing (.inl rfl)
      have htake : Builds fuel total .elseIfClause .inner (.pair .kwElse .kwIf) (do take; take) Free :=
        builds_seq hears.take_pair (builds_take rfl rfl) fun _ => builds_take rfl rfl
      exact hclause htwo rfl htake s b t hrun hpair
    · exact builds_pure trivial s b t hrun hs
  · exact builds_pure trivial

theorem builds_directiveElseIf : Builds fuel total K .inner .body directiveElseIf Free := by
  refine builds_current (builds_pure trivial) fun k => ?_
  split
  · next hk =>
    obtain rfl : k = .ppElseIf := by simpa using hk
    have hbody : Builds fuel total .preprocessorElseIf .inner (.word true false .ppElseIf)
        (do take; directiveCondition; lineEnd; blockBody directiveStops) Free :=
      builds_seq hears.take_word (builds_take rfl rfl) fun _ =>
        builds_seq (walk_directiveCondition hears.toLineRules) (builds_of_lays lays_directiveCondition)
          fun _ => (builds_lineThenBody hcalls closes_directiveStops rfl).free
    refine builds_seq (hears.node rfl (hears.bind hears.take_word fun _ =>
      hears.bind (walk_directiveCondition hears.toLineRules) fun _ =>
        walk_lineThenBody hears.toBlockRules closes_directiveStops))
      (builds_node rfl nofun hbody fun _ _ _ => trivial) fun _ => builds_pure trivial
  · exact builds_pure trivial

theorem builds_caseOrSkipped : Builds fuel total K .inner .body caseOrSkipped Free := by
  refine builds_current (builds_pure trivial) fun k => ?_
  split
  · exact builds_pure trivial
  · exact builds_pure trivial
  · next hk =>
    cases hk
    have hbody : Builds fuel total .caseClause .inner (.word true false .kwCase)
        (do take; caseSelector; lineEnd; blockBody caseStops) Free :=
      builds_seq hears.take_word (builds_take rfl rfl) fun _ =>
        builds_seq (walk_caseSelector hears.toLineRules) (builds_of_lays lays_caseSelector) fun _ =>
          (builds_lineThenBody hcalls closes_caseStops rfl).free
    refine builds_seq (hears.node rfl (hears.bind hears.take_word fun _ =>
      hears.bind (walk_caseSelector hears.toLineRules) fun _ =>
        walk_lineThenBody hears.toBlockRules closes_caseStops))
      (builds_node rfl nofun hbody fun _ _ _ => trivial) fun _ => builds_pure trivial
  · next hk =>
    refine builds_of_lays (lays_ask fun stop => ?_)
    split
    · exact lays_pure trivial
    · exact lays_report_bind rfl (lays_seq (lays_skipWords (.inl rfl)) fun _ => lays_pure trivial)

end Calls

end Grammar

end CRBasic
