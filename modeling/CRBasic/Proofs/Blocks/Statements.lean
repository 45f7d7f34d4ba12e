import CRBasic.Proofs.Blocks.Bodies
import CRBasic.Proofs.Embedding.Headers

/-!
# Statements lay down blocks

Every run of a statement lays down some parts (`statements`): a block among them holds the word that ends
it, or is reported once, because its body ends where problems are heard.
-/

namespace CRBasic

namespace Grammar

open Parsing Parsing.Script Draft

variable {fuel total : Nat} {K kind : NodeKind} {α : Type} {m : Mode} {x : Script α}
  {Q : α → List (Piece Draft) → Prop} {s t u : Sketch} {b started : Bool}
  {ps qs hs : List (Piece Draft)} {k opener : TokenKind} {stops : List TokenKind}

/-! ### Blocks -/

/-- A block that is no `If`: some parts, and the word that ends it. -/
theorem builds_block (kind : NodeKind) {y : α → Script Unit} (hends : kind.ends? = some (k, opener))
    (hkind : kind ≠ .ifStmt) (hlist : kind ≠ .stmtList) (hm : Hears fuel total .inner m x .body)
    (hx : Builds fuel total kind .inner m x Q) (hy : ∀ a, Lays fuel kind false none (y a) Free)
    (hfits : ∀ a ps qs, Q a ps → kind.Fits (ps ++ qs)) :
    Builds fuel total K .outer m (node kind (do
      let a ← x
      if ← terminator k opener then y a)) Free := by
  intro s v t hrun hs
  obtain ⟨u, hu, rfl⟩ := run_within_iff.1 hrun
  obtain ⟨a, w, hw, hend⟩ := run_bind_iff.1 hu
  obtain ⟨ps, hps, hQ⟩ := hx s.fresh a w hw hs.fresh
  have hheard : Heard total .inner .body w := Heard.of_run hm hw hs.fresh
  obtain ⟨qs, hqs, hparts⟩ := filled_of_terminator hps hends (hheard.loud rfl)
    (fun h => absurd h hkind) (hy a)
    (fun hclean qs => hfits a ps qs (hQ ⟨hclean.heard, hclean.reports, hclean.words⟩)) hend
  exact ⟨_, hqs.leave hparts hlist, fun _ => trivial⟩

section Calls

variable (hcalls : Statements fuel total)
include hcalls

/-- The blocks with one body. -/
theorem builds_form (form : BlockForm) :
    Builds fuel total K .outer (.word started b form.opener) (statementOf form.opener) Free := by
  have hends : form.kind.ends? = some (form.terminator, form.opener) := by cases form <;> rfl
  have hkinds : form.kind ≠ .ifStmt ∧ form.kind ≠ .stmtList ∧ form.kind.hasBranch = false ∧
      form.opener.isTerminator = false := by
    cases form <;> exact ⟨nofun, nofun, rfl, rfl⟩
  obtain ⟨hkind, hlist, hbranch, hopener⟩ := hkinds
  have hstops : ∀ k ∈ [form.terminator], k.closes := by
    simpa using form.closes_terminator
  have hnoElse : form.kind.hasBranch = [form.terminator].contains .kwElse := by
    rw [hbranch]
    have := form.terminator_ne_else
    simpa using this.symm
  have hfits (ps : List (Piece Draft)) (h : ∃ p ∈ ps, IsBody p) : form.kind.Fits ps := by
    obtain ⟨p, hp, d, rfl, hd⟩ := h
    cases form <;> first | exact trivial | exact ⟨d, hp, hd⟩
  have hopening : Hears fuel total .inner (.word started b form.opener) form.opening (.live true b) :=
    hears.bind hears.take_word fun _ => hears.bind (BlockForm.alike_head losing_alone.toLosing form)
      fun name? => hears.bind hears.lineEnd fun _ => hears.pure name?
  have hhead : Builds fuel total form.kind .inner (.word started b form.opener) form.opening Free :=
    builds_of_lays (lays_seq (lays_take hopener) fun _ => lays_seq (lays_head form) fun _ =>
      lays_seq lays_lineEnd fun _ => lays_pure trivial)
  have hmain : Builds fuel total form.kind .inner (.word started b form.opener)
      (do let name? ← form.opening; blockBody [form.terminator]; return name?)
      fun _ ps => ∃ p ∈ ps, IsBody p :=
    builds_later hopening hhead fun name? => builds_keep (hears.blockBody hstops)
      (builds_blockBody hcalls hstops hnoElse) fun _ => builds_pure trivial
  have hhears : Hears fuel total .inner (.word started b form.opener)
      (do let name? ← form.opening; blockBody [form.terminator]; return name?) .body :=
    hears.bind hopening fun name? => hears.bind (hears.blockBody hstops) fun _ => hears.pure name?
  have hblock := builds_block form.kind (K := K) hends hkind hlist hhears hmain
    (y := fun name? => do form.closing name?; lineEnd)
    (fun name? => lays_seq (lays_closing form name?) fun _ => lays_lineEnd)
    fun _ ps qs ⟨p, hp, hbody⟩ => hfits _ ⟨p, List.mem_append_left _ hp, hbody⟩
  rw [form.statementOf_opener]
  simpa only [BlockForm.ending, LawfulMonad.bind_assoc, LawfulMonad.pure_bind] using hblock

theorem builds_selectStatement :
    Builds fuel total K .outer (.word started b .kwSelect) selectStatement Free := by
  have hhead : Hears fuel total .inner (.word started b .kwSelect)
      (do take; want .kwCase; expression; lineEnd) .body :=
    hears.bind hears.take_word fun _ => hears.bind (walk_want hears.toLineRules (.inl rfl)) fun _ =>
      hears.bind (hears.expression 0) fun _ => hears.post .body hears.lineEnd
  have hlays : Lays fuel .selectStmt false (some .kwSelect)
      (do take; want .kwCase; expression; lineEnd) Free :=
    lays_seq (lays_take rfl) fun _ => lays_seq (lays_want rfl) fun _ =>
      lays_seq lays_expression fun _ => lays_lineEnd
  have hclauses := builds_caseOrSkipped (K := .selectStmt) hcalls
  have hrules : BlockRules fun st m x m' => Hears fuel total st m x m' := hears.toBlockRules
  have hitem := walk_caseOrSkipped hrules
  have hblock := builds_block .selectStmt (K := K) (y := fun _ => lineEnd) rfl nofun nofun
    (hears.bind hhead fun _ => hears.collect hitem)
    (builds_seq hhead (builds_of_lays hlays) fun _ => builds_collect hitem hclauses)
    (fun _ => lays_lineEnd) fun _ _ _ _ => trivial
  rw [selectStatement]
  simpa only [blockEnd, LawfulMonad.bind_assoc] using hblock

omit hcalls in
theorem directiveBranches_eq (opener : TokenKind) : directiveBranches opener = (do
    lineEnd
    blockBody directiveStops
    moreBranches directiveElseIf .ppElse .preprocessorElse [.ppEndIf]
    blockEnd .ppEndIf opener) := by
  rw [moreBranches_bind]
  rfl

omit hcalls in
theorem blockBranches_eq : blockBranches = (do
    lineEnd
    blockBody branchStops
    moreBranches elseIfBranch .kwElse .elseClause [.kwEndIf]
    blockEnd .kwEndIf .kwIf) := by
  rw [moreBranches_bind]
  rfl

/-- The blocks of directives. -/
theorem builds_directive (kind : NodeKind) {x : Script Unit} {l : Bool}
    (hends : kind.ends? = some (.ppEndIf, opener)) (hkinds : kind ≠ .ifStmt ∧ kind ≠ .stmtList)
    (hbranch : kind.hasBranch = false) (hfits : ∀ ps, kind.Fits ps) (hk : k.isTerminator = false)
    (hm : Hears fuel total .inner (.live true b) x (.live l b))
    (hx : ∀ {o}, Lays fuel kind false o x Free) :
    Builds fuel total K .outer (.word started b k)
      (node kind (do take; x; directiveBranches opener)) Free := by
  have hrules : BlockRules fun st m x m' => Hears fuel total st m x m' := hears.toBlockRules
  have hmore : Hears fuel total .inner .body
      (moreBranches directiveElseIf .ppElse .preprocessorElse [.ppEndIf]) .body :=
    hears_moreBranches (walk_directiveElseIf hrules) rfl (by decide)
  have hhead : Hears fuel total .inner (.word started b k) (do take; x) (.live l b) :=
    hears.bind hears.take_word fun _ => hm
  have hlays : Lays fuel kind false (some k) (do take; x) Free := lays_seq (lays_take hk) fun _ => hx
  have hbody := walk_lineThenBody hrules (l := l) (b := b) closes_directiveStops
  have hblock := builds_block kind (K := K) (y := fun _ => lineEnd) hends hkinds.1 hkinds.2
    (hears.bind hhead fun _ => hears.bind hbody fun _ => hmore)
    (builds_seq hhead (builds_of_lays hlays) fun _ => builds_seq hbody
      (builds_lineThenBody hcalls closes_directiveStops hbranch).free fun _ =>
        builds_moreBranches hcalls (walk_directiveElseIf hrules) (builds_directiveElseIf hcalls) rfl rfl
          nofun (by decide) rfl fun _ _ => trivial)
    (fun _ => lays_lineEnd) fun _ _ _ _ => hfits _
  rw [directiveBranches_eq]
  simpa only [blockEnd, LawfulMonad.bind_assoc] using hblock

theorem builds_directiveIf :
    Builds fuel total K .outer (.word started b .ppIf) directiveIf Free :=
  builds_directive hcalls .preprocessorIf rfl ⟨nofun, nofun⟩ rfl (fun _ => trivial) rfl
    (walk_directiveCondition hears.toLineRules) lays_directiveCondition

theorem builds_directiveIfDefined :
    Builds fuel total K .outer (.word started b .ppIfDef) directiveIfDefined Free :=
  builds_directive hcalls .preprocessorIfDef rfl ⟨nofun, nofun⟩ rfl (fun _ => trivial) rfl
    (walk_namedIdentifier hears.toLineRules) lays_namedIdentifier

/-! ### `If` -/

omit hcalls in
/-- A body at a word that ends it is empty. -/
theorem statements_of_atStop {us : Unit} (hs : s.atStop)
    (hrun : (whileM continuesBody statement).run (runRule script fuel) fuel s = some (us, t)) :
    t = s := by
  obtain ⟨us, hus⟩ := run_whileM_iff.1 hrun
  refine rounds_induction run_continuesBody (P := fun _ s t => s.atStop → t = s) ?_ ?_ hus hs
  · exact fun _ _ _ _ => rfl
  · intro _ s _ _ _ hgo _ _ _ hs
    rw [hs, Bool.not_true, Bool.and_false] at hgo
    cases hgo

/-- The parts of an `If` up to the end of its condition. -/
structure Headed (s t : Sketch) (hs : List (Piece Draft)) : Prop where
  laid : Laid .ifStmt false s.fresh t hs
  expression : Clean s.toReading t.toReading → HasExpression hs
  noBody : NoBody t.parts
  words : wordsOfAll hs ≠ []

omit hcalls in
theorem exists_headed {v : Unit} (hs : Heard total .outer (.word started b .kwIf) s)
    (hrun : (do take; condition).run (runRule script fuel) fuel s.fresh = some (v, t)) :
    (∃ hs, Headed s t hs) ∧ Heard total .inner (.live false b) t := by
  have hrules : LineRules fun st m x m' => Hears fuel total st m x m' := hears.toLineRules
  have hm : Hears fuel total .inner (.word started b .kwIf) (do take; condition) (.live false b) :=
    hrules.bind hrules.take_word fun _ => walk_condition hrules
  have hlineal : (do take; condition : Script Unit).Lineal false := lineal_take lineal_condition
  refine ⟨?_, Heard.of_run hm hrun hs.fresh⟩
  have hnoBody := noBody_of_run hlineal (fun _ hd => absurd hd List.not_mem_nil) hrun
  obtain ⟨w, ws, hrest, hw⟩ := Reading.exists_rest hs.sees
  have htake := Sketch.take_eq (s := s.fresh) hrest
  obtain ⟨_, u, hu, hcondition⟩ := run_bind_iff.1 hrun
  have hword : Lays fuel .ifStmt false (some .kwIf) take Free := (lays_take rfl).free
  obtain ⟨ps, hps, -⟩ := hword s.fresh () u hu hs.fresh.knows
  obtain rfl : ps = [.word w] := by
    refine eq_singleton_of_laid hps ?_
    rw [run_act_iff.1 hu]
    exact congrArg Sketch.parts htake
  obtain ⟨qs, hqs, hexpression⟩ := lays_condition u v t hcondition (knows_none _)
  refine ⟨[.word w] ++ qs, hps.trans hqs, fun hclean => ?_, hnoBody, nofun⟩
  have hclean : Clean s.fresh.toReading t.toReading := ⟨hclean.heard, hclean.reports, hclean.words⟩
  obtain ⟨d, hd, hform⟩ := hexpression rfl (hps.second hqs.goes rfl hclean)
  exact ⟨d, List.mem_cons_of_mem _ hd, hform⟩

/-- The body of a block from the end of a line on, which is empty where a word on the line ends it. -/
theorem body_of_atEnd (hstops : ∀ k ∈ stops, k.closes)
    (hbranch : K.hasBranch = stops.contains .kwElse) (hend : AtEnd s)
    (hs : Heard total .inner (.live true b) s) {v : Unit}
    (hrun : (blockBody stops).run (runRule script fuel) fuel s = some (v, t)) :
    ∃ ps, Laid K false s t [.node (.node .stmtList ps)] ∧ (s.onLine = none ∨ (s.atStop ∧ ps = [])) := by
  obtain ⟨u, hu, -, hlaid⟩ := laid_body hbranch hrun
  rcases hend with hline | hstop
  · obtain ⟨ps, hps⟩ := laid_statements hcalls hu (hs.inBody hstops)
    exact ⟨ps, hlaid ps hps, .inl hline⟩
  · have hinside : (inBody stops s).atStop := by
      obtain ⟨k, hk, h⟩ := (Option.any_eq_true _ _).1 hstop
      refine (Option.any_eq_true _ _).2 ⟨k, hk, ?_⟩
      have hisStop : (inBody stops s).isStop k = (stops.contains k || s.isStop k) := rfl
      rw [hisStop, h, Bool.or_true]
    obtain rfl := statements_of_atStop hinside hu
    exact ⟨[], hlaid [] (.refl _), .inr ⟨hstop, rfl⟩⟩

omit hcalls in
/-- An `If` whose head ends its line is none on one line. -/
theorem onOneLine_of_atEnd {cs : List (Piece Draft)} (hnoBody : NoBody hs)
    (hbody : s.onLine = none ∨ (s.atStop ∧ ps = []))
    (hwords : s.rest = wordsOfAll (.node (.node .stmtList ps) :: cs) ++ t.rest) :
    onOneLine s.inBranch (hs ++ .node (.node .stmtList ps) :: cs) = false := by
  rw [onOneLine_eq hnoBody rfl]
  cases hall : wordsOfAll (.node (.node .stmtList ps) :: cs) with
  | nil => rfl
  | cons w ws =>
    rw [hall, List.cons_append] at hwords
    rcases hbody with hline | ⟨hstop, rfl⟩
    · have hstart : w.startsLine = true := by
        simpa [Reading.onLine, hwords] using hline
      simp [hstart]
    · rw [Reading.atStop, Reading.current, hwords] at hstop
      have hstop : s.isStop w.kind = true := hstop
      by_cases hkind : w.kind = .kwElse
      · rw [hkind] at hstop
        simp [Reading.inBranch, hstop, Draft.words, wordsOfAll]
      · simp [hkind, Draft.words, wordsOfAll]

omit hcalls in
/-- The branches of an `If` block after its first one. -/
theorem hears_laterBranches : Hears fuel total .inner .body
    (moreBranches elseIfBranch .kwElse .elseClause [.kwEndIf]) .body := by
  have hrules : BlockRules fun st m x m' => Hears fuel total st m x m' := hears.toBlockRules
  exact hears_moreBranches (walk_elseIfBranch hrules) rfl (by decide)

theorem builds_laterBranches : Builds fuel total K .inner .body
    (moreBranches elseIfBranch .kwElse .elseClause [.kwEndIf]) Free := by
  have hrules : BlockRules fun st m x m' => Hears fuel total st m x m' := hears.toBlockRules
  exact builds_moreBranches hcalls (walk_elseIfBranch hrules) (builds_elseIfBranch hcalls) rfl rfl nofun
    (by decide) rfl fun _ ⟨_, hp, d, heq, hd⟩ => ⟨d, heq ▸ hp, hd⟩

theorem filled_of_block {l : Bool} {v : Unit} (hhead : Headed s t hs)
    (ht : Heard total .inner (.live l b) t)
    (hrun : blockBranches.run (runRule script fuel) fuel t = some (v, u)) :
    ∃ ps, Filled .ifStmt s.inBranch false s u ps ∧ u.parts = ps.reverse := by
  have hrules : BlockRules fun st m x m' => Hears fuel total st m x m' := hears.toBlockRules
  rw [blockBranches_eq] at hrun
  obtain ⟨_, t₁, h₁, hrun⟩ := run_bind_iff.1 hrun
  obtain ⟨_, t₂, h₂, hrun⟩ := run_bind_iff.1 hrun
  obtain ⟨_, t₃, h₃, hrun⟩ := run_bind_iff.1 hrun
  obtain ⟨qs, hqs, -⟩ := lays_lineEnd t _ t₁ h₁ (knows_none _)
  have hlaid := hhead.laid.trans hqs
  have hheard₁ := Heard.of_run hrules.lineEnd h₁ ht
  obtain ⟨ps, hps, hbody⟩ :=
    body_of_atEnd (K := .ifStmt) hcalls closes_branchStops rfl (atEnd_of_lineEnd h₁) hheard₁ h₂
  have hheard₂ := Heard.of_run (hrules.blockBody closes_branchStops) h₂ hheard₁
  obtain ⟨cs, hcs, -⟩ := builds_laterBranches (K := .ifStmt) hcalls t₂ _ t₃ h₃ hheard₂
  have hheard₃ := Heard.of_run hears_laterBranches h₃ hheard₂
  have hbranch : t₁.inBranch = s.inBranch := inBranch_of_goesOn hlaid.goes_of_fresh
  have hnoBody : NoBody (hs ++ qs) := by
    intro d hd
    refine noBody_of_run lineal_lineEnd hhead.noBody h₁ d ?_
    rw [hlaid.parts_of_fresh]
    exact List.mem_reverse.2 hd
  have hline := onOneLine_of_atEnd (t := t₃) hnoBody hbody (hps.trans hcs).words
  rw [hbranch] at hline
  have hall := hlaid.trans (hps.trans hcs)
  refine filled_of_terminator hall rfl (hheard₃.loud rfl) (fun _ => hline) lays_lineEnd ?_ hrun
  intro hclean rs
  have hgoes : t.toReading.GoesOn t₃.toReading := hqs.goes.trans (hps.trans hcs).goes
  obtain ⟨d, hd, hform⟩ := hhead.expression (hclean.first hgoes)
  refine ⟨⟨d, ?_, hform⟩, .node .stmtList ps, ?_, rfl⟩
  · simp [hd]
  · simp

omit hcalls in
theorem builds_ifOnLine {st : Stage} {l : Bool} {k : TokenKind} {x y : Script α}
    (hx : Builds fuel total K st (.seeing l b k) x Q) (hy : Builds fuel total K st (.live l b) y Q) :
    Builds fuel total K st (.live l b) (do if (← onLine) == some k then x else y) Q := by
  intro s a t hrun hs
  rw [onLine, run_ask_bind, answer_onLine] at hrun
  split at hrun
  · next hk => exact hx s a t hrun { hs with sees := beq_iff_eq.1 hk }
  · exact hy s a t hrun hs

/-- At most one statement on a line, which takes a word if one is there. -/
theorem laid_inline {v : Unit} (hs : Heard total .outer (.live true b) s)
    (hrun : (do unless ← statementEnds do statement).run (runRule script fuel) fuel s = some (v, t)) :
    (AtEnd s ∧ t = s) ∨
      (¬ AtEnd s ∧ t.rest.length < s.rest.length ∧ ∃ ps, Laid K false s t ps) := by
  by_cases hend : AtEnd s
  · rw [run_statementEnds_of_atEnd hend] at hrun
    obtain ⟨-, rfl⟩ := run_pure_iff.1 hrun
    exact .inl ⟨hend, rfl⟩
  · rw [run_statementEnds_of_not hend] at hrun
    obtain ⟨k, hk, -⟩ := exists_onLine hend
    have hword : Heard total .outer (.word true false k) s :=
      { hs with sees := Reading.current_of_onLine hk, blamed := nofun }
    obtain ⟨ps, hps, -⟩ := hcalls s v t hrun hword
    exact .inr ⟨hend, length_lt_of_statement (Reading.ne_nil_of_onLine hk) hrun, ps, hps⟩

theorem builds_inlineBody (hstops : ∀ k ∈ stops, k.closes)
    (hbranch : K.hasBranch = stops.contains .kwElse) :
    Builds fuel total K .inner (.live true b) (inlineBody stops) fun _ ps => ∃ p ∈ ps, IsBody p := by
  intro s a t hrun hs
  obtain ⟨u, hu, -, hlaid⟩ := laid_body hbranch hrun
  have hbody (ps : List (Piece Draft)) : ∃ p ∈ [Piece.node (.node .stmtList ps)], IsBody p :=
    ⟨_, List.mem_cons_self, _, rfl, rfl⟩
  rcases laid_inline hcalls (K := .stmtList) (hs.inBody hstops) hu with ⟨-, rfl⟩ | ⟨-, -, ps, hps⟩
  · exact ⟨_, hlaid [] (.refl _), fun _ => hbody []⟩
  · exact ⟨_, hlaid ps hps, fun _ => hbody ps⟩

/-- The `Else` of an `If` on one line. -/
theorem builds_inlineElse : Builds fuel total K .inner (.seeing true b .kwElse)
    (node .elseClause (do take; inlineBody [])) Free := by
  refine builds_node rfl nofun (Q := fun _ ps => ∃ p ∈ ps, IsBody p) ?_
    fun _ _ ⟨_, hp, d, heq, hd⟩ => ⟨d, heq ▸ hp, hd⟩
  exact builds_later (hears.take_seeing (.inl rfl)) (builds_take rfl rfl) fun _ =>
    builds_inlineBody hcalls nofun rfl

omit hcalls in
/-- An `If` whose head is followed by a statement or an `Else` on its line is one on one line. -/
theorem onOneLine_of_onLine {cs : List (Piece Draft)} {inBranch : Bool} (hnoBody : NoBody hs)
    (hhead : wordsOfAll hs ≠ []) (hk : s.onLine = some k)
    (hwords : s.rest = wordsOfAll (.node (.node .stmtList ps) :: cs) ++ t.rest)
    (hlength : t.rest.length < s.rest.length)
    (hform : wordsOfAll ps ≠ [] ∨ (k = .kwElse ∧ inBranch = false)) :
    onOneLine inBranch (hs ++ .node (.node .stmtList ps) :: cs) = true := by
  rw [onOneLine_eq hnoBody rfl]
  cases hall : wordsOfAll (.node (.node .stmtList ps) :: cs) with
  | nil =>
    rw [hwords, hall] at hlength
    exact absurd hlength (Nat.lt_irrefl _)
  | cons w ws =>
    rw [hall, List.cons_append] at hwords
    have hfirst : w.startsLine = false ∧ w.kind = k := by
      simpa [Reading.onLine, hwords] using hk
    rcases hform with hps | ⟨rfl, rfl⟩
    · simp [hfirst.1, hhead, hps, Draft.words]
    · simp [hfirst.1, hhead, hfirst.2]

omit hcalls in
theorem length_lt_of_take {f : Unit → Script α} {a : α} (hrest : s.rest ≠ [])
    (hrun : (take >>= f).run (runRule script fuel) fuel s = some (a, t)) :
    t.rest.length < s.rest.length := by
  obtain ⟨w, ws, hw⟩ := List.exists_cons_of_ne_nil hrest
  obtain ⟨_, u, hu, hrun⟩ := run_bind_iff.1 hrun
  obtain rfl := run_act_iff.1 hu
  have hle := (Sketch.goesOn_of_run hrun).rest.length_le
  have htake : (Machine.perform s .take : Sketch).rest = ws := congrArg (·.rest) (Sketch.take_eq hw)
  rw [htake] at hle
  rw [hw]
  exact Nat.lt_succ_of_le hle

omit hcalls in
/-- Only an `Else` ends the part of an `If` behind its `Then` in front of a word that stops no block
around it. -/
theorem eq_else_of_atEnd (hk : t.onLine = some k) (hstop : t.atStop = false)
    (h : AtEnd (inBody [.kwElse] t)) : k = .kwElse ∧ t.isStop .kwElse = false := by
  have hcurrent : t.current = some k := Reading.current_of_onLine hk
  have hnoStop : t.isStop k = false := by
    rwa [Reading.atStop, hcurrent] at hstop
  have hline : (inBody [.kwElse] t).onLine = some k := hk
  have hinside : (inBody [.kwElse] t).current = some k := hcurrent
  have hisStop : (inBody [.kwElse] t).isStop k = ([TokenKind.kwElse].contains k || t.isStop k) := rfl
  have hatStop := h.resolve_left (by rw [hline]; simp)
  rw [Reading.atStop, hinside, Option.any_some, hisStop, hnoStop, Bool.or_false] at hatStop
  obtain rfl : k = .kwElse := by simpa using hatStop
  exact ⟨rfl, hnoStop⟩

/-- An `If` whose `Then` is followed by more on its line. -/
theorem filled_of_oneLine {v : Unit} (hhead : Headed s t hs)
    (ht : Heard total .inner (.live true b) t) (hend : ¬ AtEnd t)
    (hrun : oneLineBranches.run (runRule script fuel) fuel t = some (v, u)) :
    ∃ ps, Filled .ifStmt s.inBranch false s u ps ∧ u.parts = ps.reverse := by
  have hstops : ∀ k ∈ [TokenKind.kwElse], k.closes := by decide
  obtain ⟨k, hk, hstop⟩ := exists_onLine hend
  obtain ⟨_, t₁, h₁, hrun⟩ := run_bind_iff.1 hrun
  have hbodyHears : Hears fuel total .inner (.live true b) (inlineBody [.kwElse]) (.live true false) :=
    alike_inlineBody losing_alone (fun _ => hears.statement) hstops
  have hheard₁ := Heard.of_run hbodyHears h₁ ht
  have helse : Builds fuel total .ifStmt .inner (.live true false) (do
      if (← onLine) == some .kwElse then
        node .elseClause do
          take
          inlineBody []) Free :=
    builds_ifOnLine (builds_inlineElse hcalls) (builds_pure trivial)
  obtain ⟨cs, hcs, -⟩ := helse t₁ v u hrun hheard₁
  have hle := hcs.goes.rest.length_le
  obtain ⟨w, hw, hrest, hlaid⟩ := laid_body (K := .ifStmt) rfl h₁
  have hbody : ∃ ps, Laid .ifStmt false t t₁ [.node (.node .stmtList ps)] ∧
      u.rest.length < t.rest.length ∧ (wordsOfAll ps ≠ [] ∨ (k = .kwElse ∧ s.inBranch = false)) := by
    rcases laid_inline (K := .stmtList) hcalls (ht.inBody hstops) hw with
      ⟨hbodyEnd, rfl⟩ | ⟨-, hlength, ps, hps⟩
    · -- The word after `Then` is an `Else`, which ends the body and starts a clause.
      obtain ⟨rfl, hnoStop⟩ := eq_else_of_atEnd hk hstop hbodyEnd
      have hrest : t₁.rest = t.rest := hrest.symm
      have honLine : t₁.onLine = some .kwElse := by
        rw [Reading.onLine, hrest]
        exact hk
      rw [onLine, run_ask_bind, answer_onLine, honLine, if_pos (beq_self_eq_true _)] at hrun
      obtain ⟨x, hx, rfl⟩ := run_within_iff.1 hrun
      have hlength := length_lt_of_take (s := t₁.fresh) (Reading.ne_nil_of_onLine honLine) hx
      refine ⟨[], hlaid [] (.refl _), ?_, .inr ⟨rfl, ?_⟩⟩
      · rw [← hrest]
        exact hlength
      · rw [← inBranch_of_goesOn hhead.laid.goes_of_fresh]
        exact hnoStop
    · have hlength : w.rest.length < t.rest.length := hlength
      rw [hrest] at hlength
      refine ⟨ps, hlaid ps hps, by omega, .inl fun hnil => ?_⟩
      have hwords := (hlaid ps hps).words
      simp only [wordsOfAll, Draft.words, hnil, List.append_nil, List.nil_append] at hwords
      rw [hwords] at hlength
      exact Nat.lt_irrefl _ hlength
  obtain ⟨ps, hps, hlength, hform⟩ := hbody
  have hall := hhead.laid.trans (hps.trans hcs)
  have hnoBody : NoBody hs := by
    intro d hd
    refine hhead.noBody d ?_
    rw [hhead.laid.parts_of_fresh]
    exact List.mem_reverse.2 hd
  have hline := onOneLine_of_onLine hnoBody hhead.words hk (hps.trans hcs).words hlength hform
  refine ⟨_, hall.oneLine hline fun hclean => ?_, hall.parts_of_fresh⟩
  obtain ⟨d, hd, hd'⟩ := hhead.expression (hclean.first (hps.trans hcs).goes)
  refine ⟨⟨d, ?_, hd'⟩, .node .stmtList ps, ?_, rfl⟩
  · simp [hd]
  · simp

theorem builds_ifStatement :
    Builds fuel total K .outer (.word started b .kwIf) ifStatement Free := by
  intro s v t hrun hs
  rw [ifStatement_eq] at hrun
  obtain ⟨u, hu, rfl⟩ := run_within_iff.1 hrun
  rw [← LawfulMonad.bind_assoc] at hu
  obtain ⟨_, w, hw, hbranches⟩ := run_bind_iff.1 hu
  obtain ⟨⟨hs', hhead⟩, hheard⟩ := exists_headed hs hw
  have hfilled : ∃ ps, Filled .ifStmt s.inBranch false s u ps ∧ u.parts = ps.reverse := by
    rcases run_ifBranches_cases hbranches with ⟨hend, hbranches⟩ | hbranches
    · have hloud : w.silenced = false :=
        Bool.eq_false_iff.2 fun hsilenced => hend (hheard.settled hsilenced)
      exact filled_of_oneLine hcalls hhead { hheard with loud := fun _ => hloud } hend hbranches
    · exact filled_of_block hcalls hhead hheard hbranches
  obtain ⟨ps, hps, hparts⟩ := hfilled
  exact ⟨_, hps.leave hparts nofun, fun _ => trivial⟩

/-! ### All statements -/

theorem builds_statementOf (k : TokenKind) :
    Builds fuel total K .outer (.word started b k) (statementOf k) Free := by
  unfold statementOf
  split
  · exact builds_form hcalls .program
  · exact builds_form hcalls .function
  · exact builds_form hcalls .subroutine
  · exact builds_ifStatement hcalls
  · exact builds_form hcalls .forLoop
  · exact builds_form hcalls .whileLoop
  · exact builds_form hcalls .doLoop
  · exact builds_selectStatement hcalls
  · exact builds_form hcalls .scan
  · exact builds_form hcalls .subScan
  · exact builds_form hcalls .slowSequence
  · exact builds_form hcalls .displayMenu
  · exact builds_form hcalls .subMenu
  · exact builds_of_lays lays_menuItem
  · exact builds_form hcalls .dataTable
  · exact builds_of_lays lays_callTable
  · exact builds_of_lays (lays_variableDeclaration rfl)
  · exact builds_of_lays (lays_variableDeclaration rfl)
  · exact builds_of_lays lays_constantDeclaration
  · exact builds_form hcalls .constantTable
  · exact builds_of_lays lays_aliasDeclaration
  · exact builds_of_lays lays_unitsDeclaration
  · exact builds_of_lays lays_returnStatement
  · exact builds_of_lays lays_exitStatement
  · exact builds_of_lays lays_callStatement
  · exact builds_directiveIf hcalls
  · exact builds_directiveIfDefined hcalls
  · exact builds_of_lays lays_directiveUndefine
  · exact builds_of_lays lays_inclusion
  · exact builds_of_lays lays_assignmentOrInstruction
  · exact builds_of_lays (lays_unexpectedWord _)

theorem builds_statementRule :
    Builds fuel total K .outer (.word started b k) statementRule Free := by
  refine builds_seq hears.listen_word (builds_of_lays lays_listen) fun _ => ?_
  intro s v t hrun hs
  rw [tooDeep, run_ask_bind] at hrun
  split at hrun
  · exact builds_of_lays (m := .word started b k) lays_skipDeepStatement s v t hrun hs
  · rw [current, run_ask_bind, answer_current, show s.current = some k from hs.sees] at hrun
    exact builds_statementOf hcalls k s v t hrun hs

end Calls

/-- Whatever the fuel, calls of statements lay down parts. -/
theorem statements (fuel total : Nat) : Statements fuel total := by
  induction fuel with
  | zero =>
    intro K started b k s _ t hrun
    cases run_call_iff.1 hrun
  | succ fuel ih =>
    intro K started b k s _ t hrun hs
    exact builds_statementRule ih s () t (run_of_runRule (run_call_iff.1 hrun)) hs

end Grammar

end CRBasic
