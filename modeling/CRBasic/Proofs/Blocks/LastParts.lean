import CRBasic.Proofs.Blocks.Statements

/-!
# The last parts of nodes

What stands on a line ends in a word or in what stands on a line.  A branch ends in its body, and so does a
block that has not ended, unless it is a `Select` without a branch; a block that has ended holds nothing but
what stands on a line behind the word that ends it (`Draft.Edged`).  So it is in what every text is read as
(`edged_of_readsAs`).
-/

namespace CRBasic

open Parsing

/-- Kinds of branches. -/
def NodeKind.isClause : NodeKind → Bool
  | .elseIfClause | .elseClause | .caseClause | .preprocessorElseIf | .preprocessorElse => true
  | _ => false

/-- Some parts end in a body or in a branch, which ends in a body itself. -/
def EndsInBody (ps : List (Piece Draft)) : Prop :=
  ∃ before d, ps = before ++ [.node d] ∧ (d.kind = .stmtList ∨ d.kind.isClause)

/-- All nodes among some parts stand on a line. -/
def OnlyLines (ps : List (Piece Draft)) : Prop := ∀ d, .node d ∈ ps → d.kind.isLine

/-- The parts of a block of the given kind up to its end, which the given word should be. -/
inductive BlockEnds (clean : Prop) (kind : NodeKind) (k : TokenKind) (ps : List (Piece Draft)) : Prop where
  /-- Nothing but what stands on a line follows the word. -/
  | closed (before after : List (Piece Draft)) (w : Word) (hps : ps = before ++ .word w :: after)
      (hw : w.kind = k) (hafter : OnlyLines after)
  /-- The word is missing, which only an `If` on one line allows. -/
  | unclosed (hbody : EndsInBody ps ∨ (kind = .selectStmt ∧ OnlyLines ps))
      (hclean : clean → kind = .ifStmt ∧ Bare ps)

/-- How a node ends.  In a text without a problem what stands on a line is not empty. -/
structure Draft.Edged (clean : Prop) (d : Draft) : Prop where
  known : d.kind = .stmtList ∨ d.kind.isLine ∨ d.kind.isClause ∨ d.kind.ends?.isSome
  line : d.kind.isLine → OnlyLines d.pieces ∧ (clean → d.kind.mayBeBare = false → d.pieces ≠ [])
  clause : d.kind.isClause → ∃ before body, d.pieces = before ++ [.node body] ∧ body.kind = .stmtList
  block : ∀ k opener, d.kind.ends? = some (k, opener) → BlockEnds clean d.kind k d.pieces

/-- All nodes among some parts end as their kinds do, and so do those inside them. -/
def AllEdged (clean : Prop) (ps : List (Piece Draft)) : Prop :=
  ∀ d, .node d ∈ ps → d.All (Draft.Edged clean)

section Edged

variable {clean : Prop} {d : Draft} {ps base : List (Piece Draft)}

/-- What stands on a line is no block and no branch. -/
theorem NodeKind.isLine_spec {kind : NodeKind} (h : kind.isLine) :
    kind.ends? = none ∧ kind.isClause = false ∧ kind ≠ .stmtList := by
  cases kind <;> first | exact ⟨rfl, rfl, by decide⟩ | exact Bool.noConfusion h

theorem NodeKind.isClause_spec {kind : NodeKind} (h : kind.isClause) :
    kind.ends? = none ∧ kind.isLine = false := by
  cases kind <;> first | exact ⟨rfl, rfl⟩ | exact Bool.noConfusion h

theorem Draft.Lineal.edged (h : d.Lineal clean) : d.All (Draft.Edged clean) := by
  intro e he
  have hall : e.Lineal clean := fun c hc => h c (hc.trans he)
  obtain ⟨⟨hline, hfilled⟩, hparts⟩ := Draft.lineal_iff.1 hall
  obtain ⟨hends, hclause, -⟩ := NodeKind.isLine_spec hline
  refine ⟨.inr (.inl hline), fun _ => ⟨fun c hc => (Draft.lineal_iff.1 (hparts c hc)).1.1, hfilled⟩,
    fun h => ?_, fun k opener h => ?_⟩
  · exact absurd (hclause.symm.trans h) Bool.false_ne_true
  · cases hends.symm.trans h

theorem allEdged_nil : AllEdged clean [] := fun _ hd => absurd hd List.not_mem_nil

theorem AllEdged.cons (h : AllEdged clean ps) (hd : d.All (Draft.Edged clean)) :
    AllEdged clean (.node d :: ps) := by
  intro e he
  rcases List.mem_cons.1 he with heq | he
  · exact Piece.node.inj heq ▸ hd
  · exact h e he

theorem Parsing.Behind.allEdged (h : Behind clean base ps) (hbase : AllEdged clean base) :
    AllEdged clean ps := by
  obtain ⟨new, rfl, hnew, -⟩ := h
  intro d hd
  exact (List.mem_append.1 hd).elim (fun hd => (hnew d hd).edged) (hbase d)

theorem Parsing.Behind.onlyLines (h : Behind clean [] ps) : OnlyLines ps := by
  obtain ⟨new, rfl, hnew, -⟩ := h
  rw [List.append_nil]
  exact fun d hd => (Draft.lineal_iff.1 (hnew d hd)).1.1

theorem edged_stmtList (h : AllEdged clean ps) : (Draft.node .stmtList ps.reverse).All (Draft.Edged clean) :=
  Draft.all_iff.2 ⟨⟨.inl rfl, fun h => absurd h Bool.false_ne_true,
    fun h => absurd h Bool.false_ne_true, fun _ _ h => absurd h (Option.some_ne_none _).symm⟩,
    fun e he => h e (List.mem_reverse.1 he)⟩

end Edged

namespace Grammar

open Parsing.Script Draft

/-- Every run of a script leads from sketches of the first kind to sketches of the second kind.  Problems
are passed over only after one has been found. -/
def Puts (clean : Prop) (fuel : Nat) (P : Sketch → Prop) {α : Type} (x : Script α) (Q : Sketch → Prop) :
    Prop :=
  ∀ (s : Sketch) (a : α) (t : Sketch), x.run (runRule script fuel) fuel s = some (a, t) →
    (clean → t.reports = #[]) → (clean → s.Honest) → P s → (clean → t.Honest) ∧ Q t

/-- Every run of a script puts one node behind the parts. -/
def PutsNode (clean : Prop) (fuel : Nat) (P : Sketch → Prop) {α : Type} (x : Script α) (kind : NodeKind) :
    Prop :=
  ∀ (s : Sketch) (a : α) (t : Sketch), x.run (runRule script fuel) fuel s = some (a, t) →
    (clean → t.reports = #[]) → (clean → s.Honest) → P s → (clean → t.Honest) ∧
      ∃ d : Draft, t.parts = .node d :: s.parts ∧ d.kind = kind ∧ d.All (Edged clean)

section Rules

variable {clean : Prop} {fuel : Nat} {P Q R : Sketch → Prop} {p q : List (Piece Draft) → Prop}
  {α β : Type} {x : Script α} {f : α → Script β} {kind : NodeKind} {k opener : TokenKind}
  {stops : List TokenKind} {base : List (Piece Draft)} {s t u : Sketch}

/-! ### Rules -/

theorem puts_pure (a : α) : Puts clean fuel P (pure a) P := by
  intro s b t hrun _ hs hP
  obtain ⟨-, rfl⟩ := run_pure_iff.1 hrun
  exact ⟨hs, hP⟩

theorem puts_bind (hx : Puts clean fuel P x Q) (hf : ∀ a, Puts clean fuel Q (f a) R) :
    Puts clean fuel P (x >>= f) R := by
  intro s b u hrun hu hs hP
  obtain ⟨a, t, hst, htu⟩ := run_bind_iff.1 hrun
  have ht (h : clean) : t.reports = #[] := (Sketch.goesOn_of_run htu).reports_eq_nil (hu h)
  obtain ⟨ht', hQ⟩ := hx s a t hst ht hs hP
  exact hf a t b u htu hu ht' hQ

theorem Puts.mono {P' Q' : Sketch → Prop} (h : Puts clean fuel P x Q) (hP : ∀ s, P' s → P s)
    (hQ : ∀ s, Q s → Q' s) : Puts clean fuel P' x Q' := by
  intro s a t hrun ht hs hP'
  obtain ⟨ht', hQ'⟩ := h s a t hrun ht hs (hP s hP')
  exact ⟨ht', hQ t hQ'⟩

theorem Puts.pre {P' : Sketch → Prop} (h : Puts clean fuel P x Q) (hP : ∀ s, P' s → P s) :
    Puts clean fuel P' x Q := h.mono hP fun _ => id

theorem puts_question (q : Query α) : Puts clean fuel P (Script.ask q .done) P := by
  intro s a t hrun _ hs hP
  cases hrun
  exact ⟨hs, hP⟩

/-- The answer of a question is known where it is used. -/
theorem puts_ask {q : Query α} (h : ∀ a, Puts clean fuel (fun s => P s ∧ s.answer q = a) (f a) Q) :
    Puts clean fuel P (Script.ask q .done >>= f) Q :=
  fun s b t hrun ht hs hP => h _ s b t hrun ht hs ⟨hP, rfl⟩

/-- The answer of a question makes no difference. -/
theorem puts_askAny {q : Query α} (h : ∀ a, Puts clean fuel P (f a) Q) :
    Puts clean fuel P (Script.ask q .done >>= f) Q :=
  puts_ask fun a => (h a).pre fun _ => And.left

theorem puts_statementEnds : Puts clean fuel P statementEnds P := by
  refine puts_askAny fun o => ?_
  split
  · exact puts_pure _
  · exact puts_question _

theorem puts_collect {item : Script (Option β)} (h : Puts clean fuel P item P) :
    Puts clean fuel P (collect item) P := by
  intro s bs t hrun
  rw [run_collect_iff] at hrun
  refine repeatStep_induction (P := fun _ s _ t =>
    (clean → t.reports = #[]) → (clean → s.Honest) → P s → (clean → t.Honest) ∧ P t) ?_ ?_ hrun
  · exact fun _ s t hst => h s none t hst
  · intro _ s b u bs t hsu hut ih ht hs hP
    have hu (h : clean) : u.reports = #[] := (Sketch.goesOn_of_rounds hut).reports_eq_nil (ht h)
    obtain ⟨hu', hP⟩ := h s (some b) u hsu hu hs hP
    exact ih ht hu' hP

theorem puts_whileM {test : Script Bool} {body : Script Unit} (htest : Puts clean fuel P test P)
    (hbody : Puts clean fuel P body P) : Puts clean fuel P (whileM test body) P := by
  refine puts_bind (puts_collect (puts_bind htest fun c => ?_)) fun _ => puts_pure ()
  split
  · exact puts_bind hbody fun _ => puts_pure _
  · exact puts_pure _

theorem puts_report {place : Place} {cause : Cause} :
    Puts clean fuel (p ·.parts) (report place cause) (p ·.parts) := by
  intro s v t hrun _ hs hp
  obtain rfl : t = s.perform (.report place cause) := run_act_iff.1 hrun
  exact ⟨fun hclean _ => Reading.honest_report (hs hclean) place cause, hp⟩

/-- What holds of the parts may tell what holds with one more. -/
theorem PutsNode.puts (h : PutsNode clean fuel P x kind)
    (hq : ∀ ps d, p ps → d.kind = kind → d.All (Edged clean) → q (.node d :: ps)) :
    Puts clean fuel (fun s => P s ∧ p s.parts) x (q ·.parts) := by
  rintro s a t hrun ht hs ⟨hP, hp⟩
  obtain ⟨ht', d, hd, hkind, hedged⟩ := h s a t hrun ht hs hP
  refine ⟨ht', ?_⟩
  change q t.parts
  rw [hd]
  exact hq s.parts d hp hkind hedged

theorem PutsNode.allEdged (h : PutsNode clean fuel P x kind) :
    Puts clean fuel (fun s => P s ∧ AllEdged clean s.parts) x (AllEdged clean ·.parts) :=
  h.puts fun _ _ hps _ hd => hps.cons hd

/-! ### Lines -/

/-- What stands on a line is put behind some parts. -/
theorem puts_line (hx : x.Lineal false) :
    Puts clean fuel (Behind clean base ·.parts) x (Behind clean base ·.parts) :=
  fun _ _ _ hrun ht hs hparts => behind_of_run hx nofun hrun ht hs hparts

/-- The first parts of a node. -/
theorem puts_opening (hx : x.Lineal false) : Puts clean fuel (·.parts = []) x (Behind clean [] ·.parts) :=
  (puts_line hx).pre fun _ hs => hs ▸ behind_nil clean

theorem putsNode_line (known : Bool) (hx : (node kind x).Lineal known) :
    PutsNode clean fuel (fun s => known → s.rest ≠ []) (node kind x) kind := by
  intro s a t hrun ht hs hknown
  obtain ⟨ht', d, hd, hkind, hlineal⟩ := node_of_run hx hknown hrun ht hs
  exact ⟨ht', d, hd, hkind, hlineal.edged⟩

/-! ### Ends of blocks -/

/-- The last of some parts, the last one first, is a body or a branch. -/
def Bodied (clean : Prop) (ps : List (Piece Draft)) : Prop :=
  AllEdged clean ps ∧ ∃ d before, ps = .node d :: before ∧ (d.kind = .stmtList ∨ d.kind.isClause)

theorem Bodied.endsInBody {ps : List (Piece Draft)} (h : Bodied clean ps) : EndsInBody ps.reverse := by
  obtain ⟨-, d, before, rfl, hd⟩ := h
  exact ⟨before.reverse, d, List.reverse_cons, hd⟩

/-- The parts of a block before its end. -/
def BeforeEnd (clean : Prop) (kind : NodeKind) (ps : List (Piece Draft)) : Prop :=
  AllEdged clean ps ∧ (EndsInBody ps.reverse ∨ (kind = .selectStmt ∧ OnlyLines ps.reverse))

/-- A block with all its parts. -/
def Ended (clean : Prop) (kind : NodeKind) (k : TokenKind) (ps : List (Piece Draft)) : Prop :=
  AllEdged clean ps ∧ BlockEnds clean kind k ps.reverse

theorem puts_terminator {y : Script Unit} (hy : y.Lineal false) :
    Puts clean fuel (BeforeEnd clean kind ·.parts) (do if ← terminator k opener then y)
      (Ended clean kind k ·.parts) := by
  rintro s v t hrun ht hs ⟨hparts, hbody⟩
  obtain ⟨c, u, hu, hrun⟩ := run_bind_iff.1 hrun
  by_cases hk : s.current = some k
  · obtain ⟨w, ws, hrest, rfl⟩ := Reading.exists_rest hk
    rw [run_terminator_of_eq hk] at hu
    cases hu
    have htake := Sketch.take_eq hrest
    have hstart : Behind clean (.word w :: s.parts) s.take.parts := by
      rw [htake]
      exact behind_word clean w s.parts
    have hhonest (h : clean) : s.take.Honest := by
      rw [htake]
      exact hs h
    obtain ⟨ht', hbehind⟩ := behind_of_run hy nofun hrun ht hhonest hstart
    refine ⟨ht', hbehind.allEdged fun d hd => hparts d (by simpa using hd), ?_⟩
    obtain ⟨new, hnew, hlineal, -⟩ := hbehind
    refine .closed s.parts.reverse new.reverse w ?_ rfl fun d hd => ?_
    · rw [hnew]
      simp
    · exact (Draft.lineal_iff.1 (hlineal d (List.mem_reverse.1 hd))).1.1
  · rw [run_terminator_of_ne hk] at hu
    cases hu
    obtain ⟨-, rfl⟩ := run_pure_iff.1 hrun
    have hreports (h : clean) : False := Reading.honest_report (hs h) _ _ (ht h)
    exact ⟨fun h => (hreports h).elim, hparts, .unclosed hbody fun h => (hreports h).elim⟩

/-- The node of a block. -/
theorem putsNode_block (hends : kind.ends? = some (k, opener)) (hP : ∀ s, P s → P s.fresh)
    (hx : Puts clean fuel (fun s => P s ∧ s.parts = []) x (Ended clean kind k ·.parts)) :
    PutsNode clean fuel P (node kind x) kind := by
  intro s a t hrun ht hs hs'
  obtain ⟨u, hu, rfl⟩ := run_within_iff.1 hrun
  obtain ⟨hhonest, hparts, hend⟩ := hx s.fresh a u hu ht hs ⟨hP s hs', rfl⟩
  have hsome : kind.ends?.isSome := Option.isSome_of_eq_some hends
  refine ⟨hhonest, _, rfl, rfl, Draft.all_iff.2 ⟨⟨.inr (.inr (.inr hsome)), fun hline => ?_,
    fun hclause => ?_, ?_⟩, fun d hd => hparts d (List.mem_reverse.1 hd)⟩⟩
  · have hline : kind.isLine := hline
    cases hends.symm.trans (NodeKind.isLine_spec hline).1
  · have hclause : kind.isClause := hclause
    cases hends.symm.trans (NodeKind.isClause_spec hclause).1
  · intro k' opener' hends'
    obtain ⟨rfl, rfl⟩ := Prod.mk.inj (Option.some.inj (hends.symm.trans hends'))
    exact hend

/-- A body is put behind the parts. -/
theorem putsNode_body {x : Script Unit}
    (hx : Puts clean fuel (AllEdged clean ·.parts) x (AllEdged clean ·.parts)) :
    PutsNode clean fuel (fun _ => True) (node .stmtList (within (.stopAt stops) (within .nested x)))
      .stmtList := by
  intro s a t hrun ht hs _
  obtain ⟨u, hu, rfl⟩ := run_within_iff.1 hrun
  obtain ⟨u, hu', rfl⟩ := run_within_iff.1 hu
  obtain ⟨u, hu'', rfl⟩ := run_within_iff.1 hu'
  obtain ⟨ht', hbody⟩ := hx (inBody stops s) a u hu'' ht hs allEdged_nil
  exact ⟨ht', _, rfl, rfl, edged_stmtList hbody⟩

theorem PutsNode.bodied (h : PutsNode clean fuel (fun _ => True) x kind)
    (hkind : kind = .stmtList ∨ kind.isClause) :
    Puts clean fuel (AllEdged clean ·.parts) x (Bodied clean ·.parts) := by
  refine (h.puts (p := AllEdged clean) fun ps d hps hd hedged => ?_).pre fun _ => And.intro trivial
  exact ⟨hps.cons hedged, d, ps, rfl, hd ▸ hkind⟩

end Rules

/-! ### Bodies -/

/-- Calls of statements put nodes that end as their kinds do. -/
def PutsStatements (clean : Prop) (fuel : Nat) : Prop :=
  Puts clean fuel (AllEdged clean ·.parts) statement (AllEdged clean ·.parts)

section Calls

variable {clean : Prop} {fuel : Nat} {x y : Script Unit} {kind : NodeKind} {k opener : TokenKind}
  {stops : List TokenKind} {ps : List (Piece Draft)} {s t : Sketch} (hcalls : PutsStatements clean fuel)
include hcalls

theorem putsNode_blockBody (stops : List TokenKind) :
    PutsNode clean fuel (fun _ => True) (blockBody stops) .stmtList :=
  putsNode_body (puts_whileM (puts_askAny fun _ => puts_askAny fun _ => puts_pure _) hcalls)

theorem puts_blockBody :
    Puts clean fuel (AllEdged clean ·.parts) (blockBody stops) (Bodied clean ·.parts) :=
  (putsNode_blockBody hcalls stops).bodied (.inl rfl)

theorem putsNode_inlineBody :
    PutsNode clean fuel (fun _ => True) (inlineBody stops) .stmtList := by
  refine putsNode_body (puts_bind puts_statementEnds fun c => ?_)
  split
  · exact puts_pure _
  · exact hcalls

/-! ### Branches -/

omit hcalls in
/-- A branch: some words on a line, and a body. -/
theorem putsNode_clause (kind : NodeKind) {body : Script Unit} (hkind : kind.isClause) (hx : x.Lineal false)
    (hbody : PutsNode clean fuel (fun _ => True) body .stmtList) :
    PutsNode clean fuel (fun _ => True) (node kind (do x; body)) kind := by
  intro s a t hrun ht hs _
  obtain ⟨u, hu, rfl⟩ := run_within_iff.1 hrun
  obtain ⟨_, v, hv, hu⟩ := run_bind_iff.1 hu
  have hv' (h : clean) : v.reports = #[] := (Sketch.goesOn_of_run hu).reports_eq_nil (ht h)
  obtain ⟨hhonest, hbehind⟩ := puts_opening hx s.fresh () v hv hv' hs rfl
  obtain ⟨ht', d, hd, hlist, hedged⟩ := hbody v a u hu ht hhonest trivial
  obtain ⟨hends, hline⟩ := NodeKind.isClause_spec hkind
  refine ⟨ht', _, rfl, rfl, Draft.all_iff.2 ⟨⟨.inr (.inr (.inl hkind)), ?_,
    fun _ => ⟨v.parts.reverse, d, ?_, hlist⟩, ?_⟩, ?_⟩⟩
  · exact fun h => absurd h (by rw [Draft.kind, hline]; decide)
  · rw [Draft.pieces, hd, List.reverse_cons]
  · intro k opener h
    cases hends.symm.trans h
  · intro e he
    have he : .node e ∈ u.parts := List.mem_reverse.1 he
    rw [hd] at he
    exact AllEdged.cons (hbehind.allEdged allEdged_nil) hedged e he

theorem puts_branch (kind : NodeKind) (stops : List TokenKind) (hkind : kind.isClause) (hx : x.Lineal false) :
    Puts clean fuel (Bodied clean ·.parts) (node kind (do x; blockBody stops)) (Bodied clean ·.parts) :=
  ((putsNode_clause kind hkind hx (putsNode_blockBody hcalls stops)).bodied (.inr hkind)).pre fun _ => And.left

theorem puts_elseIfBranch :
    Puts clean fuel (Bodied clean ·.parts) elseIfBranch (Bodied clean ·.parts) := by
  have hline : (do condition; lineEnd).Lineal false := lineal_condition.bind fun _ => lineal_lineEnd
  have hone := puts_branch hcalls .elseIfClause branchStops rfl
    (x := do take; condition; lineEnd) (lineal_take hline)
  have htwo := puts_branch hcalls .elseIfClause branchStops rfl
    (x := do take; take; condition; lineEnd) (lineal_take (lineal_take hline))
  simp only [LawfulMonad.bind_assoc] at hone htwo
  refine puts_askAny fun o => ?_
  split
  · exact puts_bind hone fun _ => puts_pure _
  · refine puts_askAny fun o' => ?_
    split
    · exact puts_bind htwo fun _ => puts_pure _
    · exact puts_pure _
  · exact puts_pure _

theorem puts_directiveElseIf :
    Puts clean fuel (Bodied clean ·.parts) directiveElseIf (Bodied clean ·.parts) := by
  have hclause := puts_branch hcalls .preprocessorElseIf directiveStops rfl
    (x := do take; directiveCondition; lineEnd)
    (lineal_take (lineal_directiveCondition.bind fun _ => lineal_lineEnd))
  simp only [LawfulMonad.bind_assoc] at hclause
  refine puts_askAny fun o => ?_
  split
  · exact puts_bind hclause fun _ => puts_pure _
  · exact puts_pure _

theorem puts_moreBranches {item : Script (Option Unit)} (hkind : kind.isClause)
    (hitem : Puts clean fuel (Bodied clean ·.parts) item (Bodied clean ·.parts)) :
    Puts clean fuel (Bodied clean ·.parts) (moreBranches item k kind stops) (Bodied clean ·.parts) := by
  refine puts_bind (puts_collect hitem) fun _ => puts_askAny fun o => ?_
  have hclause := puts_branch hcalls kind stops hkind (x := do take; lineEnd)
    (lineal_take lineal_lineEnd)
  simp only [LawfulMonad.bind_assoc] at hclause
  split
  · exact hclause
  · exact puts_pure _

/-! ### `Select` -/

omit hcalls in
/-- Behind a body comes a word that ends it, if any. -/
theorem ends_of_blockBody {v : Unit} (hrun : (blockBody stops).run (runRule script fuel) fuel s = some (v, t)) :
    ∀ k, t.current = some k → k ∈ stops ∨ t.isStop k := by
  obtain ⟨u, hu, rfl⟩ := run_within_iff.1 hrun
  obtain ⟨u, hu', rfl⟩ := run_within_iff.1 hu
  obtain ⟨u, hu'', rfl⟩ := run_within_iff.1 hu'
  have hframes : u.frames = stops :: s.frames := (Sketch.goesOn_of_run hu'').frames
  obtain ⟨us, hus⟩ := run_whileM_iff.1 hu''
  have hend : (u.current.isSome && !u.atStop) = false :=
    rounds_induction run_continuesBody (P := fun _ _ (t : Sketch) => (t.current.isSome && !t.atStop) = false)
      (fun _ _ h => h) (fun _ _ _ _ _ _ _ _ ih => ih) hus
  intro k hk
  have hk : u.current = some k := hk
  have hstop : (u.isStop k : Bool) = true := by
    rw [Reading.atStop, hk] at hend
    simpa using hend
  rw [Reading.isStop, hframes, List.any_cons, Bool.or_eq_true] at hstop
  refine hstop.imp List.contains_iff_mem.1 fun h => ?_
  change u.frames.tail.any (·.contains k) = true
  rw [hframes]
  exact h

/-- The parts of a `Select` before its end.  Words that fit nowhere come before its branches. -/
def Selecting (clean : Prop) (s : Sketch) : Prop :=
  (AllEdged clean s.parts ∧ OnlyLines s.parts) ∨
    (Bodied clean s.parts ∧ ∀ k, s.current = some k → k ∈ caseStops ∨ s.isStop k)

omit hcalls in
theorem Selecting.allEdged (h : Selecting clean s) : AllEdged clean s.parts :=
  h.elim And.left fun h => h.1.1

theorem puts_caseClause : Puts clean fuel (Selecting clean) caseClause (Selecting clean) := by
  have hclause := putsNode_clause .caseClause rfl (x := do take; caseSelector; lineEnd)
    (lineal_take (lineal_caseSelector.bind fun _ => lineal_lineEnd))
    (putsNode_blockBody hcalls caseStops)
  simp only [LawfulMonad.bind_assoc] at hclause
  intro s v t hrun ht hs hselecting
  obtain ⟨ht', d, hd, hkind, hedged⟩ := hclause s v t hrun ht hs trivial
  have hall : AllEdged clean t.parts := by
    rw [hd]
    exact hselecting.allEdged.cons hedged
  refine ⟨ht', .inr ⟨⟨hall, d, s.parts, hd, .inr (hkind ▸ rfl)⟩, ?_⟩⟩
  obtain ⟨u, hu, rfl⟩ := run_within_iff.1 hrun
  obtain ⟨_, w, -, hu⟩ := run_bind_iff.1 hu
  obtain ⟨_, w, -, hu⟩ := run_bind_iff.1 hu
  obtain ⟨_, w, -, hu⟩ := run_bind_iff.1 hu
  exact ends_of_blockBody (t := u) hu

theorem puts_caseOrSkipped : Puts clean fuel (Selecting clean) caseOrSkipped (Selecting clean) := by
  refine puts_ask fun o => ?_
  split
  · exact (puts_pure none).pre fun _ => And.left
  · exact (puts_pure none).pre fun _ => And.left
  · exact puts_bind ((puts_caseClause hcalls).pre fun _ => And.left) fun _ => puts_pure _
  · next k hselect hcase =>
    refine puts_ask fun stop => ?_
    split
    · exact (puts_pure none).pre fun _ h => h.1.1
    · next hstop =>
      have hskip : Puts clean fuel (fun s => AllEdged clean s.parts ∧ OnlyLines s.parts) skipWords
          (fun t => AllEdged clean t.parts ∧ OnlyLines t.parts) := by
        refine ((putsNode_line false lineal_skipWords).puts
          (p := fun ps => AllEdged clean ps ∧ OnlyLines ps) (q := fun ps => AllEdged clean ps ∧ OnlyLines ps)
          ?_).pre fun _ => And.intro nofun
        rintro ps d ⟨hps, hlines⟩ hd hedged
        refine ⟨hps.cons hedged, fun e he => ?_⟩
        rcases List.mem_cons.1 he with heq | he
        · rw [Piece.node.inj heq, hd]
          rfl
        · exact hlines e he
      refine (puts_bind (puts_report (p := fun ps => AllEdged clean ps ∧ OnlyLines ps)) fun _ =>
        puts_bind hskip fun _ => puts_pure (some ())).mono (fun s hs => ?_) fun _ => .inl
      obtain ⟨⟨hselecting, hk⟩, hstop'⟩ := hs
      have hk : s.current = some k := hk
      refine hselecting.resolve_right fun h => ?_
      rcases h.2 k hk with hmem | hends
      · simp only [caseStops, List.mem_cons, List.not_mem_nil, or_false] at hmem
        exact hmem.elim (fun h => hcase (h ▸ rfl)) fun h => hselect (h ▸ rfl)
      · have hat : s.atStop = true := (Option.any_eq_true _ _).2 ⟨k, hk, hends⟩
        exact hstop (hstop'.symm.trans hat)

/-! ### Blocks -/

omit hcalls in
theorem Bodied.beforeEnd (h : Bodied clean ps) : BeforeEnd clean kind ps := ⟨h.1, .inl h.endsInBody⟩

omit hcalls in
/-- A block: a line, what leads to its end, and its end. -/
theorem puts_block {α : Type} {x : Script α} {z : α → Script Unit} {y : α → Script Unit}
    (hends : kind.ends? = some (k, opener)) (hx : x.Lineal false)
    (hz : ∀ a, Puts clean fuel (Behind clean [] ·.parts) (z a) (BeforeEnd clean kind ·.parts))
    (hy : ∀ a, (y a).Lineal false) :
    Puts clean fuel (AllEdged clean ·.parts) (node kind (do
      let a ← x
      z a
      if ← terminator k opener then y a)) (AllEdged clean ·.parts) := by
  refine (putsNode_block (P := fun _ => True) hends (fun _ => id) ?_).allEdged.pre fun _ => And.intro trivial
  refine puts_bind ((puts_opening hx).pre fun _ => And.right) fun a => ?_
  exact puts_bind (hz a) fun _ => puts_terminator (hy a)

theorem puts_form (form : BlockForm) :
    Puts clean fuel (AllEdged clean ·.parts) (statementOf form.opener) (AllEdged clean ·.parts) := by
  have hends : form.kind.ends? = some (form.terminator, form.opener) := by cases form <;> rfl
  rw [form.statementOf_opener]
  exact puts_block hends (lineal_opening form)
    (fun _ => (puts_blockBody hcalls).mono (fun _ h => h.allEdged allEdged_nil) fun _ => Bodied.beforeEnd)
    fun name? => (lineal_closing form name?).bind fun _ => lineal_lineEnd

theorem puts_selectStatement :
    Puts clean fuel (AllEdged clean ·.parts) selectStatement (AllEdged clean ·.parts) := by
  have hopening : (do take; want .kwCase; expression; lineEnd).Lineal false :=
    lineal_take ((lineal_want _).bind fun _ => lineal_expression.bind fun _ => lineal_lineEnd)
  have hclauses : Puts clean fuel (Behind clean [] ·.parts) (do let _ ← collect caseOrSkipped)
      (BeforeEnd clean .selectStmt ·.parts) := by
    refine (puts_bind (puts_collect (puts_caseOrSkipped hcalls)) fun _ => puts_pure ()).mono
      (fun s hs => .inl ⟨hs.allEdged allEdged_nil, hs.onlyLines⟩) fun s hs => ?_
    refine ⟨hs.allEdged, hs.elim (fun h => .inr ⟨rfl, fun d hd => ?_⟩) fun h => .inl h.1.endsInBody⟩
    exact h.2 d (List.mem_reverse.1 hd)
  have hends : NodeKind.selectStmt.ends? = some (.kwEndSelect, .kwSelect) := rfl
  have hblock := puts_block (z := fun _ => (do let _ ← collect caseOrSkipped)) (y := fun _ => lineEnd) hends
    hopening (fun _ => hclauses) fun _ => lineal_lineEnd
  simp only [LawfulMonad.bind_assoc, LawfulMonad.pure_bind] at hblock
  exact hblock

theorem puts_directive {x : Script Unit} (hends : kind.ends? = some (.ppEndIf, opener))
    (hx : x.Lineal false) : Puts clean fuel (AllEdged clean ·.parts)
      (node kind (do take; x; directiveBranches opener)) (AllEdged clean ·.parts) := by
  have hopening : (do take; x; lineEnd).Lineal false := lineal_take (hx.bind fun _ => lineal_lineEnd)
  have hbranches : Puts clean fuel (Behind clean [] ·.parts) (do
      blockBody directiveStops
      moreBranches directiveElseIf .ppElse .preprocessorElse [.ppEndIf])
      (BeforeEnd clean kind ·.parts) := by
    refine (puts_bind (puts_blockBody hcalls) fun _ => puts_moreBranches hcalls rfl
      (puts_directiveElseIf hcalls)).mono (fun _ h => h.allEdged allEdged_nil) fun _ => Bodied.beforeEnd
  have hblock := puts_block (y := fun _ => lineEnd) hends hopening (fun _ => hbranches) fun _ => lineal_lineEnd
  simp only [LawfulMonad.bind_assoc] at hblock
  rw [directiveBranches_eq]
  exact hblock

/-! ### `If` -/

omit hcalls in
/-- The condition of an `If` holds no word that ends a block. -/
theorem puts_condition : Puts clean fuel (fun s => s.current = some .kwIf ∧ s.parts = [])
    (do take; condition) fun t => Behind clean [] t.parts ∧ Bare t.parts := by
  rintro s v t hrun ht hs ⟨hk, hnil⟩
  have hlays : Lays fuel .ifStmt false (some .kwIf) (do take; condition) Free :=
    lays_seq (lays_take rfl) fun _ => lays_condition.free
  obtain ⟨ps, hps, -⟩ := hlays s v t hrun fun k hk' => hk' ▸ hk
  obtain ⟨ht', hbehind⟩ := puts_opening (lineal_take lineal_condition) s v t hrun ht hs hnil
  refine ⟨ht', hbehind, fun w hw => hps.bare w ?_⟩
  rw [hps.parts, hnil, List.append_nil] at hw
  exact List.mem_reverse.1 hw

omit hcalls in
/-- A branch without a word that ends a block. -/
theorem PutsNode.bodiedBare (h : PutsNode clean fuel (fun _ => True) x kind)
    (hkind : kind = .stmtList ∨ kind.isClause) :
    Puts clean fuel (fun s => AllEdged clean s.parts ∧ Bare s.parts) x
      fun t => Bodied clean t.parts ∧ Bare t.parts := by
  refine (h.puts (p := fun ps => AllEdged clean ps ∧ Bare ps) (q := fun ps => Bodied clean ps ∧ Bare ps)
    ?_).pre fun _ => And.intro trivial
  rintro ps d ⟨hps, hbare⟩ hd hedged
  exact ⟨⟨hps.cons hedged, d, ps, rfl, hd ▸ hkind⟩, fun w hw => hbare w (by simpa using hw)⟩

theorem puts_oneLineBranches :
    Puts clean fuel (fun s => Behind clean [] s.parts ∧ Bare s.parts) oneLineBranches
      (Ended clean .ifStmt .kwEndIf ·.parts) := by
  have helse : PutsNode clean fuel (fun _ => True) (node .elseClause (do take; inlineBody [])) .elseClause :=
    putsNode_clause .elseClause rfl (x := take) trivial (putsNode_inlineBody hcalls)
  have hbranches : Puts clean fuel (fun s => AllEdged clean s.parts ∧ Bare s.parts) oneLineBranches
      fun t => Bodied clean t.parts ∧ Bare t.parts := by
    refine puts_bind ((putsNode_inlineBody hcalls).bodiedBare (.inl rfl)) fun _ => puts_askAny fun o => ?_
    split
    · exact (helse.bodiedBare (.inr rfl)).pre fun _ h => ⟨h.1.1, h.2⟩
    · exact puts_pure _
  refine hbranches.mono (fun _ h => ⟨h.1.allEdged allEdged_nil, h.2⟩) fun t h => ⟨h.1.1, ?_⟩
  exact .unclosed (.inl h.1.endsInBody) fun _ => ⟨rfl, fun w hw => h.2 w (List.mem_reverse.1 hw)⟩

theorem puts_blockBranches : Puts clean fuel (Behind clean [] ·.parts) blockBranches
    (Ended clean .ifStmt .kwEndIf ·.parts) := by
  rw [blockBranches_eq]
  refine puts_bind (puts_line lineal_lineEnd) fun _ => ?_
  refine puts_bind ((puts_blockBody hcalls).pre fun _ h => h.allEdged allEdged_nil) fun _ => ?_
  refine puts_bind (puts_moreBranches hcalls rfl (puts_elseIfBranch hcalls)) fun _ => ?_
  exact (puts_terminator lineal_lineEnd).pre fun _ => Bodied.beforeEnd

theorem puts_ifStatement : Puts clean fuel (fun s => s.current = some .kwIf ∧ AllEdged clean s.parts)
    ifStatement (AllEdged clean ·.parts) := by
  have hbranches : Puts clean fuel (fun s => Behind clean [] s.parts ∧ Bare s.parts) ifBranches
      (Ended clean .ifStmt .kwEndIf ·.parts) := by
    refine puts_askAny fun allowed => puts_bind puts_statementEnds fun ends => ?_
    split
    · exact puts_oneLineBranches hcalls
    · exact (puts_blockBranches hcalls).pre fun _ => And.left
  have hif := puts_bind puts_condition fun _ => hbranches
  rw [LawfulMonad.bind_assoc] at hif
  have hends : NodeKind.ifStmt.ends? = some (.kwEndIf, .kwIf) := rfl
  exact (putsNode_block (P := fun s => s.current = some .kwIf) hends (fun _ => id) hif).allEdged

/-! ### All statements -/

omit hcalls in
theorem puts_lineStatement (hx : (node kind x).Lineal true) :
    Puts clean fuel (fun s => s.current = some k ∧ AllEdged clean s.parts) (node kind x)
      (AllEdged clean ·.parts) :=
  (putsNode_line true hx).allEdged.pre fun _ h => ⟨fun _ => Reading.ne_nil_of_current h.1, h.2⟩

omit hcalls in
/-- The arguments of an instruction are put around its name. -/
theorem puts_instruction : Puts clean fuel (fun s => s.current = some k ∧ AllEdged clean s.parts) instruction
    (AllEdged clean ·.parts) := by
  rintro s v t hrun ht hs ⟨hk, hparts⟩
  have hcall : (do wrap .functionCall BlockForm.optionalArguments; lineEnd : Script Unit).Lineal false :=
    ⟨rfl, .inl rfl, lineal_optionalArguments, fun _ => lineal_lineEnd⟩
  obtain ⟨_, u, hu, hrun⟩ := run_bind_iff.1 hrun
  have hu' (h : clean) : u.reports = #[] := (Sketch.goesOn_of_run hrun).reports_eq_nil (ht h)
  obtain ⟨hhonest, d, hd, -, hlineal⟩ := node_of_run lineal_identifier
    (fun _ => Reading.ne_nil_of_current hk) hu hu' hs
  have hbehind : Behind clean s.parts u.parts :=
    ⟨[.node d], hd, fun e he => Piece.node.inj (List.mem_singleton.1 he) ▸ hlineal, nofun⟩
  obtain ⟨ht', hbehind⟩ := behind_of_run hcall nofun hrun ht hhonest hbehind
  exact ⟨ht', hbehind.allEdged hparts⟩

omit hcalls in
theorem puts_skipWords : Puts clean fuel (AllEdged clean ·.parts) skipWords (AllEdged clean ·.parts) :=
  (putsNode_line false lineal_skipWords).allEdged.pre fun _ => And.intro nofun

theorem puts_statementOf (k : TokenKind) :
    Puts clean fuel (fun s => s.current = some k ∧ AllEdged clean s.parts) (statementOf k)
      (AllEdged clean ·.parts) := by
  have hform (form : BlockForm) : Puts clean fuel (fun s => s.current = some form.opener ∧
      AllEdged clean s.parts) (statementOf form.opener) (AllEdged clean ·.parts) :=
    (puts_form hcalls form).pre fun _ => And.right
  unfold statementOf
  split
  · exact hform .program
  · exact hform .function
  · exact hform .subroutine
  · exact puts_ifStatement hcalls
  · exact hform .forLoop
  · exact hform .whileLoop
  · exact hform .doLoop
  · exact (puts_selectStatement hcalls).pre fun _ => And.right
  · exact hform .scan
  · exact hform .subScan
  · exact hform .slowSequence
  · exact hform .displayMenu
  · exact hform .subMenu
  · exact puts_lineStatement lineal_menuItem
  · exact hform .dataTable
  · exact puts_lineStatement lineal_callTable
  · exact puts_lineStatement lineal_variableDeclaration
  · exact puts_lineStatement lineal_variableDeclaration
  · exact puts_lineStatement lineal_constantDeclaration
  · exact hform .constantTable
  · exact puts_lineStatement lineal_aliasDeclaration
  · exact puts_lineStatement lineal_unitsDeclaration
  · exact puts_lineStatement lineal_returnStatement
  · exact puts_lineStatement lineal_exitStatement
  · exact puts_lineStatement lineal_callStatement
  · exact (puts_directive hcalls rfl lineal_directiveCondition).pre fun _ => And.right
  · exact (puts_directive hcalls rfl lineal_namedIdentifier).pre fun _ => And.right
  · exact puts_lineStatement lineal_directiveUndefine
  · exact puts_lineStatement lineal_inclusion
  · refine puts_askAny fun assigns => ?_
    split
    · exact puts_lineStatement lineal_assignmentStatement
    · exact puts_instruction
  · rw [unexpectedWord]
    split
    · exact puts_skipWords.pre fun _ => And.right
    · exact (puts_bind puts_report fun _ => puts_skipWords).pre fun _ => And.right

theorem puts_statementRule :
    Puts clean fuel (AllEdged clean ·.parts) statementRule (AllEdged clean ·.parts) := by
  have hlisten : Puts clean fuel (AllEdged clean ·.parts) listen (AllEdged clean ·.parts) := by
    intro s v t hrun _ _ hparts
    obtain rfl := run_act_iff.1 hrun
    exact ⟨fun _ => nofun, hparts⟩
  refine puts_bind hlisten fun _ => puts_askAny fun deep => ?_
  split
  · refine puts_bind puts_report fun _ => ?_
    exact (putsNode_line false (lineal_errorNode (lineal_take lineal_takeLine))).allEdged.pre
      fun _ => And.intro nofun
  · refine puts_ask fun o => ?_
    cases o with
    | none => exact (puts_pure ()).pre fun _ => And.left
    | some k => exact (puts_statementOf hcalls k).pre fun _ => And.symm

end Calls

theorem puts_statement (clean : Prop) (fuel : Nat) : PutsStatements clean fuel := by
  induction fuel with
  | zero =>
    intro s _ t hrun
    cases run_call_iff.1 hrun
  | succ fuel ih =>
    intro s _ t hrun
    exact puts_statementRule ih s () t (run_of_runRule (run_call_iff.1 hrun))

end Grammar

open Grammar

/-- All nodes of what a text is read as end as their kinds do. -/
theorem edged_of_readsAs {options : ParseOptions} {words : List Word} {parts : List (Piece Draft)}
    {reports : List Report} (h : ReadsAs options words parts reports) :
    AllEdged (reports = []) parts := by
  obtain ⟨t, ⟨fuel, hrun⟩, -, rfl, rfl⟩ := h
  have hstatements : Puts (t.reports.toList = []) fuel (AllEdged (t.reports.toList = []) ·.parts)
      allStatements (AllEdged (t.reports.toList = []) ·.parts) :=
    puts_whileM (puts_askAny fun _ => puts_pure _) (puts_statement _ fuel)
  obtain ⟨-, ht⟩ := hstatements _ () t hrun Array.toList_eq_nil_iff.1 (fun _ => nofun) allEdged_nil
  exact fun d hd => ht d (List.mem_reverse.1 hd)

end CRBasic
