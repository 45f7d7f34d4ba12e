import CRBasic.Proofs.Grammar.Forms
import CRBasic.Proofs.Lines.Tidy

/-!
# Scripts for what stands on a line

A script for what stands on one line puts nodes of the kinds that do so only, with only such nodes inside,
and takes a word into each of them unless it reports a problem.  This can be read off the script, whatever
the text (`Script.Lineal`): a word is taken where the script has asked for one.  So it holds of the lines
that open blocks, of their ends, and of all statements of one line (`lineal_statementOf`).
-/

namespace CRBasic

/-- Kinds of node whose scripts may take no word of their own: what is skipped, and what a name calls. -/
def NodeKind.mayBeBare : NodeKind → Bool
  | .errorNode | .functionCall => true
  | _ => false

namespace Draft

/-- All nodes of a draft are of the kinds that stand on one line.  In a text without a problem they are not
empty. -/
def Lineal (clean : Prop) (d : Draft) : Prop :=
  d.All fun e => e.kind.isLine ∧ (clean → e.kind.mayBeBare = false → e.pieces ≠ [])

theorem lineal_iff {clean : Prop} {d : Draft} : d.Lineal clean ↔
    (d.kind.isLine ∧ (clean → d.kind.mayBeBare = false → d.pieces ≠ [])) ∧
      ∀ e, .node e ∈ d.pieces → e.Lineal clean := all_iff

end Draft

namespace Parsing

/-- No part is a statement list. -/
def NoBody (ps : List (Piece Draft)) : Prop := ∀ d : Draft, .node d ∈ ps → d.kind ≠ .stmtList

/-- What holds of some parts still holds after what stands on one line has been put behind them. -/
structure KeptOnLine (clean : Prop) (R : List (Piece Draft) → Prop) : Prop where
  word {w : Word} {ps : List (Piece Draft)} (h : R ps) : R (.word w :: ps)
  node {d : Draft} {ps : List (Piece Draft)} (h : R ps) (hd : d.Lineal clean) : R (.node d :: ps)
  around {kind : NodeKind} {d : Draft} {inner ps : List (Piece Draft)} (h : R (.node d :: ps))
    (hkind : kind.isLine) (hinner : ∀ e, .node e ∈ inner → e.Lineal clean) :
    R (.node (.around kind d inner) :: ps)

/-- No part is a statement list, and none becomes one. -/
theorem keptOnLine_noBody : KeptOnLine False NoBody where
  word h d hd := h d (by simpa using hd)
  node {d ps} h hd e he := by
    rcases List.mem_cons.1 he with heq | he
    · rw [Piece.node.inj heq]
      intro hkind
      have hline := (Draft.lineal_iff.1 hd).1.1
      rw [hkind] at hline
      cases hline
    · exact h e he
  around {kind d inner ps} h hkind _ e he := by
    rcases List.mem_cons.1 he with heq | he
    · rw [Piece.node.inj heq]
      rintro rfl
      cases hkind
    · exact h e (List.mem_cons_of_mem _ he)

/-- What stands on a line has been put behind some parts.  Nothing is put around these. -/
def Behind (clean : Prop) (base ps : List (Piece Draft)) : Prop :=
  ∃ new, ps = new ++ base ∧ (∀ d, .node d ∈ new → d.Lineal clean) ∧
    (new = [] → ∀ d before, base ≠ .node d :: before)

theorem behind_nil (clean : Prop) : Behind clean [] [] := ⟨[], rfl, nofun, fun _ => nofun⟩

theorem behind_word (clean : Prop) (w : Word) (ps : List (Piece Draft)) :
    Behind clean (.word w :: ps) (.word w :: ps) := ⟨[], rfl, nofun, fun _ => nofun⟩

theorem Behind.cons {clean : Prop} {base ps : List (Piece Draft)} {p : Piece Draft}
    (h : Behind clean base ps) (hp : ∀ d, p = .node d → d.Lineal clean) : Behind clean base (p :: ps) := by
  obtain ⟨new, rfl, hnew, -⟩ := h
  refine ⟨p :: new, rfl, fun d hd => ?_, nofun⟩
  rcases List.mem_cons.1 hd with hd | hd
  · exact hp d hd.symm
  · exact hnew d hd

theorem keptOnLine_behind {clean : Prop} (base : List (Piece Draft)) :
    KeptOnLine clean (Behind clean base) where
  word h := h.cons nofun
  node h hd := h.cons fun _ heq => Piece.node.inj heq ▸ hd
  around {kind d inner ps} h hkind hinner := by
    obtain ⟨new, hps, hnew, hbase⟩ := h
    cases new with
    | nil => exact absurd hps.symm (hbase rfl d ps)
    | cons p new =>
      obtain ⟨rfl, rfl⟩ := List.cons.inj hps
      have haround : (Draft.around kind d inner).Lineal clean := by
        refine Draft.lineal_iff.2 ⟨⟨hkind, fun _ _ => List.cons_ne_nil _ _⟩, fun c hc => ?_⟩
        rcases List.mem_cons.1 hc with heq | hc
        · exact Piece.node.inj heq ▸ hnew d List.mem_cons_self
        · exact hinner c hc
      refine ⟨.node (.around kind d inner) :: new, rfl, fun e he => ?_, nofun⟩
      rcases List.mem_cons.1 he with heq | he
      · exact Piece.node.inj heq ▸ haround
      · exact hnew e (List.mem_cons_of_mem _ he)

/-- Problems are passed over only after one has been found. -/
def Reading.Honest (s : Reading) : Prop := s.silenced → s.reports ≠ #[]

theorem Reading.Honest.heard {s : Reading} (h : s.Honest) (hreports : s.reports = #[]) :
    s.silenced = false := Bool.eq_false_iff.2 fun hs => h hs hreports

theorem Reading.Honest.transfer {s t : Reading} (h : s.Honest) (hsilenced : t.silenced = s.silenced)
    (hreports : t.reports = s.reports) : t.Honest := by
  rw [Honest, hsilenced, hreports]
  exact h

theorem Reading.honest_report {s : Reading} (hs : s.Honest) (place : Place) (cause : Cause) :
    (s.report place cause).reports ≠ #[] := by
  rw [Reading.report]
  split
  · next hsilenced => exact hs hsilenced
  · simp

namespace Script

/-! ### Reading it off -/

/-- The script starts by taking a word, or by reporting a problem.  The flag tells whether a word is known
to be next. -/
def Fills : {α : Type} → Bool → Script α → Prop
  | _, _, .ask .onLine next => (next none).Fills false ∧ ∀ k, (next (some k)).Fills true
  | _, known, .ask _ next => ∀ b, (next b).Fills known
  | _, known, .act .take _ => known
  | _, _, .act (.report _ _) _ => True
  | _, known, .during _ body _ => body.Fills known
  | _, _, _ => False

/-- The script puts nodes of the kinds that stand on one line, and fills each of them.  The flag tells
whether a word is known to be next. -/
def Lineal : {α : Type} → Bool → Script α → Prop
  | _, _, .done _ => True
  | _, _, .ask .onLine next => (next none).Lineal false ∧ ∀ k, (next (some k)).Lineal true
  | _, known, .ask _ next => ∀ b, (next b).Lineal known
  | _, _, .act .silence _ => False
  | _, _, .act .take next => (next ()).Lineal false
  | _, known, .act _ next => (next ()).Lineal known
  | _, known, .during (.node kind) body next | _, known, .during (.wrap kind) body next =>
    kind.isLine ∧ (kind.mayBeBare ∨ body.Fills known) ∧ body.Lineal known ∧ ∀ b, (next b).Lineal false
  | _, known, .during _ body next => body.Lineal known ∧ ∀ b, (next b).Lineal false
  | _, _, .many item next => item.Lineal false ∧ ∀ bs, (next bs).Lineal false
  | _, _, .call rule next => rule ≠ .statement ∧ (next ()).Lineal false

variable {α β : Type} {x : Script α} {f : α → Script β} {kind : NodeKind} {known : Bool}

theorem Fills.mono (h : x.Fills false) : x.Fills known := by
  cases known with
  | false => exact h
  | true =>
    induction x with
    | done a => exact h
    | ask q next ih => cases q <;> first | exact h | exact fun b => ih b (h b)
    | act a next ih => cases a <;> first | exact h | trivial
    | during scope body next ihBody _ => exact ihBody h
    | many item next _ _ => exact h
    | call rule next _ => exact h

theorem Lineal.mono (h : x.Lineal false) : x.Lineal known := by
  cases known with
  | false => exact h
  | true =>
    induction x with
    | done a => trivial
    | ask q next ih => cases q <;> first | exact h | exact fun b => ih b (h b)
    | act a next ih => cases a <;> first | exact h | exact ih () h
    | during scope body next ihBody _ =>
      cases scope with
      | node kind => exact ⟨h.1, h.2.1.imp_right Fills.mono, ihBody h.2.2.1, h.2.2.2⟩
      | wrap kind => exact ⟨h.1, h.2.1.imp_right Fills.mono, ihBody h.2.2.1, h.2.2.2⟩
      | stopAt kinds => exact ⟨ihBody h.1, h.2⟩
      | nested => exact ⟨ihBody h.1, h.2⟩
      | measured => exact ⟨ihBody h.1, h.2⟩
    | many item next _ _ => exact h
    | call rule next _ => exact h

theorem Fills.bind (hx : x.Fills known) : (x >>= f).Fills known := by
  change (x.bind f).Fills known
  induction x generalizing known with
  | done a => exact hx.elim
  | ask q next ih =>
    cases q with
    | onLine => exact ⟨ih none hx.1, fun k => ih (some k) (hx.2 k)⟩
    | _ => exact fun b => ih b (hx b)
  | act a next ih => cases a <;> exact hx
  | during scope body next _ _ => exact hx
  | many item next _ _ => exact hx.elim
  | call rule next _ => exact hx.elim

theorem Lineal.bind (hx : x.Lineal known) (hf : ∀ a, (f a).Lineal false) :
    (x >>= f).Lineal known := by
  change (x.bind f).Lineal known
  induction x generalizing known with
  | done a => exact (hf a).mono
  | ask q next ih =>
    cases q with
    | onLine => exact ⟨ih none hx.1 hf, fun k => ih (some k) (hx.2 k) hf⟩
    | _ => exact fun b => ih b (hx b) hf
  | act a next ih => cases a <;> first | exact hx.elim | exact ih () hx hf
  | during scope body next _ ih =>
    cases scope with
    | node kind => exact ⟨hx.1, hx.2.1, hx.2.2.1, fun b => ih b (hx.2.2.2 b) hf⟩
    | wrap kind => exact ⟨hx.1, hx.2.1, hx.2.2.1, fun b => ih b (hx.2.2.2 b) hf⟩
    | stopAt kinds => exact ⟨hx.1, fun b => ih b (hx.2 b) hf⟩
    | nested => exact ⟨hx.1, fun b => ih b (hx.2 b) hf⟩
    | measured => exact ⟨hx.1, fun b => ih b (hx.2 b) hf⟩
  | many item next _ ih => exact ⟨hx.1, fun bs => ih bs (hx.2 bs) hf⟩
  | call rule next ih => exact ⟨hx.1, ih () hx.2 hf⟩

/-- A question that tells nothing of the next word. -/
theorem lineal_ask {q : Query β} {f : β → Script α} (hf : ∀ a, (f a).Lineal false) :
    (Script.ask q .done >>= f).Lineal known := by
  cases q with
  | onLine => exact ⟨hf none, fun k => (hf (some k)).mono⟩
  | _ => exact fun a => (hf a).mono

theorem lineal_take {f : Unit → Script α} (hf : (f ()).Lineal false) :
    (take >>= f).Lineal known := hf

theorem lineal_report {place : Place} {cause : Cause} {f : Unit → Script α}
    (hf : (f ()).Lineal known) : (report place cause >>= f).Lineal known := hf

theorem lineal_collect {item : Script (Option β)} {f : List β → Script α} (hitem : item.Lineal false)
    (hf : ∀ bs, (f bs).Lineal false) : (collect item >>= f).Lineal known := ⟨hitem, hf⟩

theorem lineal_onLine {f : Option TokenKind → Script α} (hnone : (f none).Lineal false)
    (hsome : ∀ k, (f (some k)).Lineal true) : (onLine >>= f).Lineal known := ⟨hnone, hsome⟩

theorem fills_onLine {f : Option TokenKind → Script α} (hnone : (f none).Fills false)
    (hsome : ∀ k, (f (some k)).Fills true) : (onLine >>= f).Fills known := ⟨hnone, hsome⟩

theorem lineal_ifOnLine {k : TokenKind} {x y : Script α} (hx : x.Lineal true) (hy : y.Lineal false) :
    (do if (← onLine) == some k then x else y).Lineal known := by
  refine lineal_onLine hy fun k' => ?_
  split
  · exact hx
  · exact hy.mono

theorem lineal_node {x : Script α} (hkind : kind.isLine) (hfills : x.Fills known)
    (hx : x.Lineal known) : (node kind x).Lineal known :=
  ⟨hkind, .inr hfills, hx, fun _ => trivial⟩

/-- A node whose first word is taken where it is known to be next. -/
theorem lineal_takeNode {f : Unit → Script α} (hkind : kind.isLine) (hf : (f ()).Lineal false) :
    (node kind (take >>= f)).Lineal true :=
  lineal_node hkind rfl hf

theorem lineal_errorNode {x : Script α} (hx : x.Lineal known) : (node .errorNode x).Lineal known :=
  ⟨rfl, .inl rfl, hx, fun _ => trivial⟩

/-! ### Runs -/

variable {fuel : Nat} {s t : Sketch} {a : α} {clean : Prop} {R : List (Piece Draft) → Prop}

/-- A call of an expression puts only what stands on a line. -/
def CallsLineal (clean : Prop) (fuel : Nat) : Prop :=
  ∀ {R : List (Piece Draft) → Prop} {power : Nat} {s t : Sketch}, KeptOnLine clean R →
    runRule Grammar.script fuel (.expression power) s = some t → (clean → t.reports = #[]) →
    (clean → s.Honest) → R s.parts → (clean → t.Honest) ∧ R t.parts

theorem run_during {scope : Scope} {body : Script β} {next : β → Script α}
    (hrun : (Script.during scope body next).run (runRule Grammar.script fuel) fuel s = some (a, t)) :
    ∃ b u, body.run (runRule Grammar.script fuel) fuel (Machine.begin s scope).2 = some (b, u) ∧
      (next b).run (runRule Grammar.script fuel) fuel
        (Machine.leave u (Machine.begin s scope).1 scope) = some (a, t) := by
  simp only [Script.run] at hrun
  split at hrun
  · cases hrun
  · next b u hu => exact ⟨b, u, hu, hrun⟩

theorem run_many {item : Script (Option β)} {next : List β → Script α}
    (hrun : (Script.many item next).run (runRule Grammar.script fuel) fuel s = some (a, t)) :
    ∃ bs u, repeatStep (item.run (runRule Grammar.script fuel) fuel) fuel s = some (bs, u) ∧
      (next bs).run (runRule Grammar.script fuel) fuel u = some (a, t) := by
  simp only [Script.run] at hrun
  split at hrun
  · cases hrun
  · next bs u hu => exact ⟨bs, u, hu, hrun⟩

theorem run_called {rule : Rule} {next : Unit → Script α}
    (hrun : (Script.call rule next).run (runRule Grammar.script fuel) fuel s = some (a, t)) :
    ∃ u, runRule Grammar.script fuel rule s = some u ∧
      (next ()).run (runRule Grammar.script fuel) fuel u = some (a, t) := by
  simp only [Script.run] at hrun
  split at hrun
  · cases hrun
  · next u hu => exact ⟨u, hu, hrun⟩

/-- Nothing need hold of the next word if none is known. -/
theorem of_unknown {P : Prop} (h : false = true) : P := absurd h Bool.false_ne_true

/-- Where no problem is found, a script that starts by taking a word takes one. -/
theorem Fills.run (hx : x.Fills known) (hknown : known → s.rest ≠ [])
    (hrun : x.run (runRule Grammar.script fuel) fuel s = some (a, t)) (ht : t.reports = #[])
    (hs : s.Honest) : s.taken < t.taken := by
  induction x generalizing known s t with
  | done b => exact hx.elim
  | ask q next ih =>
    cases q with
    | onLine =>
      have hrun : (next s.onLine).run (runRule Grammar.script fuel) fuel s = some (a, t) := hrun
      cases honLine : s.onLine with
      | none =>
        rw [honLine] at hrun
        exact ih none hx.1 of_unknown hrun ht hs
      | some k =>
        rw [honLine] at hrun
        exact ih (some k) (hx.2 k) (fun _ => Reading.ne_nil_of_onLine honLine) hrun ht hs
    | _ => exact ih _ (hx _) hknown hrun ht hs
  | act b next ih =>
    cases b with
    | take =>
      obtain ⟨w, ws, hrest⟩ := List.exists_cons_of_ne_nil (hknown hx)
      have hgoes := (Sketch.goesOn_of_run (x := next ()) hrun).taken_le
      change s.take.taken ≤ t.taken at hgoes
      rw [Sketch.take_eq hrest] at hgoes
      exact hgoes
    | report place cause =>
      have hgoes := (Sketch.goesOn_of_run (x := next ()) hrun).reports_eq_nil ht
      exact absurd hgoes (Reading.honest_report hs place cause)
    | silence => exact hx.elim
    | listen => exact hx.elim
  | during scope body next ihBody ih =>
    obtain ⟨b, u, hu, hrun⟩ := run_during hrun
    obtain ⟨hrest, htaken, hsilenced, hreports⟩ := Grammar.begin_same s scope
    obtain ⟨-, htaken', -, hreports'⟩ := Grammar.leave_same u (Machine.begin s scope).1 scope
    have hgoes := Sketch.goesOn_of_run (x := next b) hrun
    have hle := hgoes.taken_le
    have hinner := ihBody hx (hrest ▸ hknown) hu (hreports'.symm.trans (hgoes.reports_eq_nil ht))
      (hs.transfer hsilenced hreports)
    omega
  | many item next _ ih => exact hx.elim
  | call rule next ih => exact hx.elim

/-- Where no problem is found, such a script puts something into a new node. -/
theorem Fills.parts_ne_nil (hx : x.Fills known) (hknown : known → s.rest ≠ [])
    (hrun : x.run (runRule Grammar.script fuel) fuel s.fresh = some (a, t)) (ht : t.reports = #[])
    (hs : s.Honest) : t.parts ≠ [] := by
  intro hparts
  have hlt := hx.run (s := s.fresh) hknown hrun ht hs
  have hwords : Sketch.HasWords s.rest t :=
    Sketch.kept_hasWords.run (i := s.rest) (s := s.fresh) rfl hrun Sketch.kept_hasWords.runRule
  have hrest : t.rest = s.fresh.rest := by
    rw [Sketch.HasWords, hparts] at hwords
    exact hwords
  have htaken := (Sketch.goesOn_of_run hrun).taken
  rw [hrest] at htaken
  omega

/-- What such a script puts into a new node of a kind that stands on a line makes it one that does. -/
theorem lineal_of_behind {kind : NodeKind} {s u : Sketch} {x : Script β} {b : β} (hkind : kind.isLine)
    (hfills : kind.mayBeBare ∨ x.Fills known) (hknown : known → s.rest ≠ [])
    (hrun : x.run (runRule Grammar.script fuel) fuel s.fresh = some (b, u))
    (hu : clean → u.reports = #[]) (hs : clean → s.Honest) (h : Behind clean [] u.parts) :
    (Draft.node kind u.parts.reverse).Lineal clean ∧ ∀ e, .node e ∈ u.parts.reverse → e.Lineal clean := by
  obtain ⟨new, hnew, hlineal, -⟩ := h
  rw [List.append_nil] at hnew
  have hinner (e : Draft) (he : .node e ∈ u.parts.reverse) : e.Lineal clean :=
    hlineal e (hnew ▸ List.mem_reverse.1 he)
  refine ⟨Draft.lineal_iff.2 ⟨⟨hkind, fun hclean hbare hnil => ?_⟩, hinner⟩, hinner⟩
  have hfills := hfills.resolve_left (Bool.eq_false_iff.1 hbare)
  exact hfills.parts_ne_nil hknown hrun (hu hclean) (hs hclean) (List.reverse_eq_nil_iff.1 hnil)

/-- Such a script puts what stands on a line behind the parts. -/
theorem Lineal.run (hcalls : CallsLineal clean fuel) (hR : KeptOnLine clean R) (hx : x.Lineal known)
    (hknown : known → s.rest ≠ [])
    (hrun : x.run (runRule Grammar.script fuel) fuel s = some (a, t))
    (ht : clean → t.reports = #[]) (hs : clean → s.Honest) (hparts : R s.parts) :
    (clean → t.Honest) ∧ R t.parts := by
  induction x generalizing known s t R with
  | done b =>
    cases hrun
    exact ⟨hs, hparts⟩
  | ask q next ih =>
    cases q with
    | onLine =>
      have hrun : (next s.onLine).run (runRule Grammar.script fuel) fuel s = some (a, t) := hrun
      cases honLine : s.onLine with
      | none =>
        rw [honLine] at hrun
        exact ih none hR hx.1 of_unknown hrun ht hs hparts
      | some k =>
        rw [honLine] at hrun
        exact ih (some k) hR (hx.2 k) (fun _ => Reading.ne_nil_of_onLine honLine) hrun ht hs hparts
    | _ => exact ih _ hR (hx _) hknown hrun ht hs hparts
  | act b next ih =>
    cases b with
    | take =>
      have hrun : (next ()).run (runRule Grammar.script fuel) fuel s.take = some (a, t) := hrun
      refine ih () hR hx of_unknown hrun ht ?_ ?_
      · rw [Sketch.take]
        split <;> exact hs
      · rw [Sketch.take]
        split
        · exact hparts
        · exact hR.word hparts
    | report place cause =>
      refine ih () (s := s.perform (.report place cause)) hR hx ?_ hrun ht ?_ hparts
      · have hrest : (s.perform (.report place cause)).rest = s.rest :=
          s.toReading.rest_report place cause
        rwa [hrest]
      · exact fun hclean _ => Reading.honest_report (hs hclean) place cause
    | silence => exact hx.elim
    | listen => exact ih () (s := s.perform .listen) hR hx hknown hrun ht (fun _ => of_unknown) hparts
  | during scope body next ihBody ih =>
    obtain ⟨b, u, hu, hrun⟩ := run_during hrun
    obtain ⟨-, -, hsilenced', hreports'⟩ := Grammar.leave_same u (Machine.begin s scope).1 scope
    have hu' (h : clean) : u.reports = #[] :=
      hreports'.symm.trans ((Sketch.goesOn_of_run (x := next b) hrun).reports_eq_nil (ht h))
    -- A node, and one that goes around another, start with nothing in them.
    have hmade {kind : NodeKind} (hkind : kind.isLine) (hfills : kind.mayBeBare ∨ body.Fills known)
        (hbody : body.Lineal known)
        (hu : body.run (runRule Grammar.script fuel) fuel s.fresh = some (b, u)) :
        (clean → u.Honest) ∧ (Draft.node kind u.parts.reverse).Lineal clean ∧
          ∀ e, .node e ∈ u.parts.reverse → e.Lineal clean := by
      obtain ⟨hhonest, hbehind⟩ :=
        ihBody (s := s.fresh) (keptOnLine_behind []) hbody hknown hu hu' hs (behind_nil clean)
      exact ⟨hhonest, lineal_of_behind hkind hfills hknown hu hu' hs hbehind⟩
    cases scope with
    | node kind =>
      obtain ⟨hkind, hfills, hbody, hnext⟩ := hx
      obtain ⟨hhonest, hnode, -⟩ := hmade hkind hfills hbody hu
      exact ih b hR (hnext b) of_unknown hrun ht hhonest (hR.node hparts hnode)
    | wrap kind =>
      obtain ⟨hkind, hfills, hbody, hnext⟩ := hx
      obtain ⟨hhonest, hnode, hinner⟩ := hmade hkind hfills hbody hu
      refine ih b (s := u.leave s.parts (.wrap kind)) hR (hnext b) of_unknown hrun ht hhonest ?_
      change R (Sketch.putAround kind u.parts s.parts)
      unfold Sketch.putAround
      split
      · next d before hparts' => exact hR.around (hparts' ▸ hparts) hkind hinner
      · exact hR.node hparts hnode
    | stopAt kinds =>
      obtain ⟨hhonest, hu⟩ := ihBody (s := (Machine.begin s (.stopAt kinds)).2) hR hx.1 hknown hu hu'
        hs hparts
      exact ih b (s := Machine.leave u s.parts (.stopAt kinds)) hR (hx.2 b) of_unknown hrun ht hhonest hu
    | nested =>
      obtain ⟨hhonest, hu⟩ := ihBody (s := (Machine.begin s .nested).2) hR hx.1 hknown hu hu' hs hparts
      exact ih b (s := Machine.leave u s.parts .nested) hR (hx.2 b) of_unknown hrun ht hhonest hu
    | measured =>
      obtain ⟨hhonest, hu⟩ := ihBody (s := (Machine.begin s .measured).2) hR hx.1 hknown hu hu' hs hparts
      exact ih b (s := Machine.leave u s.parts .measured) hR (hx.2 b) of_unknown hrun ht hhonest hu
  | many item next ihItem ih =>
    obtain ⟨bs, u, hu, hrun⟩ := run_many hrun
    have hu' (h : clean) : u.reports = #[] :=
      (Sketch.goesOn_of_run (x := next bs) hrun).reports_eq_nil (ht h)
    obtain ⟨hhonest, hu⟩ : (clean → u.Honest) ∧ R u.parts := by
      refine repeatStep_induction (P := fun _ (s : Sketch) _ (t : Sketch) =>
        (clean → t.reports = #[]) → (clean → s.Honest) → R s.parts → (clean → t.Honest) ∧ R t.parts)
        ?_ ?_ hu hu' hs hparts
      · exact fun _ s t hst ht hs hparts => ihItem hR hx.1 of_unknown hst ht hs hparts
      · intro _ s b u bs t hsu hut ih ht hs hparts
        have hu (h : clean) : u.reports = #[] := (Sketch.goesOn_of_rounds hut).reports_eq_nil (ht h)
        obtain ⟨hhonest, hparts⟩ := ihItem hR hx.1 of_unknown hsu hu hs hparts
        exact ih ht hhonest hparts
    exact ih bs hR (hx.2 bs) of_unknown hrun ht hhonest hu
  | call rule next ih =>
    obtain ⟨u, hu, hnext⟩ := run_called hrun
    have hu' (h : clean) : u.reports = #[] :=
      (Sketch.goesOn_of_run (x := next ()) hnext).reports_eq_nil (ht h)
    cases rule with
    | statement => exact absurd rfl hx.1
    | expression power =>
      obtain ⟨hhonest, hu⟩ := hcalls hR hu hu' hs hparts
      exact ih () hR hx.2 of_unknown hnext ht hhonest hu

end Script

end Parsing

namespace Grammar

open Parsing Parsing.Script

variable {α : Type} {known : Bool}

/-! ### Single words -/

theorem lineal_eatThen {k : TokenKind} {f : Bool → Script α} (htrue : (f true).Lineal false)
    (hfalse : (f false).Lineal false) : (eat k >>= f).Lineal known := by
  rw [eat, LawfulMonad.bind_assoc]
  refine lineal_onLine hfalse fun k' => ?_
  split
  · exact lineal_take htrue
  · exact hfalse.mono

theorem lineal_eat (k : TokenKind) : (eat k).Lineal known :=
  lineal_ifOnLine trivial trivial

theorem lineal_expectThen {k : TokenKind} {f : Bool → Script α} (htrue : (f true).Lineal false)
    (hfalse : (f false).Lineal false) : (expect k >>= f).Lineal known := by
  rw [expect, LawfulMonad.bind_assoc]
  exact lineal_eatThen htrue hfalse

theorem lineal_want (k : TokenKind) : (want k).Lineal known := lineal_expectThen trivial trivial

theorem lineal_named {part : Part} {x : Script Unit} (hx : x.Lineal true) :
    (named part x).Lineal known := lineal_ifOnLine hx trivial

theorem fills_named {part : Part} {x : Script Unit} (hx : x.Fills true) :
    (named part x).Fills known := by
  refine ⟨trivial, fun k => ?_⟩
  change (if (some k == some .ident) = true then x else _).Fills true
  split
  · exact hx
  · trivial

theorem lineal_oneWord {kind : NodeKind} (hkind : kind.isLine) : (oneWord kind).Lineal true :=
  lineal_node hkind rfl trivial

theorem lineal_separated {item : Script α} (hitem : item.Lineal false) :
    (separated item).Lineal known := by
  refine hitem.mono.bind fun a => lineal_collect ?_ fun _ => trivial
  exact lineal_eatThen (hitem.bind fun _ => trivial) trivial

/-! ### Ends of lines -/

theorem lineal_statementEnds {f : Bool → Script α} (hf : ∀ ends, (f ends).Lineal false) :
    (statementEnds >>= f).Lineal known := by
  rw [statementEnds, LawfulMonad.bind_assoc]
  exact lineal_onLine (hf true) fun k => lineal_ask hf

theorem lineal_takeLine : takeLine.Lineal known := by
  refine lineal_collect ?_ fun _ => trivial
  rw [LawfulMonad.bind_assoc]
  refine lineal_statementEnds fun ends => ?_
  cases ends <;> trivial

theorem lineal_lineEnd : lineEnd.Lineal known := by
  have hskip : (do node .errorNode takeLine; listen : Script Unit).Lineal false :=
    (lineal_errorNode lineal_takeLine).bind fun _ => trivial
  refine lineal_statementEnds fun ends => ?_
  cases ends with
  | true => trivial
  | false =>
    refine lineal_ask fun o => ?_
    split
    · exact hskip
    · exact hskip
    · exact lineal_report hskip

theorem lineal_skipWords : skipWords.Lineal known := by
  refine lineal_errorNode (lineal_take (lineal_collect ?_ fun _ => trivial))
  rw [LawfulMonad.bind_assoc]
  refine lineal_statementEnds fun ends => ?_
  rw [startsAnotherStatement, LawfulMonad.bind_assoc, LawfulMonad.bind_assoc]
  refine lineal_ask fun o => ?_
  split
  · change (if _ then (take >>= fun _ => pure (some ())) else pure none).Lineal false
    split <;> trivial
  · cases ends <;> trivial

/-! ### Expressions -/

theorem lineal_expressionFrom (power : Nat) : (expressionFrom power).Lineal known :=
  ⟨nofun, trivial⟩

theorem lineal_identifier : identifier.Lineal true :=
  lineal_takeNode rfl <| lineal_collect (lineal_eatThen (lineal_eatThen trivial trivial) trivial)
    fun _ => trivial

theorem lineal_argument : argument.Lineal known :=
  lineal_ask fun _ => lineal_ask fun _ => lineal_ask fun _ =>
    (lineal_expressionFrom 0).bind fun _ => lineal_ask fun _ => trivial

theorem lineal_argumentList : argumentList.Lineal true := by
  have hend (start : Edge) (items : List Argument) : (do
      want .rParen
      let stop ← behind
      return (⟨start, stop, items⟩ : Arguments)).Lineal false :=
    (lineal_want _).bind fun _ => lineal_ask fun _ => trivial
  refine lineal_node rfl (fun _ => rfl) (lineal_ask fun start => lineal_take ?_)
  exact lineal_ifOnLine ((hend start []).mono) ((lineal_separated lineal_argument).bind (hend start))

theorem lineal_arguments : arguments.Lineal true :=
  ⟨lineal_argumentList.bind fun _ => trivial, fun _ => trivial⟩

theorem lineal_nameReference : nameReference.Lineal true :=
  lineal_identifier.bind fun _ => lineal_ifOnLine ⟨rfl, .inl rfl, lineal_arguments, fun _ => trivial⟩
    trivial

theorem lineal_expression : expression.Lineal known := lineal_expressionFrom 0

theorem lineal_parenthesized {kind : NodeKind} {item : Script α} (hkind : kind.isLine)
    (hitem : item.Lineal false) : (parenthesized kind item).Lineal true := by
  refine lineal_takeNode hkind (lineal_onLine ?_ fun k => ?_)
  · exact (lineal_separated hitem).bind fun _ => lineal_want _
  · split
    · exact lineal_want _
    · exact (lineal_separated hitem).bind fun _ => lineal_want _

theorem lineal_operand : operand.Lineal known := by
  have hword {kind : NodeKind} (hkind : kind.isLine) :
      (do oneWord kind; return true : Script Bool).Lineal true :=
    (lineal_oneWord hkind).bind fun _ => trivial
  have hmissing {known : Bool} {found : Option TokenKind} : (do
      report .here (.missingPart .expression)
      if leavesOperand found || (← atStop) then return false
      else
        oneWord .errorNode
        return true : Script Bool).Lineal known := by
    have hskip : (oneWord .errorNode).Lineal false := lineal_errorNode (x := take) trivial
    refine lineal_report (lineal_ask fun stop => ?_)
    split
    · trivial
    · exact hskip.bind fun _ => trivial
  refine lineal_onLine hmissing fun k => ?_
  split
  · exact hword rfl
  · exact hword rfl
  · exact hword rfl
  · exact hword rfl
  · exact hword rfl
  · exact lineal_nameReference.bind fun _ => trivial
  · refine (lineal_takeNode rfl ?_).bind fun _ => trivial
    exact lineal_expression.bind fun _ => lineal_want _
  · exact hmissing

theorem lineal_operators (power : Nat) : (operators power).Lineal known := by
  refine lineal_collect (lineal_onLine trivial fun k => ?_) fun _ => trivial
  rw [Option.bind_some]
  split
  · trivial
  · split
    · trivial
    · exact ⟨rfl, .inr rfl, lineal_take (lineal_expressionFrom _), fun _ => trivial⟩

theorem lineal_unsigned (power : Nat) : (do if ← operand then operators power).Lineal known := by
  refine lineal_operand.bind fun c => ?_
  split
  · exact lineal_operators power
  · trivial

theorem lineal_expressionBody (power : Nat) : (expressionBody power).Lineal known := by
  refine lineal_onLine (lineal_unsigned power) fun k => ?_
  rw [Option.bind_some]
  split
  · exact (lineal_takeNode rfl (lineal_expressionFrom _)).bind fun _ => lineal_operators power
  · exact lineal_unsigned power

section Calls

variable {clean : Prop} {R : List (Piece Draft) → Prop} {fuel : Nat} {s t : Sketch} {a : α} {x : Script α}

/-- An expression that is too deep is reported before problems are passed over. -/
theorem behind_skipDeepExpression (hcalls : CallsLineal clean fuel) (hR : KeptOnLine clean R) {v : Unit}
    (hrun : skipDeepExpression.run (runRule script fuel) fuel s = some (v, t))
    (ht : clean → t.reports = #[]) (hs : clean → s.Honest) (hparts : R s.parts) :
    (clean → t.Honest) ∧ R t.parts := by
  obtain ⟨_, u, hu, hrun⟩ := run_bind_iff.1 hrun
  obtain rfl := run_act_iff.1 hu
  obtain ⟨w, hw, rfl⟩ := run_within_iff.1 hrun
  obtain ⟨_, x, hx, hline⟩ := run_bind_iff.1 hw
  obtain rfl := run_act_iff.1 hx
  have hreports (hclean : clean) : (s.toReading.report .here .nestingTooDeep).reports ≠ #[] :=
    Reading.honest_report (hs hclean) _ _
  have hlineal : takeLine.Lineal false := lineal_takeLine
  obtain ⟨hhonest, hbehind⟩ := hlineal.run hcalls (keptOnLine_behind []) of_unknown hline ht
    (fun hclean _ => hreports hclean) (behind_nil clean)
  have hbare : NodeKind.errorNode.mayBeBare ∨ (do silence; takeLine : Script Unit).Fills false := .inl rfl
  obtain ⟨hnode, -⟩ := lineal_of_behind rfl hbare of_unknown hw ht (fun hclean _ => hreports hclean) hbehind
  exact ⟨hhonest, hR.node hparts hnode⟩

theorem callsLineal (clean : Prop) (fuel : Nat) : CallsLineal clean fuel := by
  induction fuel with
  | zero => exact fun _ hrun => nomatch hrun
  | succ fuel ih =>
    intro R power s t hR hrun ht hs hparts
    have hrun : (expressionRule power).run (runRule script fuel) fuel s = some ((), t) :=
      run_of_runRule hrun
    rw [expressionRule_eq, tooDeep, run_ask_bind] at hrun
    split at hrun
    · exact behind_skipDeepExpression ih hR hrun ht hs hparts
    · obtain ⟨u, hu, rfl⟩ := run_within_iff.1 hrun
      have hbody : (expressionBody power).Lineal false := lineal_expressionBody power
      exact hbody.run (t := u) ih hR of_unknown hu ht hs hparts

/-- Such a script puts what stands on a line behind the parts, with the expressions that it calls. -/
theorem behind_of_run {known : Bool} {base : List (Piece Draft)} (hx : x.Lineal known)
    (hknown : known → s.rest ≠ []) (hrun : x.run (runRule script fuel) fuel s = some (a, t))
    (ht : clean → t.reports = #[]) (hs : clean → s.Honest) (hparts : Behind clean base s.parts) :
    (clean → t.Honest) ∧ Behind clean base t.parts :=
  hx.run (callsLineal clean fuel) (keptOnLine_behind base) hknown hrun ht hs hparts

/-- A node on a line is put behind the parts. -/
theorem node_of_run {known : Bool} {kind : NodeKind} (hx : (node kind x).Lineal known)
    (hknown : known → s.rest ≠ []) (hrun : (node kind x).run (runRule script fuel) fuel s = some (a, t))
    (ht : clean → t.reports = #[]) (hs : clean → s.Honest) : (clean → t.Honest) ∧
      ∃ d : Draft, t.parts = .node d :: s.parts ∧ d.kind = kind ∧ d.Lineal clean := by
  obtain ⟨hkind, hfills, hbody, -⟩ := hx
  obtain ⟨u, hu, rfl⟩ := run_within_iff.1 hrun
  obtain ⟨hhonest, hbehind⟩ := behind_of_run (s := s.fresh) hbody hknown hu ht hs (behind_nil clean)
  exact ⟨hhonest, _, rfl, rfl, (lineal_of_behind hkind hfills hknown hu ht hs hbehind).1⟩

/-- Such a script puts no statement list into the open node. -/
theorem noBody_of_run (hx : x.Lineal false) (hs : NoBody s.parts)
    (hrun : x.run (runRule script fuel) fuel s = some (a, t)) : NoBody t.parts :=
  (hx.run (callsLineal False fuel) keptOnLine_noBody nofun hrun nofun nofun hs).2

end Calls

/-! ### Declarations -/

theorem lineal_typeReference : typeReference.Lineal true :=
  lineal_takeNode rfl <| lineal_named <| lineal_take <| lineal_eatThen lineal_expression trivial

theorem lineal_asType : typeAnnotation.Lineal known := lineal_ifOnLine lineal_typeReference trivial

theorem lineal_namedIdentifier {part : Part} : (named part identifier).Lineal known :=
  lineal_named lineal_identifier

theorem lineal_namedReference {part : Part} : (named part nameReference).Lineal known :=
  lineal_named lineal_nameReference

theorem lineal_declarator : declarator.Lineal known := by
  refine lineal_node rfl (fills_named rfl) (lineal_named (lineal_identifier.bind fun _ => ?_))
  refine lineal_ifOnLine ?_ lineal_asType
  exact (lineal_parenthesized rfl lineal_expression).bind fun _ => lineal_asType

theorem lineal_variableDeclaration : variableDeclaration.Lineal true :=
  lineal_takeNode rfl <| (lineal_separated lineal_declarator).bind fun _ => lineal_lineEnd

theorem lineal_constantDeclaration : constantDeclaration.Lineal true := by
  refine lineal_takeNode rfl (lineal_namedIdentifier.bind fun _ => lineal_asType.bind fun _ => ?_)
  exact lineal_expectThen (lineal_expression.bind fun _ => lineal_lineEnd) lineal_lineEnd

theorem lineal_aliasDeclaration : aliasDeclaration.Lineal true := by
  refine lineal_takeNode rfl (lineal_namedReference.bind fun _ => ?_)
  exact lineal_expectThen (lineal_namedIdentifier.bind fun _ => lineal_lineEnd) lineal_lineEnd

theorem lineal_unitsDeclaration : unitsDeclaration.Lineal true := by
  refine lineal_takeNode rfl (lineal_namedReference.bind fun _ => ?_)
  exact lineal_expectThen (lineal_eatThen lineal_lineEnd (lineal_report lineal_lineEnd)) lineal_lineEnd

theorem lineal_parameter : parameter.Lineal known := by
  refine lineal_node rfl (fills_onLine trivial fun k => ?_) (lineal_onLine trivial fun k => ?_)
  · split
    · exact Fills.bind rfl
    · trivial
  · split
    · refine lineal_identifier.bind fun _ => lineal_eatThen ?_ lineal_asType
      exact (lineal_want _).bind fun _ => lineal_asType
    · refine lineal_report ?_
      split
      · trivial
      · trivial
      · trivial
      · exact lineal_oneWord rfl

theorem lineal_parameterList : parameterList.Lineal true := lineal_parenthesized rfl lineal_parameter

/-! ### Lines of blocks -/

theorem lineal_procedureHeader (part : Part) : (procedureHeader part).Lineal known :=
  lineal_namedIdentifier.bind fun _ => lineal_ifOnLine lineal_parameterList trivial

theorem lineal_condition : condition.Lineal known :=
  lineal_expression.bind fun _ => lineal_want _

theorem lineal_loopVariable : loopVariable.Lineal known :=
  lineal_ifOnLine (fun _ => lineal_nameReference.bind fun _ => trivial) trivial

theorem lineal_loopBounds : loopBounds.Lineal known := by
  refine lineal_expectThen (lineal_expression.bind fun _ => ?_) trivial
  refine lineal_expectThen (lineal_expression.bind fun _ => ?_) trivial
  exact lineal_eatThen lineal_expression trivial

theorem lineal_loopCondition : loopCondition.Lineal known := by
  refine lineal_onLine trivial fun k => ?_
  split
  · exact lineal_take lineal_expression
  · exact lineal_take lineal_expression
  · trivial

theorem lineal_closingVariable (name? : Option (List Char)) : (closingVariable name?).Lineal known := by
  refine lineal_ifOnLine ⟨fun closing => lineal_nameReference.bind fun _ => ?_, fun _ => trivial⟩ trivial
  split
  · trivial
  · split <;> trivial

theorem lineal_directiveCondition : directiveCondition.Lineal known :=
  lineal_expression.bind fun _ => (lineal_eat _).bind fun _ => trivial

theorem lineal_caseSelector : caseSelector.Lineal known := by
  have hvalue {known : Bool} : caseValue.Lineal known :=
    lineal_expression.bind fun _ => lineal_eatThen lineal_expression trivial
  have hvalues {known : Bool} : (do let _ ← separated caseValue : Script Unit).Lineal known :=
    (lineal_separated hvalue).bind fun _ => trivial
  refine lineal_onLine hvalues fun k => ?_
  split
  · trivial
  · refine lineal_take (lineal_onLine lineal_expression fun k => ?_)
    rw [Option.any_some]
    split
    · exact lineal_take lineal_expression
    · exact lineal_expression
  · exact hvalues

theorem lineal_instructionArguments (instruction : TokenKind) (least most : Nat) :
    (instructionArguments instruction least most).Lineal known := by
  refine lineal_ifOnLine (lineal_argumentList.bind fun args => ?_) trivial
  dsimp only
  split <;> trivial

theorem lineal_scanArguments (instruction : TokenKind) (least most : Nat) :
    (scanArguments instruction least most).Lineal known := by
  refine ⟨(lineal_instructionArguments instruction least most).bind fun args => ?_, fun _ => trivial⟩
  unfold checkScanUnits
  split
  · split <;> trivial
  · trivial

theorem lineal_optionalArguments : BlockForm.optionalArguments.Lineal known :=
  lineal_ifOnLine lineal_arguments trivial

theorem lineal_head (form : BlockForm) : form.head.Lineal known := by
  cases form with
  | program => trivial
  | slowSequence => trivial
  | function =>
    exact (lineal_procedureHeader _).bind fun _ => lineal_asType.bind fun _ => trivial
  | subroutine => exact (lineal_procedureHeader _).bind fun _ => trivial
  | forLoop => exact lineal_loopVariable.bind fun _ => lineal_loopBounds.bind fun _ => trivial
  | whileLoop => exact lineal_expression.bind fun _ => trivial
  | doLoop => exact lineal_loopCondition.bind fun _ => trivial
  | scan => exact (lineal_scanArguments _ _ _).bind fun _ => trivial
  | subScan => exact (lineal_scanArguments _ _ _).bind fun _ => trivial
  | displayMenu => exact lineal_optionalArguments.bind fun _ => trivial
  | subMenu => exact lineal_optionalArguments.bind fun _ => trivial
  | constantTable => exact lineal_optionalArguments.bind fun _ => trivial
  | dataTable =>
    refine Lineal.bind ⟨?_, fun _ => trivial⟩ fun _ => trivial
    exact (lineal_instructionArguments _ _ _).bind fun _ => trivial

theorem lineal_opening (form : BlockForm) : form.opening.Lineal known :=
  lineal_take <| (lineal_head form).bind fun _ => lineal_lineEnd.bind fun _ => trivial

theorem lineal_closing (form : BlockForm) (name? : Option (List Char)) :
    (form.closing name?).Lineal known := by
  cases form with
  | forLoop => exact lineal_closingVariable name?
  | doLoop => exact lineal_loopCondition
  | _ => trivial

/-! ### Statements of one line -/

theorem lineal_directiveUndefine : directiveUndefine.Lineal true :=
  lineal_takeNode rfl <| lineal_namedIdentifier.bind fun _ => lineal_lineEnd

theorem lineal_inclusion : inclusion.Lineal true := by
  refine lineal_takeNode rfl (lineal_ifOnLine (lineal_expression.bind fun _ => lineal_lineEnd) ?_)
  exact lineal_report ((lineal_errorNode lineal_takeLine).bind fun _ => lineal_lineEnd)

theorem lineal_enclosedEnd (enclosed : Bool) : (do
    if enclosed then want .rParen
    lineEnd).Lineal known := by
  cases enclosed with
  | false => exact lineal_lineEnd
  | true => exact (lineal_want _).bind fun _ => lineal_lineEnd

theorem lineal_menuItem : menuItem.Lineal true := by
  refine lineal_takeNode rfl ((lineal_eat _).bind fun enclosed => ?_)
  have hend {known : Bool} : (do
      let _ ← eat .comma
      named .menuItemVariable nameReference
      if enclosed then want .rParen
      lineEnd).Lineal known :=
    (lineal_eat _).bind fun _ => lineal_namedReference.bind fun _ => lineal_enclosedEnd enclosed
  exact lineal_ifOnLine (lineal_expression.bind fun _ => hend) (lineal_report hend)

theorem lineal_callTable : callTable.Lineal true :=
  lineal_takeNode rfl <| (lineal_eat _).bind fun enclosed =>
    lineal_namedIdentifier.bind fun _ => lineal_enclosedEnd enclosed

theorem lineal_assignmentStatement : assignmentStatement.Lineal true := by
  have hvalue {known : Bool} : (do expression; lineEnd).Lineal known :=
    lineal_expression.bind fun _ => lineal_lineEnd
  refine lineal_node rfl (Fills.bind (Fills.bind rfl)) (lineal_nameReference.bind fun _ => ?_)
  refine lineal_onLine (lineal_report hvalue) fun k => ?_
  rw [Option.any_some]
  split
  · exact lineal_take hvalue
  · exact lineal_report hvalue

theorem lineal_returnStatement : returnStatement.Lineal true := by
  refine lineal_takeNode rfl (lineal_onLine lineal_lineEnd fun k => ?_)
  rw [Option.any_some]
  split
  · exact lineal_expression.bind fun _ => lineal_lineEnd
  · exact lineal_lineEnd

theorem lineal_exitStatement : exitStatement.Lineal true := by
  refine lineal_takeNode rfl (lineal_onLine (lineal_report lineal_lineEnd) fun k => ?_)
  rw [Option.any_some]
  split
  · exact lineal_take lineal_lineEnd
  · exact lineal_report lineal_lineEnd

theorem lineal_callStatement : callStatement.Lineal true :=
  lineal_takeNode rfl <| lineal_namedReference.bind fun _ => lineal_lineEnd

end Grammar

end CRBasic
