import CRBasic.Proofs.Grammar.WalkStatement
import CRBasic.Proofs.Parsing.Putting
import CRBasic.Proofs.Parsing.Root

/-!
# Operands are ranked

In a ranked draft the left operand of an infix operator binds at least as tightly as the operator, the
right operand more tightly, and no operand of a sign is a binary expression.  A parse without a problem
puts ranked drafts only (`ranked_of_readsAs`): an operator is put around an operand only after a weaker
one has ended the expression on its right.
-/

namespace CRBasic

namespace TokenKind

theorem infixPower?_le {k : TokenKind} {powers : Nat × Nat} (h : k.infixPower? = some powers) :
    powers.1 ≤ 13 := by
  cases k <;> first | (cases h; decide) | cases h

theorem prefixPower?_eq {k : TokenKind} {power : Nat} (h : k.prefixPower? = some power) :
    power = 15 := by
  cases k <;> first | (cases h; rfl) | cases h

end TokenKind

namespace Draft

/-- How tightly the operator of a binary expression binds to its left operand. -/
def power? : Draft → Option Nat
  | around .binaryExpr _ (.word op :: _) => op.kind.infixPower?.map (·.1)
  | _ => none

/-- A draft that, if it is a binary expression, has an operator of at least the given left power. -/
def BindsFrom (power : Nat) (d : Draft) : Prop :=
  d.kind = .binaryExpr → ∃ p, d.power? = some p ∧ power ≤ p

/-- Every operation in a draft has its operator and operands that bind tightly enough. -/
inductive Ranked : Draft → Prop where
  | node {kind : NodeKind} {parts : List (Piece Draft)} (hkind : kind.isPlain)
      (hparts : ∀ d, .node d ∈ parts → Ranked d) : Ranked (.node kind parts)
  | around {kind : NodeKind} {first : Draft} {parts : List (Piece Draft)} (hkind : kind.isPlain)
      (hfirst : Ranked first) (hparts : ∀ d, .node d ∈ parts → Ranked d) :
      Ranked (.around kind first parts)
  | unary {op : Word} {d : Draft} (hd : Ranked d) (hkind : d.kind ≠ .binaryExpr) :
      Ranked (.node .unaryExpr [.word op, .node d])
  | binary {first d : Draft} {op : Word} {left right : Nat}
      (hop : op.kind.infixPower? = some (left, right)) (hfirst : Ranked first) (hd : Ranked d)
      (hleft : first.BindsFrom left) (hright : d.BindsFrom right) :
      Ranked (.around .binaryExpr first [.word op, .node d])

theorem bindsFrom_of_kind_ne {power : Nat} {d : Draft} (h : d.kind ≠ .binaryExpr) :
    d.BindsFrom power := fun hd => absurd hd h

theorem power?_le {d : Draft} {p : Nat} (h : d.power? = some p) : p ≤ 13 := by
  unfold power? at h
  split at h
  · next op _ =>
    obtain ⟨powers, hop, rfl⟩ := Option.map_eq_some_iff.1 h
    exact TokenKind.infixPower?_le hop
  · cases h

/-- No infix operator binds as tightly as a sign. -/
theorem kind_ne_of_bindsFrom {op : TokenKind} {power : Nat} {d : Draft}
    (hop : op.prefixPower? = some power) (h : d.BindsFrom power) : d.kind ≠ .binaryExpr := by
  intro hd
  obtain ⟨p, hp, hle⟩ := h hd
  have := power?_le hp
  have := TokenKind.prefixPower?_eq hop
  omega

end Draft

namespace Parsing

/-- Problems are not passed over, and the parts of the open node are ranked. -/
structure Sketch.Ranked (s : Sketch) : Prop where
  heard : s.silenced = false
  parts : ∀ d, .node d ∈ s.parts → d.Ranked

end Parsing

namespace Grammar

open Parsing Parsing.Script

/-- From a mode on, a run that finds no problem keeps the parts ranked and ends in a mode. -/
def Ranks (fuel : Nat) {α : Type} (m : Mode) (x : Script α) (m' : Mode) : Prop :=
  ∀ (s : Sketch) (a : α) (t : Sketch), x.run (runRule script fuel) fuel s = some (a, t) →
    t.reports = #[] → s.Ranked → m.Sees s.toReading → t.Ranked ∧ m'.Sees t.toReading

section Rules

variable {fuel : Nat} {α β : Type} {m m' m'' : Mode}

theorem ranks_pure (a : α) : Ranks fuel m (pure a) m := by
  intro s b t hrun _ hs hm
  obtain ⟨-, rfl⟩ := run_pure_iff.1 hrun
  exact ⟨hs, hm⟩

theorem ranks_bind {x : Script α} {f : α → Script β} (hx : Ranks fuel m x m')
    (hf : ∀ a, Ranks fuel m' (f a) m'') : Ranks fuel m (x >>= f) m'' := by
  intro s b u hrun hu hs hm
  obtain ⟨a, t, ht, hu'⟩ := run_bind_iff.1 hrun
  have htu := Sketch.goesOn_of_run hu'
  obtain ⟨ht, hm'⟩ := hx s a t ht (htu.reports_eq_nil hu) hs hm
  exact hf a t b u hu' hu ht hm'

/-- Only what modes say of the words makes a difference to ranks. -/
theorem ranks_mono {m₀ m₁ : Mode} {x : Script α} (hpre : ∀ s, m₀.Sees s → m.Sees s)
    (hpost : ∀ s, m'.Sees s → m₁.Sees s) (h : Ranks fuel m x m') : Ranks fuel m₀ x m₁ := by
  intro s a t hrun ht hs hm
  obtain ⟨ht, hm'⟩ := h s a t hrun ht hs (hpre _ hm)
  exact ⟨ht, hpost _ hm'⟩

/-- A question leads on from the modes that its answers tell. -/
theorem ranks_ask {q : Query α} {f : α → Script β} (n : α → Mode)
    (hn : ∀ s : Sketch, m.Sees s.toReading → (n (s.answer q)).Sees s.toReading)
    (h : ∀ a, Ranks fuel (n a) (f a) m') : Ranks fuel m (.ask q .done >>= f) m' :=
  fun s b t hrun ht hs hm => h _ s b t hrun ht hs (hn s hm)

theorem ranks_askAny {q : Query α} {f : α → Script β} (h : ∀ a, Ranks fuel m (f a) m') :
    Ranks fuel m (.ask q .done >>= f) m' :=
  ranks_ask (fun _ => m) (fun _ hm => hm) h

/-- A question of which the mode knows the answer. -/
theorem ranks_known {q : Query α} {f : α → Script β} {a : α}
    (ha : ∀ s : Sketch, m.Sees s.toReading → s.answer q = a) (h : Ranks fuel m (f a) m') :
    Ranks fuel m (.ask q .done >>= f) m' := by
  intro s b t hrun ht hs hm
  refine h s b t ?_ ht hs hm
  rw [← ha s hm]
  exact hrun

theorem ranks_take (hn : ∀ s : Sketch, m.Sees s.toReading → m'.Sees s.take.toReading) :
    Ranks fuel m take m' := by
  intro s u t hrun _ hs hm
  obtain rfl := run_act_iff.1 hrun
  refine ⟨?_, hn s hm⟩
  change s.take.Ranked
  rw [Sketch.take]
  split
  · exact hs
  · exact ⟨hs.heard, by simpa using hs.parts⟩

theorem ranks_takeLive {b : Bool} : Ranks fuel m take (.live true b) :=
  ranks_take fun _ _ => trivial

theorem ranks_report {place : Place} {cause : Cause} : Ranks fuel m (report place cause) m := by
  intro s u t hrun _ hs hm
  obtain rfl := run_act_iff.1 hrun
  change Sketch.Ranked { s with toReading := s.toReading.report place cause } ∧
    m.Sees (s.toReading.report place cause)
  rw [Reading.report]
  split
  · exact ⟨hs, hm⟩
  · exact ⟨⟨hs.heard, hs.parts⟩, hm.of_rest rfl⟩

theorem ranks_listen : Ranks fuel m listen m := by
  intro s u t hrun _ hs hm
  obtain rfl := run_act_iff.1 hrun
  exact ⟨⟨rfl, hs.parts⟩, hm.of_rest rfl⟩

/-- The parts inside a node are ranked, and so are those before it. -/
theorem ranks_inside {kind : NodeKind} {x : Script α} {s : Sketch} {a : α} {t : Sketch}
    (h : Ranks fuel m x m') (hrun : (node kind x).run (runRule script fuel) fuel s = some (a, t))
    (ht : t.reports = #[]) (hs : s.Ranked) (hm : m.Sees s.toReading) :
    ∃ u : Sketch, x.run (runRule script fuel) fuel s.fresh = some (a, u) ∧ u.Ranked ∧
      m'.Sees u.toReading ∧ t = u.leave s.parts (.node kind) := by
  obtain ⟨u, hu, rfl⟩ := run_within_iff.1 hrun
  obtain ⟨hu', hm'⟩ := h s.fresh a u hu ht ⟨hs.heard, by simp [Sketch.fresh]⟩ hm
  exact ⟨u, hu, hu', hm', rfl⟩

theorem ranks_node {kind : NodeKind} {x : Script α} (hkind : kind.isPlain)
    (h : Ranks fuel m x m') : Ranks fuel m (node kind x) m' := by
  intro s a t hrun ht hs hm
  obtain ⟨u, -, hu, hm', rfl⟩ := ranks_inside h hrun ht hs hm
  refine ⟨⟨hu.heard, fun d hd => ?_⟩, hm'⟩
  change Piece.node d ∈ Piece.node (.node kind u.parts.reverse) :: s.parts at hd
  rcases List.mem_cons.1 hd with hd | hd
  · cases hd
    exact .node hkind fun d hd => hu.parts d (List.mem_reverse.1 hd)
  · exact hs.parts d hd

theorem ranks_wrap {kind : NodeKind} {x : Script α} (hkind : kind.isPlain)
    (h : Ranks fuel m x m') : Ranks fuel m (wrap kind x) m' := by
  intro s a t hrun ht hs hm
  obtain ⟨u, hu, rfl⟩ := run_within_iff.1 hrun
  obtain ⟨hu, hm'⟩ := h s.fresh a u hu ht ⟨hs.heard, by simp [Sketch.fresh]⟩ hm
  have hparts (d : Draft) (hd : .node d ∈ u.parts.reverse) : d.Ranked :=
    hu.parts d (List.mem_reverse.1 hd)
  refine ⟨⟨hu.heard, fun d hd => ?_⟩, hm'⟩
  change Piece.node d ∈ Sketch.putAround kind u.parts s.parts at hd
  unfold Sketch.putAround at hd
  split at hd
  · next first before hs' =>
    rcases List.mem_cons.1 hd with hd | hd
    · cases hd
      exact .around hkind (hs.parts first (by simp [hs'])) hparts
    · exact hs.parts d (by simp [hs', hd])
  · rcases List.mem_cons.1 hd with hd | hd
    · cases hd
      exact .node hkind hparts
    · exact hs.parts d hd

/-- A stretch that is no node. -/
theorem ranks_within {scope : Scope} {x : Script α}
    (hbegin : ∀ s : Sketch, (Machine.begin s scope).2.parts = s.parts ∧
      (Machine.begin s scope).2.silenced = s.silenced ∧ (Machine.begin s scope).2.rest = s.rest)
    (hleave : ∀ (t : Sketch) mark, (Machine.leave t mark scope).parts = t.parts ∧
      (Machine.leave t mark scope).silenced = t.silenced ∧
      (Machine.leave t mark scope).rest = t.rest ∧
      (Machine.leave t mark scope).reports = t.reports) (h : Ranks fuel m x m') :
    Ranks fuel m (within scope x) m' := by
  intro s a t hrun ht hs hm
  obtain ⟨u, hu, rfl⟩ := run_within_iff.1 hrun
  obtain ⟨hparts, hsilenced, hrest⟩ := hbegin s
  obtain ⟨hparts', hsilenced', hrest', hreports'⟩ := hleave u (Machine.begin s scope).1
  have hstart : (Machine.begin s scope).2.Ranked :=
    ⟨hsilenced.trans hs.heard, by rw [hparts]; exact hs.parts⟩
  obtain ⟨hu, hm'⟩ := h _ a u hu (hreports' ▸ ht) hstart (hm.of_rest hrest)
  exact ⟨⟨hsilenced'.trans hu.heard, by rw [hparts']; exact hu.parts⟩, hm'.of_rest hrest'⟩

theorem ranks_nested {x : Script α} (h : Ranks fuel m x m') : Ranks fuel m (within .nested x) m' :=
  ranks_within (fun _ => ⟨rfl, rfl, rfl⟩) (fun _ _ => ⟨rfl, rfl, rfl, rfl⟩) h

theorem ranks_measured {x : Script α} (h : Ranks fuel m x m') :
    Ranks fuel m (within .measured x) m' :=
  ranks_within (fun _ => ⟨rfl, rfl, rfl⟩) (fun _ _ => ⟨rfl, rfl, rfl, rfl⟩) h

theorem ranks_stopAt {kinds : List TokenKind} {x : Script α} (h : Ranks fuel m x m') :
    Ranks fuel m (within (.stopAt kinds) x) m' :=
  ranks_within (fun _ => ⟨rfl, rfl, rfl⟩) (fun _ _ => ⟨rfl, rfl, rfl, rfl⟩) h

theorem ranks_collect {item : Script (Option β)} (h : Ranks fuel m item m) :
    Ranks fuel m (collect item) m := by
  intro s bs t hrun
  rw [run_collect_iff] at hrun
  refine repeatStep_induction (P := fun _ (s : Sketch) _ (t : Sketch) => t.reports = #[] →
    s.Ranked → m.Sees s.toReading → t.Ranked ∧ m.Sees t.toReading) ?_ ?_ hrun
  · exact fun _ s t hst => h s none t hst
  · intro n s b u bs t hsu hut ih ht hs hm
    have hu := Sketch.goesOn_of_rounds hut
    obtain ⟨hu', hm'⟩ := h s (some b) u hsu (hu.reports_eq_nil ht) hs hm
    exact ih ht hu' hm'

theorem ranks_statementEnds : Ranks fuel m statementEnds m := by
  refine ranks_askAny fun o => ?_
  have hstop : Ranks fuel m (atStop >>= pure) m := ranks_askAny ranks_pure
  split
  · exact ranks_pure _
  · exact hstop

theorem ranks_takeLine {l b : Bool} : Ranks fuel (.live l b) takeLine (.live l b) := by
  refine ranks_bind (ranks_collect (ranks_bind (ranks_bind ranks_statementEnds fun b => ranks_pure _)
    fun b => ?_)) fun _ => ranks_pure ()
  have htake : Ranks fuel (.live l b) take (.live l b) := ranks_take fun _ _ => trivial
  split
  · exact ranks_bind htake fun _ => ranks_pure _
  · exact ranks_pure none

theorem ranks_lineEnd {b : Bool} : Ranks fuel (.live true b) lineEnd (.live true b) := by
  have hskip : Ranks fuel (.live true b) (do node .errorNode takeLine; listen) (.live true b) :=
    ranks_bind (ranks_node rfl ranks_takeLine) fun _ => ranks_listen
  refine ranks_bind ranks_statementEnds fun b => ?_
  cases b with
  | true => exact ranks_listen
  | false =>
    refine ranks_askAny fun o => ?_
    split
    · exact hskip
    · exact hskip
    · exact ranks_bind ranks_report fun _ => hskip

/-- Ranks follow the rules for lines, if calls of expressions do. -/
theorem ranks_lineRules (hexpression : ∀ {l b : Bool} power,
    Ranks fuel (.live l b) (expressionFrom power) (.live false b)) :
    LineRules fun _ m x m' => Ranks fuel m x m' where
  pure := ranks_pure
  bind := ranks_bind
  weaken hpre hpost := ranks_mono (fun _ => hpre.sees) fun _ => hpost.sees
  measured_of_inner h := h
  idle _ hf h := ranks_askAny fun a => by rw [hf a]; exact h
  onLine {_ _ l b _ _} hnone hsome := by
    refine ranks_ask (fun o => o.elim (.live l b) (.seeing l b)) (fun s _ => ?_) fun o => ?_
    · change Mode.Sees (s.onLine.elim _ _) _
      cases h : s.onLine with
      | none => trivial
      | some k => exact h
    · cases o with
      | none => exact hnone
      | some k => exact hsome k
  onLine_seeing h := ranks_known (fun _ hm => hm) h
  current_seeing h := ranks_known (fun s hm => Reading.current_of_onLine hm) h
  current_word h := ranks_known (fun _ hm => hm) h
  second_seeing h := ranks_askAny h
  second_word {_ _ b k _ _} hnone hsome := by
    refine ranks_ask (fun o => o.elim (.word true b k) (.pair k)) (fun s hm => ?_) fun o => ?_
    · change Mode.Sees (s.secondOnLine.elim _ _) _
      cases h : s.secondOnLine with
      | none => exact hm
      | some k' => exact ⟨hm, h⟩
    · cases o with
      | none => exact hnone
      | some k' => exact hsome k'
  atStop htrue hfalse := ranks_askAny fun b => by
    cases b with
    | true => exact htrue
    | false => exact ranks_mono (fun _ => id) (fun _ => id) hfalse
  tooDeep h := ranks_askAny h
  here h := ranks_askAny h
  behind h := ranks_askAny h
  take_word := ranks_takeLive
  take_pair := ranks_take fun _ hm => Sketch.onLine_take hm.2
  take_seeing _ := ranks_takeLive
  report_live _ := ranks_mono (fun _ => id) (fun _ => id) ranks_report
  report_seeing _ := ranks_mono (fun _ => id) (fun _ => id) ranks_report
  report_word _ := ranks_mono (fun _ => id) (fun _ => id) ranks_report
  listen_live {_ l b} := ranks_mono (m := .live l b) (fun _ => id) (fun _ => id) ranks_listen
  listen_word := ranks_listen
  node hkind := ranks_node (NodeKind.isPlain_of_isRoutine hkind)
  number := ranks_node rfl
  wrap := ranks_wrap rfl
  wrapped hx hy := ranks_bind hx fun _ => ranks_wrap rfl hy
  nested := ranks_nested
  measured := ranks_measured
  collect := ranks_collect
  expression := hexpression
  lineEnd {_ l b} := ranks_mono (m := .live true b) (fun _ => id) (fun _ => id) ranks_lineEnd
  error h := h

/-! ### Expressions -/

/-- The next infix operator, if there is one, has a left power below the given one. -/
def Stops (power : Nat) (t : Sketch) : Prop :=
  ∀ left right, t.onLine.bind (·.infixPower?) = some (left, right) → left < power

/-- An expression whose operators have at least the given left power has been put. -/
structure PutsExpression (power : Nat) (before : List (Piece Draft)) (t : Sketch) : Prop where
  ranked : t.Ranked
  draft : ∃ d, t.parts = .node d :: before ∧ d.BindsFrom power
  stops : Stops power t

/-- Calls of expressions put expressions, if they find no problem. -/
def CallsPut (fuel : Nat) : Prop :=
  ∀ (power : Nat) (s t : Sketch), (expressionFrom power).run (runRule script fuel) fuel s = some ((), t) →
    t.reports = #[] → s.Ranked → PutsExpression power s.parts t

theorem nameReference_puts {s t : Sketch}
    (hrun : nameReference.run (runRule script fuel) fuel s = some ((), t)) :
    ∃ d, t.parts = .node d :: s.parts ∧ d.kind ≠ .binaryExpr := by
  obtain ⟨_, u, hu, hrun⟩ := run_bind_iff.1 hrun
  obtain ⟨ps, hps⟩ := Sketch.parts_node hu
  rw [onLine, run_ask_bind] at hrun
  split at hrun
  · obtain ⟨v, -, rfl⟩ := run_within_iff.1 hrun
    refine ⟨.around .functionCall (.node .identifier ps) v.parts.reverse, ?_, by simp [Draft.kind]⟩
    change Sketch.putAround .functionCall v.parts u.parts = _
    rw [hps, Sketch.putAround]
  · obtain ⟨-, rfl⟩ := run_pure_iff.1 hrun
    exact ⟨_, hps, by simp [Draft.kind]⟩

/-- What holds before every round of the operators: the operand so far is ranked, and binds tightly
enough for the operator that is next. -/
structure Operand (power : Nat) (before : List (Piece Draft)) (s : Sketch) : Prop where
  ranked : s.Ranked
  draft : ∃ d, s.parts = .node d :: before ∧ d.BindsFrom power ∧
    ∀ left right, s.onLine.bind (·.infixPower?) = some (left, right) → d.BindsFrom left

/-- An operand that is no binary expression is one for any operator. -/
theorem operand_of_kind_ne {power : Nat} {before : List (Piece Draft)} {t : Sketch} {d : Draft}
    (ht : t.Ranked) (hd : t.parts = .node d :: before) (hkind : d.kind ≠ .binaryExpr) :
    Operand power before t :=
  ⟨ht, d, hd, Draft.bindsFrom_of_kind_ne hkind, fun _ _ _ => Draft.bindsFrom_of_kind_ne hkind⟩

variable (hcalls : CallsPut fuel)
include hcalls

theorem CallsPut.lineRules : LineRules fun _ m x m' => Ranks fuel m x m' :=
  ranks_lineRules fun power s _ t hrun ht hs _ => ⟨(hcalls power s t hrun ht hs).ranked, trivial⟩

theorem operand_puts {s t : Sketch} {c : Bool}
    (hrun : operand.run (runRule script fuel) fuel s = some (c, t)) (ht : t.reports = #[])
    (hs : s.Ranked) :
    c = true ∧ t.Ranked ∧ ∃ d, t.parts = .node d :: s.parts ∧ d.kind ≠ .binaryExpr := by
  have hranked : t.Ranked :=
    (walk_operand hcalls.lineRules (l := true) (b := true) s c t hrun ht hs trivial).1
  have hnode {kind : NodeKind} {x : Script Unit}
      (hrun : (node kind x >>= fun _ => pure true).run (runRule script fuel) fuel s = some (c, t))
      (hkind : kind ≠ .binaryExpr) :
      c = true ∧ t.Ranked ∧ ∃ d, t.parts = .node d :: s.parts ∧ d.kind ≠ .binaryExpr := by
    obtain ⟨_, u, hu, hrun⟩ := run_bind_iff.1 hrun
    obtain ⟨rfl, rfl⟩ := run_pure_iff.1 hrun
    obtain ⟨ps, hps⟩ := Sketch.parts_node hu
    exact ⟨rfl, hranked, _, hps, hkind⟩
  rw [operand, onLine, run_ask_bind] at hrun
  split at hrun
  · exact hnode hrun (by decide)
  · exact hnode hrun (by decide)
  · exact hnode hrun (by decide)
  · exact hnode hrun (by decide)
  · exact hnode hrun (by decide)
  · obtain ⟨_, u, hu, hrun⟩ := run_bind_iff.1 hrun
    obtain ⟨rfl, rfl⟩ := run_pure_iff.1 hrun
    obtain ⟨d, hd, hkind⟩ := nameReference_puts hu
    exact ⟨rfl, hranked, d, hd, hkind⟩
  · exact hnode hrun (by decide)
  · exact absurd ht (Sketch.reports_ne_nil hs.heard hrun)

/-- Inside a node, an operator word and the expression after it. -/
theorem operation_puts {right : Nat} {k : TokenKind} {s t : Sketch} (hk : s.onLine = some k)
    (hrun : (do take; expressionFrom right).run (runRule script fuel) fuel s.fresh = some ((), t))
    (ht : t.reports = #[]) (hs : s.Ranked) :
    ∃ w e, w.kind = k ∧ t.parts = [.node e, .word w] ∧ e.Ranked ∧ e.BindsFrom right ∧
      t.silenced = false ∧ Stops right t := by
  obtain ⟨w, ws, hrest, rfl⟩ := rest_of_onLine hk
  have htake : s.fresh.take = { s with rest := ws, taken := s.taken + 1, parts := [.word w] } :=
    Sketch.take_eq hrest
  have hcall : (expressionFrom right).run (runRule script fuel) fuel
      { s with rest := ws, taken := s.taken + 1, parts := [.word w] } = some ((), t) := by
    rw [← htake]
    exact hrun
  obtain ⟨hranked, ⟨e, he, hright⟩, hstops⟩ := hcalls right _ t hcall ht ⟨hs.heard, by simp⟩
  exact ⟨w, e, rfl, he, hranked.parts e (by simp [he]), hright, hranked.heard, hstops⟩

/-- One operator with its right side becomes the left operand of the next one. -/
theorem operand_of_operator {power left right : Nat} {before : List (Piece Draft)} {s t : Sketch}
    (hs : Operand power before s) (hop : s.onLine.bind (·.infixPower?) = some (left, right))
    (hpower : power ≤ left)
    (hrun : (wrap .binaryExpr (do take; expressionFrom right)).run (runRule script fuel) fuel s =
      some ((), t)) (ht : t.reports = #[]) : Operand power before t := by
  obtain ⟨k, hk, hinfix⟩ := Option.bind_eq_some_iff.1 hop
  obtain ⟨d, hd, -, hbinds⟩ := hs.draft
  obtain ⟨v, hv, rfl⟩ := run_within_iff.1 hrun
  obtain ⟨w, e, rfl, he, hranked, hright, hheard, hstops⟩ :=
    operation_puts hcalls hk hv ht hs.ranked
  have hnew : (Draft.around .binaryExpr d [.word w, .node e]).Ranked :=
    .binary hinfix (hs.ranked.parts d (by simp [hd])) hranked (hbinds left right hop) hright
  have hbound {p : Nat} (hp : p ≤ left) :
      (Draft.around .binaryExpr d [.word w, .node e]).BindsFrom p :=
    fun _ => ⟨left, by simp [Draft.power?, hinfix], hp⟩
  have hparts : (Machine.leave v (Machine.begin s (.wrap .binaryExpr)).1 (.wrap .binaryExpr)).parts =
      .node (.around .binaryExpr d [.word w, .node e]) :: before := by
    change Sketch.putAround .binaryExpr v.parts s.parts = _
    rw [hd, Sketch.putAround, he]
    rfl
  refine ⟨⟨hheard, fun d' hd' => ?_⟩, _, hparts, hbound hpower, fun l r hnext => hbound ?_⟩
  · rw [hparts] at hd'
    rcases List.mem_cons.1 hd' with hd' | hd'
    · cases hd'
      exact hnew
    · exact hs.ranked.parts d' (by simp [hd, hd'])
  · -- The right side has ended before the next operator, so that one is weaker than it.
    have := hstops l r hnext
    have := TokenKind.infixPower?_right hinfix
    omega

theorem operators_put {power : Nat} {before : List (Piece Draft)} {s t : Sketch}
    (hrun : (operators power).run (runRule script fuel) fuel s = some ((), t))
    (ht : t.reports = #[]) (hs : Operand power before s) : PutsExpression power before t := by
  obtain ⟨_, u, hu, hrun⟩ := run_bind_iff.1 hrun
  obtain ⟨-, rfl⟩ := run_pure_iff.1 hrun
  rw [run_collect_iff] at hu
  refine repeatStep_induction (P := fun _ (s : Sketch) _ (t : Sketch) => t.reports = #[] →
    Operand power before s → PutsExpression power before t) ?_ ?_ hu ht hs
  · intro _ s t hround ht hs
    obtain ⟨d, hd, hbinds, -⟩ := hs.draft
    have hstop (h : ∀ left right, s.onLine.bind (·.infixPower?) = some (left, right) →
        left < power) : PutsExpression power before s := ⟨hs.ranked, ⟨d, hd, hbinds⟩, h⟩
    rw [onLine, run_ask_bind, answer_onLine] at hround
    split at hround
    · next hnone =>
      obtain ⟨-, rfl⟩ := run_pure_iff.1 hround
      exact hstop fun left right hop => by rw [hnone] at hop; cases hop
    · next left right hop =>
      split at hround
      · next hlt =>
        obtain ⟨-, rfl⟩ := run_pure_iff.1 hround
        exact hstop fun l r hop' => by rw [hop] at hop'; cases hop'; exact hlt
      · obtain ⟨_, _, _, hround⟩ := run_bind_iff.1 hround
        cases (run_pure_iff.1 hround).1
  · intro n s b u bs t hround hmore ih ht hs
    rw [onLine, run_ask_bind, answer_onLine] at hround
    split at hround
    · cases (run_pure_iff.1 hround).1
    · next left right hop =>
      split at hround
      · cases (run_pure_iff.1 hround).1
      · next hle =>
        obtain ⟨_, v, hv, hround⟩ := run_bind_iff.1 hround
        obtain ⟨-, rfl⟩ := run_pure_iff.1 hround
        have hu := (Sketch.goesOn_of_rounds hmore).reports_eq_nil ht
        exact ih ht (operand_of_operator hcalls hs hop (Nat.le_of_not_lt hle) hv hu)

/-- A sign with its operand becomes the left operand of the first operator. -/
theorem operand_of_sign {power right : Nat} {s t : Sketch} (hs : s.Ranked)
    (hop : s.onLine.bind (·.prefixPower?) = some right)
    (hrun : (node .unaryExpr (do take; expressionFrom right)).run (runRule script fuel) fuel s =
      some ((), t)) (ht : t.reports = #[]) : Operand power s.parts t := by
  obtain ⟨k, hk, hprefix⟩ := Option.bind_eq_some_iff.1 hop
  obtain ⟨v, hv, rfl⟩ := run_within_iff.1 hrun
  obtain ⟨w, e, -, he, hranked, hright, hheard, -⟩ := operation_puts hcalls hk hv ht hs
  have hparts : (Machine.leave v (Machine.begin s (.node .unaryExpr)).1 (.node .unaryExpr)).parts =
      .node (.node .unaryExpr [.word w, .node e]) :: s.parts := by
    change Piece.node (.node .unaryExpr v.parts.reverse) :: s.parts = _
    rw [he]
    rfl
  refine operand_of_kind_ne ⟨hheard, fun d hd => ?_⟩ hparts nofun
  rw [hparts] at hd
  rcases List.mem_cons.1 hd with hd | hd
  · cases hd
    exact .unary hranked (Draft.kind_ne_of_bindsFrom hprefix hright)
  · exact hs.parts d hd

theorem expressionRule_puts {power : Nat} {s t : Sketch}
    (hrun : (expressionRule power).run (runRule script fuel) fuel s = some ((), t))
    (ht : t.reports = #[]) (hs : s.Ranked) : PutsExpression power s.parts t := by
  rw [expressionRule, tooDeep, run_ask_bind] at hrun
  split at hrun
  · exact absurd ht (Sketch.reports_ne_nil hs.heard hrun)
  · obtain ⟨u, hu, rfl⟩ := run_within_iff.1 hrun
    suffices h : PutsExpression power s.parts u from
      ⟨⟨h.ranked.heard, h.ranked.parts⟩, h.draft, h.stops⟩
    have hstart : s.deeper.Ranked := ⟨hs.heard, hs.parts⟩
    rw [onLine, run_ask_bind, answer_onLine] at hu
    split at hu
    · next right hop =>
      obtain ⟨_, v, hv, hu⟩ := run_bind_iff.1 hu
      have hvreports := (Sketch.goesOn_of_run hu).reports_eq_nil ht
      exact operators_put hcalls hu ht (operand_of_sign (s := s.deeper) hcalls hstart hop hv hvreports)
    · obtain ⟨c, v, hv, hu⟩ := run_bind_iff.1 hu
      have hvreports := (Sketch.goesOn_of_run hu).reports_eq_nil ht
      obtain ⟨rfl, hranked, d, hd, hkind⟩ := operand_puts hcalls hv hvreports hstart
      exact operators_put hcalls hu ht (operand_of_kind_ne hranked hd hkind)

end Rules

/-- Whatever the fuel, calls of expressions put expressions. -/
theorem callsPut (fuel : Nat) : CallsPut fuel := by
  induction fuel with
  | zero =>
    intro power s t hrun
    cases run_call_iff.1 hrun
  | succ fuel ih =>
    intro power s t hrun ht hs
    exact expressionRule_puts ih (run_of_runRule (run_call_iff.1 hrun)) ht hs

/-! ### Blocks and statements -/

section Blocks

variable {fuel : Nat} {m : Mode}

theorem ranks_lines : LineRules fun _ m x m' => Ranks fuel m x m' := (callsPut fuel).lineRules

theorem ranks_texts : TextRules fun _ m x m' => Ranks fuel m x m' where
  toLineRules := ranks_lines
  text := ranks_askAny

theorem ranks_whileM {test : Script Bool} {body : Script Unit} (htest : Ranks fuel m test m)
    (hbody : Ranks fuel m body m) : Ranks fuel m (whileM test body) m := by
  refine ranks_bind (ranks_collect (ranks_bind htest fun c => ?_)) fun _ => ranks_pure ()
  split
  · exact ranks_bind hbody fun _ => ranks_pure _
  · exact ranks_pure none

/-- A branch on the kind of the next word on the line. -/
theorem ranks_ifOnLine {l b : Bool} {kind : TokenKind} {x y : Script α}
    (hx : Ranks fuel (.seeing l b kind) x m) (hy : Ranks fuel (.live l b) y m) :
    Ranks fuel (.live l b) (do if (← onLine) == some kind then x else y) m :=
  @StepRules.ifOnLine _ ranks_lines.toStepRules _ .inner _ _ _ _ _ _ hx hy

theorem ranks_instructionArguments {b : Bool} (instruction : TokenKind) (least most : Nat) :
    Ranks fuel (.live true b) (instructionArguments instruction least most) (.live false b) := by
  have hquiet {α : Type} {x : Script α} (hx : Ranks fuel (.live true b) x (.live true b)) :
      Ranks fuel (.live true b) x (.live false b) :=
    ranks_mono (fun _ => id) (fun _ => Mode.Le.sees .quiet) hx
  refine ranks_ifOnLine ?_ (ranks_bind ranks_report fun _ => hquiet (ranks_pure []))
  refine ranks_bind (walk_argumentList ranks_lines) fun args => ?_
  dsimp only
  split
  · exact ranks_pure _
  · exact ranks_bind ranks_report fun _ => ranks_pure _

theorem ranks_checkScanUnits {args : List Argument} : Ranks fuel m (checkScanUnits args) m := by
  unfold checkScanUnits
  split
  · split
    · exact ranks_pure _
    · exact ranks_report
  · exact ranks_pure _

theorem ranks_closingVariable {b : Bool} (name? : Option (List Char)) :
    Ranks fuel (.live true b) (closingVariable name?) (.live false b) := by
  have hnone : Ranks fuel (.live true b) (pure ()) (.live false b) :=
    ranks_mono (fun _ => id) (fun _ => Mode.Le.sees .quiet) (ranks_pure ())
  refine ranks_ifOnLine (ranks_measured ?_) hnone
  refine ranks_askAny fun closing => ?_
  refine ranks_bind (walk_nameReference ranks_lines (b := b) ranks_takeLive) fun _ => ?_
  cases name? with
  | none => exact ranks_pure ()
  | some name =>
    dsimp only
    split
    · exact ranks_pure ()
    · exact ranks_report

theorem ranks_terminator (kind opener : TokenKind) :
    Ranks fuel .body (terminator kind opener) (.live true false) := by
  refine ranks_mono (m := .live true false) (fun _ => id) (fun _ => id) (ranks_askAny fun o => ?_)
  split
  · exact ranks_bind ranks_takeLive fun _ => ranks_pure _
  · exact ranks_bind ranks_report fun _ => ranks_pure _

variable (hstatement : Ranks fuel (.live true false) statement (.live true false))
include hstatement

theorem ranks_blockBody {stops : List TokenKind} :
    Ranks fuel (.live true false) (blockBody stops) (.live true false) := by
  refine ranks_node rfl (ranks_stopAt (ranks_nested (ranks_whileM ?_ hstatement)))
  exact ranks_askAny fun o => ranks_askAny fun b => ranks_pure _

theorem ranks_inlineBody {stops : List TokenKind} :
    Ranks fuel (.live true false) (inlineBody stops) (.live true false) := by
  refine ranks_node rfl (ranks_stopAt (ranks_nested (ranks_bind ranks_statementEnds fun b => ?_)))
  cases b with
  | true => exact ranks_pure ()
  | false => exact hstatement

theorem ranks_blockRules : BlockRules fun _ m x m' => Ranks fuel m x m' where
  toLineRules := ranks_lines
  statement {s b k} := ranks_mono (m := .live true false) (fun _ _ => trivial) (fun _ => id) hstatement
  blockBody {b} _ _ := ranks_mono (m := .live true false) (fun _ => id) (fun _ => id)
    (ranks_blockBody hstatement)
  current_body hnone hsome := by
    refine ranks_ask (fun o => o.elim .body (.word true false)) (fun s _ => ?_) fun o => ?_
    · change Mode.Sees (s.current.elim _ _) _
      cases h : s.current with
      | none => trivial
      | some k => exact h
    · cases o with
      | none => exact hnone
      | some k => exact hsome k
  terminator := ranks_terminator
  unlessAtStop _ hx hy := ranks_askAny fun b => by
    cases b with
    | true => exact hx
    | false => exact ranks_bind ranks_report fun _ => hy
  scanArguments instruction least most := ranks_measured
    (ranks_bind (ranks_instructionArguments _ _ _) fun _ => ranks_checkScanUnits)
  tableArguments instruction least most := ranks_measured
    (ranks_bind (ranks_instructionArguments _ _ _) fun _ => ranks_pure ())
  closingVariable := ranks_closingVariable

theorem ranks_ifStatement {s b : Bool} :
    Ranks fuel (.word s b .kwIf) ifStatement (.live true false) := by
  have hr := ranks_blockRules hstatement
  have hone : Ranks fuel (.live true false) oneLineBranches (.live true false) := by
    refine ranks_bind (ranks_inlineBody hstatement) fun _ => ranks_askAny fun o => ?_
    split
    · refine ranks_node rfl (ranks_bind (ranks_takeLive (b := false)) fun _ => ?_)
      exact ranks_inlineBody hstatement
    · exact ranks_pure ()
  refine ranks_node rfl (ranks_bind (ranks_takeLive (b := false)) fun _ => ?_)
  refine ranks_bind (walk_condition hr.toLineRules) fun _ => ranks_askAny fun allowed => ?_
  refine ranks_bind ranks_statementEnds fun ends => ?_
  split
  · exact ranks_mono (m := .live true false) (fun _ => id) (fun _ => id) hone
  · exact walk_blockBranches hr

theorem ranks_statementRules : StatementRules fun _ m x m' => Ranks fuel m x m' where
  toBlockRules := ranks_blockRules hstatement
  forLoop := ranks_node rfl (walk_loopParts (ranks_blockRules hstatement) ranks_texts)
  scanStatement := ranks_node rfl (walk_scanParts (ranks_blockRules hstatement) rfl)
  subScanStatement := ranks_node rfl (walk_scanParts (ranks_blockRules hstatement) rfl)
  ifStatement := ranks_ifStatement hstatement
  assignmentOrInstruction := ranks_askAny fun b => by
    have hr := ranks_blockRules hstatement
    cases b with
    | true => exact walk_assignmentStatement hr.toLineRules
    | false => exact walk_instruction hr.toLineRules

end Blocks

/-- Whatever the fuel, statements that find no problem keep the parts ranked. -/
theorem ranks_statement (fuel : Nat) :
    Ranks fuel (.live true false) statement (.live true false) := by
  induction fuel with
  | zero =>
    intro s _ t hrun
    cases run_call_iff.1 hrun
  | succ fuel ih =>
    intro s _ t hrun ht hs _
    have hrun := run_of_runRule (run_call_iff.1 hrun)
    cases hk : s.current with
    | some k =>
      exact walk_statementRule (ranks_statementRules ih) (s := false) (b := false) s () t hrun ht hs hk
    | none =>
      change (listen >>= fun _ => _).run _ _ s = _ at hrun
      obtain ⟨_, u, hu, hrun⟩ := run_bind_iff.1 hrun
      obtain rfl := run_act_iff.1 hu
      have hu : Sketch.Ranked (Machine.perform s .listen) := ⟨rfl, hs.parts⟩
      rw [tooDeep, run_ask_bind] at hrun
      split at hrun
      · exact absurd ht (Sketch.reports_ne_nil rfl hrun)
      · have hnone : Machine.answer (Machine.perform s .listen) Query.current = none := hk
        rw [current, run_ask_bind, hnone] at hrun
        obtain ⟨-, rfl⟩ := run_pure_iff.1 hrun
        exact ⟨hu, trivial⟩

end Grammar

namespace Parsing

open Script Grammar

/-- The parts that a text is read as are ranked, if no problem is found. -/
theorem ranked_of_readsAs {options : ParseOptions} {words : List Word} {parts : List (Piece Draft)}
    (h : ReadsAs options words parts []) : (Draft.node .sourceFile parts).Ranked := by
  obtain ⟨t, ⟨fuel, hrun⟩, -, rfl, hreports⟩ := h
  have hloop : Ranks fuel (.live true false) allStatements (.live true false) :=
    ranks_whileM (ranks_askAny fun o => ranks_pure _) (ranks_statement fuel)
  have hstart : (Sketch.initial options words).Ranked := ⟨rfl, by simp [Sketch.initial]⟩
  obtain ⟨ht, -⟩ := hloop _ () t hrun (by simpa using hreports) hstart trivial
  exact .node rfl fun d hd => ht.parts d (List.mem_reverse.1 hd)

end Parsing

end CRBasic
