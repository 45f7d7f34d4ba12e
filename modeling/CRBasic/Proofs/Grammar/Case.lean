import CRBasic.Proofs.Grammar.WalkStatement
import CRBasic.Proofs.Parsing.Case
import CRBasic.Proofs.Parsing.Runs
import CRBasic.Proofs.Parsing.Text

/-!
# Statements in either case

From two stages that are the same in lower case a script leads to two such stages (`Agree`).  The
text of words is looked at in one place, where a loop variable is named again, and there the case of
letters makes no difference (`sameName_eq`).  So words in either case are parsed into the same events
and reports but for the names in them (`finalState_lowered`).
-/

namespace CRBasic

namespace Parsing.State

theorem rest_begin (s : State) (scope : Scope) : (Machine.begin s scope).2.rest = s.rest := by
  cases scope with
  | wrap kind =>
    change s.openAround.rest = s.rest
    unfold openAround
    split <;> rfl
  | _ => rfl

theorem rest_leave (s : State) (mark : Nat) (scope : Scope) :
    (Machine.leave s mark scope).rest = s.rest := by
  cases scope <;> rfl

theorem onLine_take {s : State} {k : TokenKind} (h : s.secondOnLine = some k) :
    s.take.onLine = some k := by
  rw [Reading.secondOnLine] at h
  split at h
  · next w v ws hrest =>
    rw [take, hrest]
    exact h
  · cases h

end Parsing.State

namespace Grammar

open Parsing Parsing.Script

/-- From two stages that are the same in lower case, the first in a mode, two scripts lead to such
stages, the first again in a mode, with results in a relation. -/
def Agree (fuel : Nat) {α β : Type} (m : Mode) (R : α → β → Prop) (x : Script α) (y : Script β)
    (m' : Mode) : Prop :=
  ∀ (s t : State) (a : α) (u : State), s.lowered = t.lowered → m.Sees s.toReading →
    x.run (runRule script fuel) fuel s = some (a, u) →
      ∃ b v, y.run (runRule script fuel) fuel t = some (b, v) ∧ R a b ∧ u.lowered = v.lowered ∧
        m'.Sees u.toReading

/-- A script does the same with words in either case. -/
abbrev IgnoresCase (fuel : Nat) {α : Type} (m : Mode) (x : Script α) (m' : Mode) : Prop :=
  Agree fuel m Eq x x m'

section Rules

variable {fuel : Nat} {α β γ δ : Type} {m m' m'' : Mode} {R : α → β → Prop} {S : γ → δ → Prop}

theorem agree_pure {a : α} {b : β} (h : R a b) : Agree fuel m R (pure a) (pure b) m := by
  intro s t c u hst hm hrun
  obtain ⟨rfl, rfl⟩ := run_pure_iff.1 hrun
  exact ⟨b, t, rfl, h, hst, hm⟩

theorem ignores_pure (a : α) : IgnoresCase fuel m (pure a) m := agree_pure rfl

theorem agree_bind {x : Script α} {y : Script β} {f : α → Script γ} {g : β → Script δ}
    (hx : Agree fuel m R x y m') (hf : ∀ a b, R a b → Agree fuel m' S (f a) (g b) m'') :
    Agree fuel m S (x >>= f) (y >>= g) m'' := by
  intro s t c w hst hm hrun
  obtain ⟨a, u, hu, hw⟩ := run_bind_iff.1 hrun
  obtain ⟨b, v, hv, hab, huv, hm'⟩ := hx s t a u hst hm hu
  obtain ⟨d, z, hz, hcd, hwz, hm''⟩ := hf a b hab u v c w huv hm' hw
  exact ⟨d, z, run_bind_iff.2 ⟨b, v, hv, hz⟩, hcd, hwz, hm''⟩

/-- After a script that does the same with words in either case. -/
theorem ignores_bind {x : Script α} {f : α → Script γ} {g : α → Script δ}
    (hx : IgnoresCase fuel m x m') (hf : ∀ a, Agree fuel m' S (f a) (g a) m'') :
    Agree fuel m S (x >>= f) (x >>= g) m'' :=
  agree_bind hx fun a _ hab => hab ▸ hf a

theorem agree_mono {m₀ m₁ : Mode} {x : Script α} {y : Script β} (hpre : ∀ s, m₀.Sees s → m.Sees s)
    (hpost : ∀ s, m'.Sees s → m₁.Sees s) (h : Agree fuel m R x y m') : Agree fuel m₀ R x y m₁ := by
  intro s t a u hst hm hrun
  obtain ⟨b, v, hv, hab, huv, hm'⟩ := h s t a u hst (hpre _ hm) hrun
  exact ⟨b, v, hv, hab, huv, hpost _ hm'⟩

/-! ### Questions -/

theorem answer_eq {s t : State} (hst : s.lowered = t.lowered) {q : Query α}
    (hq : q.isText = false) :
    Machine.answer t q = Machine.answer s q := by
  have hreading : s.toReading.lowered = t.toReading.lowered := congrArg State.toReading hst
  change t.toReading.answer q = s.toReading.answer q
  rw [← Reading.answer_lowered _ hq, ← hreading, Reading.answer_lowered _ hq]

/-- A question leads on from the modes that its answers tell. -/
theorem agree_ask {q : Query α} (hq : q.isText = false) {f : α → Script γ} {g : α → Script δ}
    (n : α → Mode) (hn : ∀ s : State, m.Sees s.toReading → (n (s.answer q)).Sees s.toReading)
    (h : ∀ a, Agree fuel (n a) S (f a) (g a) m') :
    Agree fuel m S (.ask q .done >>= f) (.ask q .done >>= g) m' := by
  intro s t c u hst hm hrun
  rw [run_ask_bind] at hrun ⊢
  rw [answer_eq hst hq]
  exact h _ s t c u hst (hn s hm) hrun

theorem agree_askAny {q : Query α} (hq : q.isText = false) {f : α → Script γ} {g : α → Script δ}
    (h : ∀ a, Agree fuel m S (f a) (g a) m') :
    Agree fuel m S (.ask q .done >>= f) (.ask q .done >>= g) m' :=
  agree_ask hq (fun _ => m) (fun _ hm => hm) h

/-- A question of which the mode knows the answer. -/
theorem agree_known {q : Query α} (hq : q.isText = false) {f : α → Script γ} {g : α → Script δ}
    {a : α} (ha : ∀ s : State, m.Sees s.toReading → s.answer q = a) (h : Agree fuel m S (f a) (g a) m') :
    Agree fuel m S (.ask q .done >>= f) (.ask q .done >>= g) m' := by
  intro s t c u hst hm hrun
  rw [run_ask_bind] at hrun ⊢
  have hs : Machine.answer s q = a := ha s hm
  rw [answer_eq hst hq, hs]
  rw [hs] at hrun
  exact h s t c u hst hm hrun

/-- Words in either case have the same text in lower case. -/
theorem agree_text {f : List Char → Script γ} {g : List Char → Script δ}
    (h : ∀ cs ds, lowered cs = lowered ds → Agree fuel m S (f cs) (g ds) m') :
    Agree fuel m S (Script.text >>= f) (Script.text >>= g) m' := by
  intro s t c u hst hm hrun
  refine h _ _ ?_ s t c u hst hm hrun
  have hreading : s.toReading.lowered = t.toReading.lowered := congrArg State.toReading hst
  change lowered s.toReading.text = lowered t.toReading.text
  rw [← Reading.text_lowered, hreading, Reading.text_lowered]

/-! ### Changes and stretches -/

theorem agree_act {a b : Action} (hab : a.lowered = b.lowered)
    (hn : ∀ s : State, m.Sees s.toReading → m'.Sees (Machine.perform s a).toReading) :
    Agree fuel m Eq (.act a .done) (.act b .done) m' := by
  intro s t u v hst hm hrun
  obtain rfl := run_act_iff.1 hrun
  refine ⟨(), _, run_act_iff.2 rfl, rfl, ?_, hn s hm⟩
  rw [State.perform_lowered, State.perform_lowered, hst, hab]

theorem ignores_take (hn : ∀ s : State, m.Sees s.toReading → m'.Sees s.take.toReading) :
    IgnoresCase fuel m take m' := agree_act rfl hn

theorem ignores_takeLive {b : Bool} : IgnoresCase fuel m take (.live true b) :=
  ignores_take fun _ _ => trivial

theorem agree_report {place : Place} {cause cause' : Cause} (h : cause.lowered = cause'.lowered) :
    Agree fuel m Eq (report place cause) (report place cause') m := by
  refine agree_act (congrArg (Action.report place) h) fun s hm => hm.of_rest ?_
  exact s.toReading.rest_report place cause

theorem ignores_report {place : Place} {cause : Cause} :
    IgnoresCase fuel m (report place cause) m := agree_report rfl

theorem ignores_silence : IgnoresCase fuel m silence m := agree_act rfl fun _ hm => hm.of_rest rfl

theorem ignores_listen : IgnoresCase fuel m listen m := agree_act rfl fun _ hm => hm.of_rest rfl

theorem agree_within {scope : Scope} {x : Script α} {y : Script β} (h : Agree fuel m R x y m') :
    Agree fuel m R (within scope x) (within scope y) m' := by
  intro s t a u hst hm hrun
  obtain ⟨w, hw, rfl⟩ := run_within_iff.1 hrun
  have hbegin : Machine.begin s.lowered scope = Machine.begin t.lowered scope := by rw [hst]
  rw [State.begin_lowered, State.begin_lowered, Prod.mk.injEq] at hbegin
  obtain ⟨hmark, hbegin⟩ := hbegin
  obtain ⟨b, v, hv, hab, hwv, hm'⟩ := h _ _ a w hbegin (hm.of_rest (s.rest_begin scope)) hw
  refine ⟨b, _, run_within_iff.2 ⟨v, hv, rfl⟩, hab, ?_, hm'.of_rest (State.rest_leave w _ scope)⟩
  rw [State.leave_lowered, State.leave_lowered, hmark, hwv]

theorem ignores_node {kind : NodeKind} {x : Script α} (h : IgnoresCase fuel m x m') :
    IgnoresCase fuel m (node kind x) m' := agree_within h

theorem ignores_collect {item : Script (Option α)} (h : IgnoresCase fuel m item m) :
    IgnoresCase fuel m (collect item) m := by
  intro s t as u hst hm hrun
  rw [run_collect_iff] at hrun
  have hrounds := repeatStep_induction (P := fun n (s : State) as (u : State) => ∀ t : State,
    s.lowered = t.lowered → m.Sees s.toReading →
      ∃ v, repeatStep (item.run (runRule script fuel) fuel) n t = some (as, v) ∧
        u.lowered = v.lowered ∧ m.Sees u.toReading) ?_ ?_ hrun t hst hm
  · obtain ⟨v, hv, huv, hm'⟩ := hrounds
    exact ⟨as, v, run_collect_iff.2 hv, rfl, huv, hm'⟩
  · intro n s u hsu t hst hm
    obtain ⟨b, v, hv, hb, huv, hm'⟩ := h s t none u hst hm hsu
    subst hb
    exact ⟨v, by rw [repeatStep, hv], huv, hm'⟩
  · intro n s a w as u hsw _ ih t hst hm
    obtain ⟨b, z, hz, hb, hwz, hm'⟩ := h s t (some a) w hst hm hsw
    subst hb
    obtain ⟨v, hv, huv, hm''⟩ := ih z hwz hm'
    exact ⟨v, by simp only [repeatStep, hz, hv], huv, hm''⟩

theorem ignores_whileM {test : Script Bool} {body : Script Unit} (htest : IgnoresCase fuel m test m)
    (hbody : IgnoresCase fuel m body m) : IgnoresCase fuel m (whileM test body) m := by
  refine ignores_bind (ignores_collect (ignores_bind htest fun c => ?_)) fun _ => ignores_pure ()
  split
  · exact ignores_bind hbody fun _ => ignores_pure _
  · exact ignores_pure none

/-! ### Lines -/

theorem ignores_statementEnds : IgnoresCase fuel m statementEnds m := by
  refine agree_askAny rfl fun o => ?_
  have hstop : IgnoresCase fuel m (atStop >>= pure) m := agree_askAny rfl ignores_pure
  split
  · exact ignores_pure _
  · exact hstop

theorem ignores_takeLine {l b : Bool} : IgnoresCase fuel (.live l b) takeLine (.live l b) := by
  have htake : IgnoresCase fuel (.live l b) take (.live l b) := ignores_take fun _ _ => trivial
  exact ignores_whileM (ignores_bind ignores_statementEnds fun _ => ignores_pure _) htake

theorem ignores_lineEnd {l b : Bool} : IgnoresCase fuel (.live l b) lineEnd (.live true b) := by
  have hend : IgnoresCase fuel (.live l b) listen (.live true b) :=
    agree_mono (fun _ => id) (fun _ _ => trivial) ignores_listen
  have hskip : IgnoresCase fuel (.live l b) (do node .errorNode takeLine; listen) (.live true b) :=
    ignores_bind (ignores_node ignores_takeLine) fun _ => hend
  refine ignores_bind ignores_statementEnds fun ends => ?_
  cases ends with
  | true => exact hend
  | false =>
    refine agree_askAny rfl fun o => ?_
    split
    · exact hskip
    · exact hskip
    · exact ignores_bind ignores_report fun _ => hskip

/-- Scripts follow the rules for lines, if calls of expressions do. -/
theorem ignores_lineRules (hexpression : ∀ {l b : Bool} power,
    IgnoresCase fuel (.live l b) (expressionFrom power) (.live false b)) :
    LineRules fun _ m x m' => IgnoresCase fuel m x m' where
  pure := ignores_pure
  bind := ignores_bind
  weaken hpre hpost := agree_mono (fun _ => hpre.sees) fun _ => hpost.sees
  measured_of_inner h := h
  idle {_ _ _ m m' q f x} _ hf h := by
    intro s t a u hst hm hrun
    rw [run_ask_bind, hf] at hrun ⊢
    exact h s t a u hst hm hrun
  onLine {_ _ l b _ _} hnone hsome := by
    refine agree_ask rfl (fun o => o.elim (.live l b) (.seeing l b)) (fun s _ => ?_) fun o => ?_
    · change Mode.Sees (s.onLine.elim _ _) _
      cases h : s.onLine with
      | none => trivial
      | some k => exact h
    · cases o with
      | none => exact hnone
      | some k => exact hsome k
  onLine_seeing h := agree_known rfl (fun _ hm => hm) h
  current_seeing h := agree_known rfl (fun s hm => Reading.current_of_onLine hm) h
  current_word h := agree_known rfl (fun _ hm => hm) h
  second_seeing h := agree_askAny rfl h
  second_word {_ _ b k _ _} hnone hsome := by
    refine agree_ask rfl (fun o => o.elim (.word true b k) (.pair k)) (fun s hm => ?_) fun o => ?_
    · change Mode.Sees (s.secondOnLine.elim _ _) _
      cases h : s.secondOnLine with
      | none => exact hm
      | some k' => exact ⟨hm, h⟩
    · cases o with
      | none => exact hnone
      | some k' => exact hsome k'
  atStop htrue hfalse := agree_askAny rfl fun b => by
    cases b with
    | true => exact htrue
    | false => exact agree_mono (fun _ => id) (fun _ => id) hfalse
  tooDeep h := agree_askAny rfl h
  here h := agree_askAny rfl h
  behind h := agree_askAny rfl h
  take_word := ignores_takeLive
  take_pair := ignores_take fun _ hm => State.onLine_take hm.2
  take_seeing _ := ignores_takeLive
  report_live _ := agree_mono (fun _ => id) (fun _ => id) ignores_report
  report_seeing _ := agree_mono (fun _ => id) (fun _ => id) ignores_report
  report_word _ := agree_mono (fun _ => id) (fun _ => id) ignores_report
  listen_live := agree_mono (fun _ => id) (fun _ _ => trivial) ignores_listen
  listen_word := ignores_listen
  node _ := ignores_node
  number := ignores_node
  wrap := agree_within
  wrapped hx hy := ignores_bind hx fun _ => agree_within hy
  nested := agree_within
  measured := agree_within
  collect := ignores_collect
  error h := h
  expression := hexpression
  lineEnd := ignores_lineEnd

theorem ignores_skipDeepExpression {l b : Bool} :
    IgnoresCase fuel (.live l b) skipDeepExpression (.live false b) := by
  have hskip : IgnoresCase fuel (.live l b) (do silence; takeLine) (.live l b) :=
    ignores_bind ignores_silence fun _ => ignores_takeLine
  refine ignores_bind ignores_report fun _ => ?_
  exact agree_mono (fun _ => id) (fun _ _ => trivial) (ignores_node hskip)

theorem ignores_operationRules (hexpression : ∀ {l b : Bool} power,
    IgnoresCase fuel (.live l b) (expressionFrom power) (.live false b)) :
    OperationRules fun _ m x m' => IgnoresCase fuel m x m' where
  toLineRules := ignores_lineRules hexpression
  unary := ignores_node
  binary hk := agree_within (walk_operation (ignores_lineRules hexpression) hk)
  skipDeepExpression := ignores_skipDeepExpression

/-- A rule is called with the same effect if its script has the same effect on less fuel. -/
theorem ignores_call {rule : Rule} (h : IgnoresCase fuel m (script rule) m') :
    IgnoresCase (fuel + 1) m (.call rule .done) m' := by
  intro s t a u hst hm hrun
  obtain ⟨b, v, hv, -, huv, hm'⟩ := h s t () u hst hm (run_of_runRule (run_call_iff.1 hrun))
  refine ⟨(), v, run_call_iff.2 ?_, rfl, huv, hm'⟩
  rw [runRule, hv]

theorem ignores_callOfNone {rule : Rule} : IgnoresCase 0 m (.call rule .done) m' := by
  intro s t a u _ _ hrun
  cases run_call_iff.1 hrun

theorem ignores_expression {l b : Bool} (power : Nat) :
    IgnoresCase fuel (.live l b) (expressionFrom power) (.live false b) := by
  induction fuel generalizing l b power with
  | zero => exact ignores_callOfNone
  | succ fuel ih =>
    have hr := ignores_operationRules fun power => ih power
    exact ignores_call (@walk_expressionRule _ hr _ _ power)

theorem ignores_lines : LineRules fun _ m x m' => IgnoresCase fuel m x m' :=
  ignores_lineRules fun power => ignores_expression power

/-! ### Loops -/

/-- Names in either case are the same or not the same as other names. -/
theorem sameName_eq {a a' b b' : List Char} (ha : lowered a = lowered a')
    (hb : lowered b = lowered b') : sameName a b = sameName a' b' := by
  change (lowered a == lowered b) = (lowered a' == lowered b')
  rw [ha, hb]

/-- The same names, if any, in either case. -/
def SameNames (a b : Option (List Char)) : Prop := a.map lowered = b.map lowered

theorem agree_ifOnLine {l b : Bool} {kind : TokenKind} {x y : Script α} {x' y' : Script β}
    (hx : Agree fuel (.seeing l b kind) R x x' m) (hy : Agree fuel (.live l b) R y y' m) :
    Agree fuel (.live l b) R (do if (← onLine) == some kind then x else y)
      (do if (← onLine) == some kind then x' else y') m := by
  refine agree_ask rfl (fun o => if o == some kind then .seeing l b kind else .live l b)
    (fun s _ => ?_) fun o => ?_
  · change Mode.Sees (if s.onLine == some kind then _ else _) _
    split
    · next h => exact beq_iff_eq.1 h
    · trivial
  · split
    · exact hx
    · exact hy

theorem ignores_nameReference {l b : Bool} :
    IgnoresCase fuel (.seeing l b .ident) nameReference (.live false b) :=
  @walk_nameReference _ ignores_lines _ _ ignores_takeLive

theorem agree_loopVariable {l b : Bool} :
    Agree fuel (.live l b) SameNames loopVariable loopVariable (.live false b) := by
  have hquiet {x y : Script (Option (List Char))}
      (h : Agree fuel (.live l b) SameNames x y (.live l b)) :
      Agree fuel (.live l b) SameNames x y (.live false b) :=
    agree_mono (fun _ => id) (fun _ _ => trivial) h
  refine agree_ifOnLine (agree_text fun cs ds h => ?_) (hquiet ?_)
  · exact ignores_bind ignores_nameReference fun _ => agree_pure (congrArg some h)
  · exact ignores_bind ignores_report fun _ => agree_pure rfl

theorem agree_closingVariable {l b : Bool} {name? name?' : Option (List Char)}
    (h : SameNames name? name?') :
    Agree fuel (.live l b) Eq (closingVariable name?) (closingVariable name?') (.live false b) := by
  refine agree_ifOnLine (agree_within (agree_text fun cs ds hcs => ?_))
    (agree_mono (fun _ => id) (fun _ _ => trivial) (ignores_pure ()))
  refine ignores_bind ignores_nameReference fun _ => ?_
  cases name? with
  | none =>
    obtain rfl : name?' = none := Option.map_eq_none_iff.1 h.symm
    exact ignores_pure ()
  | some name =>
    obtain ⟨name', rfl, hname⟩ := Option.map_eq_some_iff.1 h.symm
    have hsame : sameName name cs = sameName name' ds := sameName_eq hname.symm hcs
    simp only [hsame]
    split
    · exact ignores_pure ()
    · exact agree_report (by rw [Cause.lowered, Cause.lowered, hname, hcs])

end Rules

/-! ### Blocks and statements -/

section Blocks

variable {fuel : Nat} {m : Mode}

theorem ignores_instructionArguments {b : Bool} (instruction : TokenKind) (least most : Nat) :
    IgnoresCase fuel (.live true b) (instructionArguments instruction least most)
      (.live false b) := by
  have hnone : IgnoresCase fuel (.live true b) (pure ([] : List Argument)) (.live false b) :=
    agree_mono (fun _ => id) (fun _ _ => trivial) (ignores_pure [])
  refine agree_ifOnLine ?_ (ignores_bind ignores_report fun _ => hnone)
  refine ignores_bind (@walk_argumentList _ ignores_lines b) fun args => ?_
  dsimp only
  split
  · exact ignores_pure _
  · exact ignores_bind ignores_report fun _ => ignores_pure _

theorem ignores_checkScanUnits {args : List Argument} :
    IgnoresCase fuel m (checkScanUnits args) m := by
  unfold checkScanUnits
  split
  · split
    · exact ignores_pure _
    · exact ignores_report
  · exact ignores_pure _

theorem ignores_terminator (kind opener : TokenKind) :
    IgnoresCase fuel .body (terminator kind opener) (.live true false) := by
  refine agree_mono (m := .live true false) (fun _ => id) (fun _ => id)
    (agree_askAny rfl fun o => ?_)
  split
  · exact ignores_bind ignores_takeLive fun _ => ignores_pure _
  · exact ignores_bind ignores_report fun _ => ignores_pure _

variable (hstatement : IgnoresCase fuel (.live true false) statement (.live true false))
include hstatement

theorem ignores_blockBody {stops : List TokenKind} :
    IgnoresCase fuel (.live true false) (blockBody stops) (.live true false) := by
  refine ignores_node (agree_within (agree_within (ignores_whileM ?_ hstatement)))
  exact agree_askAny rfl fun o => agree_askAny rfl fun b => ignores_pure _

theorem ignores_inlineBody {stops : List TokenKind} :
    IgnoresCase fuel (.live true false) (inlineBody stops) (.live true false) := by
  refine ignores_node (agree_within (agree_within (ignores_bind ignores_statementEnds fun b => ?_)))
  cases b with
  | true => exact ignores_pure ()
  | false => exact hstatement

theorem ignores_blockRules : BlockRules fun _ m x m' => IgnoresCase fuel m x m' where
  toLineRules := ignores_lines
  statement := agree_mono (m := .live true false) (fun _ _ => trivial) (fun _ => id) hstatement
  blockBody _ := agree_mono (m := .live true false) (fun _ => id) (fun _ => id)
    (ignores_blockBody hstatement)
  current_body hnone hsome := by
    refine agree_ask rfl (fun o => o.elim .body (.word true false)) (fun s _ => ?_) fun o => ?_
    · change Mode.Sees (s.current.elim _ _) _
      cases h : s.current with
      | none => trivial
      | some k => exact h
    · cases o with
      | none => exact hnone
      | some k => exact hsome k
  terminator := ignores_terminator
  unlessAtStop _ hx hy := agree_askAny rfl fun b => by
    cases b with
    | true => exact hx
    | false => exact ignores_bind ignores_report fun _ => hy
  scanArguments instruction least most := agree_within
    (ignores_bind (ignores_instructionArguments _ _ _) fun _ => ignores_checkScanUnits)
  tableArguments instruction least most := agree_within
    (ignores_bind (ignores_instructionArguments _ _ _) fun _ => ignores_pure ())
  closingVariable name? := agree_closingVariable rfl

/-- A loop variable may be named in either case. -/
theorem ignores_forLoop {s b : Bool} :
    IgnoresCase fuel (.word s b .kwFor) forLoop (.live true false) := by
  have hr := ignores_blockRules hstatement
  refine ignores_node (ignores_bind (ignores_takeLive (b := false)) fun _ => ?_)
  refine agree_bind agree_loopVariable fun name? name?' hnames => ?_
  refine ignores_bind (walk_loopBounds hr.toLineRules) fun _ => ?_
  refine ignores_bind ignores_lineEnd fun _ => ignores_bind (hr.blockBody (by decide)) fun _ => ?_
  refine ignores_bind (hr.terminator _ _) fun ended => ?_
  cases ended with
  | false => exact ignores_pure ()
  | true => exact agree_bind (agree_closingVariable hnames) fun _ _ _ => ignores_lineEnd

theorem ignores_ifStatement {s b : Bool} :
    IgnoresCase fuel (.word s b .kwIf) ifStatement (.live true false) := by
  have hr := ignores_blockRules hstatement
  have hone : IgnoresCase fuel (.live true false) oneLineBranches (.live true false) := by
    refine ignores_bind (ignores_inlineBody hstatement) fun _ => agree_askAny rfl fun o => ?_
    split
    · refine ignores_node (ignores_bind (ignores_takeLive (b := false)) fun _ => ?_)
      exact ignores_inlineBody hstatement
    · exact ignores_pure ()
  refine ignores_node (ignores_bind (ignores_takeLive (b := false)) fun _ => ?_)
  refine ignores_bind (walk_condition hr.toLineRules) fun _ => agree_askAny rfl fun allowed => ?_
  refine ignores_bind ignores_statementEnds fun ends => ?_
  split
  · exact agree_mono (m := .live true false) (fun _ => id) (fun _ => id) hone
  · exact walk_blockBranches hr

theorem ignores_statementRules : StatementRules fun _ m x m' => IgnoresCase fuel m x m' where
  toBlockRules := ignores_blockRules hstatement
  forLoop := ignores_forLoop hstatement
  scanStatement := ignores_node (walk_scanParts (ignores_blockRules hstatement) rfl)
  subScanStatement := ignores_node (walk_scanParts (ignores_blockRules hstatement) rfl)
  ifStatement := ignores_ifStatement hstatement
  assignmentOrInstruction := agree_askAny rfl fun b => by
    have hr := ignores_blockRules hstatement
    cases b with
    | true => exact walk_assignmentStatement hr.toLineRules
    | false => exact walk_instruction hr.toLineRules

end Blocks

/-- Statements are read in the same way in either case. -/
theorem ignores_statement (fuel : Nat) :
    IgnoresCase fuel (.live true false) statement (.live true false) := by
  induction fuel with
  | zero => exact ignores_callOfNone
  | succ fuel ih =>
    have hdeep : IgnoresCase fuel (.live true false) skipDeepStatement (.live true false) :=
      ignores_bind ignores_report fun _ => ignores_node
        (ignores_bind (ignores_takeLive (b := false)) fun _ => ignores_takeLine)
    refine ignores_call (ignores_bind ignores_listen fun _ => agree_askAny rfl fun deep => ?_)
    cases deep with
    | true => exact hdeep
    | false =>
      refine agree_ask rfl (fun o => o.elim (.live true false) (.word false false)) (fun s _ => ?_)
        fun o => ?_
      · change Mode.Sees (s.current.elim _ _) _
        cases h : s.current with
        | none => trivial
        | some k => exact h
      · cases o with
        | none => exact ignores_pure ()
        | some k => exact walk_statementOf (ignores_statementRules ih)

theorem ignores_sourceFile (fuel : Nat) :
    IgnoresCase fuel (.live true false) sourceFile (.live true false) :=
  ignores_node (ignores_whileM (agree_askAny rfl fun _ => ignores_pure _) (ignores_statement fuel))

end Grammar

/-- Words in either case are parsed into the same final state, but for the case of names. -/
theorem Parsing.finalState_lowered (options : ParseOptions) {ws vs : List Word}
    (h : ws.map Word.lowered = vs.map Word.lowered) :
    (finalState options ws).lowered = (finalState options vs).lowered := by
  have hlength : ws.length = vs.length := by simpa using congrArg List.length h
  have hfuel : fuelFor vs ≤ fuelFor ws := by simp only [fuelFor, hlength, Nat.le_refl]
  have hinitial : (State.initial options ws).lowered = (State.initial options vs).lowered := by
    simp only [State.initial, State.lowered, Reading.lowered, h]
  obtain ⟨hws, -⟩ := run_sourceFile options ws (Nat.le_refl _)
  obtain ⟨hvs, -⟩ := run_sourceFile options vs hfuel
  obtain ⟨u, t, ht, -, hst, -⟩ := Grammar.ignores_sourceFile _ _ _ _ _ hinitial trivial hws
  cases hvs.symm.trans ht
  exact hst

end CRBasic
