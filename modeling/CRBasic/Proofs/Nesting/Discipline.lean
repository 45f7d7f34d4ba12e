import CRBasic.Proofs.Parsing.Moments
import CRBasic.Proofs.Roles.Statements

/-!
# What a parse minds

Once an expression is too deep, problems are passed over.  A parse then takes only what is left of the
line, reports problems again only at its end, and starts no statement and no body before
(`Disciplined`).  Every form of statement follows the rules for this (`governed_statementRules`), so whole
texts mind it (`minds_sourceFile`).
-/

namespace CRBasic

open Parsing

namespace Parsing

/-- No word is left that can belong to the statement: the next one starts a line, or ends the statements of
an open block. -/
def Reading.LineEnds (s : Reading) : Prop := s.onLine = none ∨ s.atStop

/-- What has to hold where a parse does something. -/
def Disciplined : Move → Reading → Prop
  | .ask .current, s => s.silenced = false
  | .call .statement, s => s.silenced = false
  | .enter (.stopAt kinds), s => s.silenced = false ∧ ∀ k ∈ kinds, k.closes
  | .act .listen, s => s.silenced → s.LineEnds
  | .act .take, s => s.silenced → ¬ s.LineEnds
  | _, _ => True

end Parsing

namespace Grammar

open Script Draft

/-- All that a script does from a sketch on is as it has to be. -/
abbrev Minds (fuel : Nat) {α : Type} (x : Script α) (s : Sketch) : Prop :=
  x.Along (fun move (t : Sketch) => Disciplined move t.toReading) (runRule script fuel)
    (AlongRule (fun move (t : Sketch) => Disciplined move t.toReading) script fuel) fuel s

/-- A script leads from one mode to another where the text is heard, and does so as it has to. -/
structure Governed (total fuel : Nat) {α : Type} (st : Stage) (m : Mode) (x : Script α) (m' : Mode) :
    Prop where
  hears : Hears fuel total st m x m'
  minds : ∀ s, Heard total st m s → Minds fuel x s

variable {total fuel : Nat} {α β : Type} {st : Stage} {m m' m'' : Mode} {P : Sketch → Prop}
  {x : Script α} {f : α → Script β} {s t u : Sketch} {l b started : Bool} {k : TokenKind}
  {kind : NodeKind}

/-! ### Single steps -/

theorem minds_bind (hx : Minds fuel x s)
    (hf : ∀ a t, x.run (runRule script fuel) fuel s = some (a, t) → Minds fuel (f a) t) :
    Minds fuel (x >>= f) s :=
  along_bind hx hf

theorem Governed.minds_bind (hx : Governed total fuel st m x m') (hs : Heard total st m s)
    (hf : ∀ a t, Heard total st m' t → Minds fuel (f a) t) : Minds fuel (x >>= f) s :=
  Grammar.minds_bind (hx.minds s hs) fun a t hrun => hf a t (Heard.of_run hx.hears hrun hs)

/-- Only the question about the next word on whatever line has to be asked aloud. -/
theorem disciplined_ask {q : Query α} {r : Reading} (h : q.isAnyLine → r.silenced = false) :
    Disciplined (.ask q) r := by
  cases q with
  | current => exact h rfl
  | _ => trivial

theorem minds_ask {q : Query α} (hq : q.isAnyLine → s.silenced = false)
    (hf : Minds fuel (f (Machine.answer s q)) s) : Minds fuel (.ask q .done >>= f) s :=
  ⟨disciplined_ask hq, hf⟩

/-- Questions about the line may be asked at any time. -/
theorem minds_askLine {q : Query α} (hq : q.isAnyLine = false)
    (hf : Minds fuel (f (Machine.answer s q)) s) : Minds fuel (.ask q .done >>= f) s :=
  minds_ask (fun h => absurd (hq.symm.trans h) Bool.false_ne_true) hf

theorem minds_take (h : s.silenced = false) : Minds fuel take s :=
  ⟨fun hs => absurd (h.symm.trans hs) Bool.false_ne_true, trivial⟩

theorem minds_report {place : Place} {cause : Cause} : Minds fuel (report place cause) s :=
  ⟨trivial, trivial⟩

theorem minds_listen (h : s.silenced → s.LineEnds) : Minds fuel listen s := ⟨h, trivial⟩

/-- A stretch that opens no block. -/
theorem minds_within (scope : Scope) (hscope : ∀ kinds, scope ≠ .stopAt kinds)
    (hx : Minds fuel x (Machine.begin s scope).2) : Minds fuel (within scope x) s := by
  refine ⟨?_, hx, fun _ _ _ => trivial⟩
  cases scope with
  | stopAt kinds => exact absurd rfl (hscope kinds)
  | _ => trivial

theorem minds_node (hx : Minds fuel x s.fresh) : Minds fuel (node kind x) s :=
  minds_within (.node kind) nofun hx

theorem minds_wrap (hx : Minds fuel x s.fresh) : Minds fuel (wrap kind x) s :=
  minds_within (.wrap kind) nofun hx

/-- A repetition minds what its rounds mind, wherever they start. -/
theorem minds_collect {item : Script (Option β)}
    (hP : ∀ s a t, item.run (runRule script fuel) fuel s = some (a, t) → P s → P t)
    (h : ∀ s, P s → Minds fuel item s) (hs : P s) : Minds fuel (collect item) s := by
  refine ⟨trivial, fun u hu => h u ?_, fun _ _ _ => trivial⟩
  induction hu with
  | first => exact hs
  | after _ hround ih => exact hP _ _ _ hround ih

/-! ### Ends of lines -/

theorem minds_statementEnds {f : Bool → Script β} (hend : AtEnd s → Minds fuel (f true) s)
    (hmore : ¬ AtEnd s → Minds fuel (f false) s) : Minds fuel (statementEnds >>= f) s := by
  rw [statementEnds, LawfulMonad.bind_assoc]
  refine minds_askLine rfl ?_
  rw [answer_onLine]
  cases hk : s.onLine with
  | none => exact hend (.inl hk)
  | some k =>
    refine minds_askLine rfl ?_
    change Minds fuel (f s.atStop) s
    cases hstop : s.atStop with
    | true => exact hend (.inr hstop)
    | false => exact hmore (by simp [AtEnd, hk, hstop])

/-- What is left of a line may be taken whether it is heard or not. -/
theorem minds_takeLine (s : Sketch) : Minds fuel takeLine s := by
  refine minds_bind (minds_collect (P := fun _ => True) (fun _ _ _ _ => id) (fun s _ => ?_) trivial)
    fun _ _ _ => trivial
  rw [LawfulMonad.bind_assoc]
  refine minds_statementEnds (fun _ => trivial) fun h => ?_
  exact ⟨fun _ => h, trivial⟩

theorem takeLine_end {v : Unit} (hrun : takeLine.run (runRule script fuel) fuel s = some (v, t)) :
    AtEnd t ∧ t.reports = s.reports ∧ t.silenced = s.silenced :=
  (takeLine_embed (c := .alone) rfl [] hrun).2

theorem minds_skippedLine : Minds fuel (do node .errorNode takeLine; listen) s := by
  refine minds_bind (minds_node (minds_takeLine _)) fun _ t hrun => minds_listen fun _ => ?_
  obtain ⟨u, hu, rfl⟩ := run_within_iff.1 hrun
  exact (takeLine_end hu).1

theorem minds_lineEnd (h : s.silenced → AtEnd s) : Minds fuel lineEnd s := by
  refine minds_statementEnds (fun hend => minds_listen fun _ => hend) fun hmore => ?_
  refine minds_ask (fun _ => Bool.eq_false_iff.2 fun hs => hmore (h hs)) ?_
  split
  · exact minds_skippedLine
  · exact minds_skippedLine
  · exact minds_bind minds_report fun _ _ _ => minds_skippedLine

theorem minds_skipDeepExpression (s : Sketch) : Minds fuel skipDeepExpression s := by
  refine minds_bind minds_report fun _ t _ => minds_node ?_
  exact minds_bind (x := silence) ⟨trivial, trivial⟩ fun _ u _ => minds_takeLine u

/-! ### Lines -/

theorem Heard.minds_onLine {f : Option TokenKind → Script α} (hs : Heard total st (.live l b) s)
    (hnone : ∀ s, Heard total st (.live l b) s → Minds fuel (f none) s)
    (hsome : ∀ k s, Heard total st (.seeing l b k) s → Minds fuel (f (some k)) s) :
    Minds fuel (onLine >>= f) s := by
  refine minds_askLine rfl ?_
  rw [answer_onLine]
  cases hk : s.onLine with
  | none => exact hnone s hs
  | some k => exact hsome k s { hs with sees := hk }

/-- A branch on the kind of the next word on the line. -/
theorem Heard.minds_ifOnLine {x y : Script α} (hs : Heard total st (.live l b) s)
    (hx : ∀ s, Heard total st (.seeing l b k) s → Minds fuel x s)
    (hy : ∀ s, Heard total st (.live l b) s → Minds fuel y s) :
    Minds fuel (do if (← onLine) == some k then x else y) s := by
  refine hs.minds_onLine hy fun k' s hs => ?_
  by_cases hk : k' = k
  · subst hk
    rw [if_pos (beq_self_eq_true _)]
    exact hx s hs
  · rw [if_neg (by simpa using hk)]
    exact hy s (hs.weaken (.seen id id))

/-- What is known is asked. -/
theorem minds_known {q : Query β} {f : β → Script α} {a : β} (hq : q.isAnyLine → s.silenced = false)
    (ha : Machine.answer s q = a) (h : Minds fuel (f a) s) : Minds fuel (.ask q .done >>= f) s :=
  minds_ask hq (ha ▸ h)

theorem governed_lineRules (hexpression : ∀ {l b : Bool} power,
    Governed total fuel .inner (.live l b) (expressionFrom power) (.live false b)) :
    LineRules fun st m x m' => Governed total fuel st m x m' where
  pure a := ⟨hears.pure a, fun _ _ => trivial⟩
  bind hx hf := ⟨hears.bind hx.hears fun a => (hf a).hears,
    fun _ hs => hx.minds_bind hs fun a => (hf a).minds⟩
  weaken hpre hpost h :=
    ⟨hears.weaken hpre hpost h.hears, fun s hs => h.minds s (hs.weaken hpre)⟩
  idle {_ _ _ m _ q f x} hq hf h := by
    refine ⟨hears.idle hq hf h.hears, fun s hs => minds_ask (fun hany => ?_) (hf _ ▸ h.minds s hs)⟩
    obtain ⟨b, rfl⟩ := hq hany
    exact hs.loud rfl
  onLine hnone hsome := ⟨hears.onLine hnone.hears fun k => (hsome k).hears,
    fun _ hs => hs.minds_onLine hnone.minds fun k => (hsome k).minds⟩
  onLine_seeing h := ⟨hears.onLine_seeing h.hears, fun s hs =>
    minds_known (fun hany => absurd hany Bool.false_ne_true) hs.sees (h.minds s hs)⟩
  current_seeing h := ⟨hears.current_seeing h.hears, fun s hs =>
    minds_known (fun _ => hs.loud rfl) (Reading.current_of_onLine hs.sees) (h.minds s hs)⟩
  current_word h := ⟨hears.current_word h.hears,
    fun s hs => minds_known (fun _ => hs.loud rfl) hs.sees (h.minds s hs)⟩
  second_seeing h := ⟨hears.second_seeing fun o => (h o).hears,
    fun s hs => minds_askLine rfl ((h _).minds s hs)⟩
  second_word {_ st b k m f} hnone hsome := by
    refine ⟨hears.second_word hnone.hears fun k => (hsome k).hears, fun s hs => minds_askLine rfl ?_⟩
    change Minds fuel (f s.secondOnLine) s
    cases hk : s.secondOnLine with
    | none => exact hnone.minds s hs
    | some k' =>
      exact (hsome k').minds s { hs with sees := ⟨hs.sees, hk⟩, blamed := Bool.noConfusion }
  atStop {_ st l k m f} htrue hfalse := by
    refine ⟨hears.atStop htrue.hears hfalse.hears, fun s hs => minds_askLine rfl ?_⟩
    change Minds fuel (f s.atStop) s
    cases hstop : s.atStop with
    | true => exact htrue.minds s hs
    | false =>
      refine hfalse.minds s { hs with loud := fun _ => Bool.eq_false_iff.2 fun hsilenced => ?_ }
      have hk : s.onLine = some k := hs.sees
      have := hs.settled hsilenced
      simp [hk, hstop] at this
  tooDeep h := ⟨hears.tooDeep fun d => (h d).hears, fun s hs => minds_askLine rfl ((h _).minds s hs)⟩
  here h := ⟨hears.here fun e => (h e).hears, fun s hs => minds_askLine rfl ((h _).minds s hs)⟩
  behind h := ⟨hears.behind fun e => (h e).hears, fun s hs => minds_askLine rfl ((h _).minds s hs)⟩
  take_word := ⟨hears.take_word, fun _ hs => minds_take (hs.loud rfl)⟩
  take_pair := ⟨hears.take_pair, fun _ hs => minds_take (hs.loud rfl)⟩
  take_seeing hk := ⟨hears.take_seeing hk, fun _ hs => minds_take (hs.silenced_eq hk)⟩
  report_live hcause := ⟨hears.report_live hcause, fun _ _ => minds_report⟩
  report_seeing hcause := ⟨hears.report_seeing hcause, fun _ _ => minds_report⟩
  report_word hcause := ⟨hears.report_word hcause, fun _ _ => minds_report⟩
  listen_live := ⟨hears.listen_live, fun _ hs => minds_listen hs.settled⟩
  listen_word := ⟨hears.listen_word, fun _ hs => minds_listen hs.settled⟩
  collect h := ⟨hears.collect h.hears,
    fun _ hs => minds_collect (fun _ _ _ hrun hs => Heard.of_run h.hears hrun hs) h.minds hs⟩
  measured_of_inner h := ⟨hears.measured_of_inner h.hears,
    fun s hs => h.minds s { hs with measured := by simp }⟩
  node hkind h := ⟨hears.node hkind h.hears, fun s hs => minds_node (h.minds s.fresh hs.fresh)⟩
  number h := ⟨hears.number h.hears, fun s hs => minds_node (h.minds s.fresh hs.fresh)⟩
  wrap h := ⟨hears.wrap h.hears, fun s hs => minds_wrap (h.minds s.fresh hs.fresh)⟩
  wrapped hx hy := ⟨hears.wrapped hx.hears hy.hears,
    fun _ hs => hx.minds_bind hs fun _ t ht => minds_wrap (hy.minds t.fresh ht.fresh)⟩
  nested h := ⟨hears.nested h.hears, fun s hs => minds_within .nested nofun
    (h.minds _ (hs.transfer_of_frames (begin_same s .nested) rfl hs.measured))⟩
  measured h := ⟨hears.measured h.hears, fun s hs => minds_within .measured nofun
    (h.minds _ (hs.transfer_of_frames (begin_same s .measured) rfl fun _ =>
      ⟨List.cons_ne_nil _ _, Nat.le_refl _⟩))⟩
  error h := ⟨hears.error h.hears, fun s hs => h.minds s { hs with blamed := fun _ => rfl }⟩
  expression := hexpression
  lineEnd := ⟨hears.lineEnd, fun _ hs => minds_lineEnd hs.settled⟩

theorem governed_operationRules (hexpression : ∀ {l b : Bool} power,
    Governed total fuel .inner (.live l b) (expressionFrom power) (.live false b)) :
    OperationRules fun st m x m' => Governed total fuel st m x m' where
  toLineRules := governed_lineRules hexpression
  unary h := ⟨alike_node losing_alone.toLosing h.hears,
    fun s hs => minds_node (h.minds s.fresh hs.fresh)⟩
  binary {b k left right} hk := by
    have hoperation : Governed total fuel .inner (.seeing false b k)
        (do take; expressionFrom right) (.live false b) :=
      walk_operation (governed_lineRules hexpression) hk
    exact ⟨alike_wrap losing_alone.toLosing hoperation.hears,
      fun s hs => minds_wrap (hoperation.minds s.fresh hs.fresh)⟩
  skipDeepExpression :=
    ⟨alike_skipDeepExpression losing_alone.toLosing, fun s _ => minds_skipDeepExpression s⟩

/-- A call of a rule minds what the script of the rule does on less fuel. -/
theorem governed_call {rule : Rule} (hrule : rule ≠ .statement ∨ m.isLoud)
    (h : Governed total fuel st m (script rule) m') :
    Governed total (fuel + 1) st m (.call rule .done) m' := by
  refine ⟨alike_call h.hears, fun s hs => ⟨?_, h.minds s hs, fun _ _ => trivial⟩⟩
  cases rule with
  | statement => exact hs.loud (hrule.resolve_left fun h => h rfl)
  | expression power => trivial

theorem governed_callOfNone {rule : Rule} (hrule : rule ≠ .statement ∨ m.isLoud) :
    Governed total 0 st m (.call rule .done) m' := by
  refine ⟨alike_callOfNone, fun s hs => ⟨?_, trivial, fun _ _ => trivial⟩⟩
  cases rule with
  | statement => exact hs.loud (hrule.resolve_left fun h => h rfl)
  | expression power => trivial

theorem governed_expression (power : Nat) :
    Governed total fuel .inner (.live l b) (expressionFrom power) (.live false b) := by
  induction fuel generalizing l b power with
  | zero => exact governed_callOfNone (.inl nofun)
  | succ fuel ih =>
    exact governed_call (.inl nofun)
      (walk_expressionRule (governed_operationRules fun power => ih power) power)

theorem governed_lines : LineRules fun st m x m' => Governed total fuel st m x m' :=
  governed_lineRules fun power => governed_expression power

theorem governed_texts : TextRules fun st m x m' => Governed total fuel st m x m' where
  toLineRules := governed_lines
  text h := ⟨(alike_texts losing_alone.toLosing).text fun cs => (h cs).hears,
    fun s hs => minds_askLine rfl ((h _).minds s hs)⟩

/-! ### Arguments and the name after `Next` -/

theorem Heard.minds_measured {x : Script α} (hs : Heard total .inner m s)
    (hx : ∀ s, Heard total .measured m s → Minds fuel x s) : Minds fuel (within .measured x) s :=
  minds_within .measured nofun (hx _ (hs.transfer_of_frames (begin_same s .measured) rfl fun _ =>
    ⟨List.cons_ne_nil _ _, Nat.le_refl _⟩))

theorem Heard.minds_instructionArguments {instruction : TokenKind} {least most : Nat}
    (hs : Heard total .measured (.live true b) s) :
    Minds fuel (instructionArguments instruction least most) s := by
  refine hs.minds_ifOnLine (fun s hs => ?_) fun s hs =>
    minds_bind minds_report fun _ _ _ => trivial
  refine (walk_argumentList governed_lines).minds_bind hs fun args t _ => ?_
  dsimp only
  split
  · trivial
  · exact minds_bind minds_report fun _ _ _ => trivial

theorem minds_checkScanUnits (args : List Argument) (s : Sketch) : Minds fuel (checkScanUnits args) s := by
  unfold checkScanUnits
  split
  · split
    · trivial
    · exact minds_report
  · trivial

theorem governed_closingVariable (name? : Option (List Char)) :
    Governed total fuel .inner (.live true b) (closingVariable name?) (.live false b) where
  hears := hears.closingVariable name?
  minds s hs := by
    refine hs.minds_ifOnLine (fun s hs => hs.minds_measured fun s hs => ?_) fun _ _ => trivial
    refine minds_askLine rfl ?_
    have hname : Governed total fuel .measured (.seeing true b .ident) nameReference (.live false b) :=
      governed_lines.measured_of_inner
        (walk_nameReference governed_lines (governed_lines.take_seeing (.inr rfl)))
    refine hname.minds_bind hs fun _ t _ => ?_
    cases name? with
    | none => trivial
    | some name =>
      dsimp only
      split
      · trivial
      · exact minds_report

/-! ### Bodies -/

section Bodies

variable (hstatement : ∀ {s b : Bool} {k : TokenKind},
  Governed total fuel .outer (.word s b k) statement (.live true false))

/-- The body of a block is entered aloud. -/
theorem Heard.minds_body {stops : List TokenKind} {y : Script Unit} (hstops : ∀ k ∈ stops, k.closes)
    (hs : Heard total .inner (.live true b) s)
    (hy : ∀ s, Heard total .outer (.live true b) s → Minds fuel y s) :
    Minds fuel (node .stmtList (within (.stopAt stops) (within .nested y))) s := by
  refine minds_node ⟨⟨hs.loud rfl, hstops⟩, ?_, fun _ _ _ => trivial⟩
  exact minds_within .nested nofun (hy _ (hs.inBody hstops))

include hstatement

/-- Statements one after the other. -/
theorem minds_statements {test : Script Bool} {p : Sketch → Bool}
    (htest : ∀ s : Sketch, test.run (runRule script fuel) fuel s = some (p s, s))
    (hasks : ∀ s, P s → Minds fuel test s)
    (hword : ∀ s, p s → P s → ∃ started k, Heard total .outer (.word started false k) s)
    (hnext : ∀ s u : Sketch, s.toReading.GoesOn u.toReading → P s →
      Heard total .outer (.live true false) u → P u) (hs : P s) :
    Minds fuel (whileM test statement) s := by
  refine minds_bind (minds_collect (P := P) ?_ (fun s hs => ?_) hs) fun _ _ _ => trivial
  · intro s a u hround hs
    obtain ⟨c, v, hv, hround⟩ := run_bind_iff.1 hround
    obtain ⟨rfl, rfl⟩ : c = p s ∧ v = s := by simpa [htest, eq_comm] using hv
    cases hp : p v with
    | false =>
      rw [hp] at hround
      obtain ⟨-, rfl⟩ := run_pure_iff.1 hround
      exact hs
    | true =>
      rw [hp] at hround
      obtain ⟨_, w, hw, hround⟩ := run_bind_iff.1 hround
      obtain ⟨-, rfl⟩ := run_pure_iff.1 hround
      obtain ⟨started, k, hheard⟩ := hword v hp hs
      exact hnext v u (Sketch.goesOn_of_run hw) hs (Heard.of_run hstatement.hears hw hheard)
  · refine minds_bind (hasks s hs) fun c t ht => ?_
    obtain ⟨rfl, rfl⟩ : c = p s ∧ t = s := by simpa [htest, eq_comm] using ht
    cases hp : p t with
    | false => trivial
    | true =>
      obtain ⟨started, k, hheard⟩ := hword t hp hs
      exact minds_bind (hstatement.minds t hheard) fun _ _ _ => trivial

theorem governed_blockBody {stops : List TokenKind} (hstops : ∀ k ∈ stops, k.closes) :
    Governed total fuel .inner (.live true b) (blockBody stops) .body where
  hears := hears.blockBody hstops
  minds s hs := by
    have hs : Heard total .inner (.live true false) s := hs.weaken (.live id Bool.noConfusion)
    refine hs.minds_body hstops fun s hs => ?_
    refine minds_statements (P := Heard total .outer (.live true false)) hstatement run_continuesBody
      (fun s hs => ?_) (fun s hgo hs => ?_) (fun _ _ _ _ => id) hs
    · exact minds_ask (fun _ => hs.loud rfl) (minds_askLine rfl trivial)
    · obtain ⟨k, hk⟩ := Option.isSome_iff_exists.1 (Bool.and_eq_true _ _ ▸ hgo).1
      exact ⟨true, k, { hs with sees := hk }⟩

/-- At most one statement on a line. -/
theorem governed_inlineBody {stops : List TokenKind} (hstops : ∀ k ∈ stops, k.closes) :
    Governed total fuel .inner (.live true b) (inlineBody stops) (.live true false) where
  hears := alike_inlineBody losing_alone (fun _ => hears.statement) hstops
  minds s hs := by
    refine hs.minds_body hstops fun s hs => minds_statementEnds (fun _ => trivial) fun hend => ?_
    obtain ⟨k, hk, -⟩ := exists_onLine hend
    have hword : Heard total .outer (.word true false k) s :=
      { hs with sees := Reading.current_of_onLine hk, blamed := Bool.noConfusion }
    exact hstatement.minds s hword

theorem governed_blockRules : BlockRules fun st m x m' => Governed total fuel st m x m' where
  toLineRules := governed_lines
  statement := hstatement
  blockBody hstops := governed_blockBody hstatement hstops
  current_body {_ st m f} hnone hsome := by
    refine ⟨hears.current_body hnone.hears fun k => (hsome k).hears,
      fun s hs => minds_ask (fun _ => hs.loud rfl) ?_⟩
    rw [answer_current]
    cases hk : s.current with
    | none => exact hnone.minds s hs
    | some k => exact (hsome k).minds s { hs with sees := hk, blamed := Bool.noConfusion }
  terminator kind opener := by
    refine ⟨hears.terminator kind opener, fun s hs => minds_ask (fun _ => hs.loud rfl) ?_⟩
    split
    · exact minds_bind (minds_take (hs.loud rfl)) fun _ _ _ => trivial
    · exact minds_bind minds_report fun _ _ _ => trivial
  unlessAtStop {_ st k m cause x y} hcause hx hy := by
    refine ⟨hears.unlessAtStop hcause hx.hears hy.hears, fun s hs => minds_askLine rfl ?_⟩
    split
    · exact hx.minds s hs
    · exact (governed_lines.report_word hcause).minds_bind hs fun _ => hy.minds
  scanArguments instruction least most :=
    ⟨hears.scanArguments instruction least most, fun _ hs => hs.minds_measured fun _ hs =>
      minds_bind hs.minds_instructionArguments fun args t _ => minds_checkScanUnits args t⟩
  tableArguments instruction least most :=
    ⟨hears.tableArguments instruction least most, fun _ hs => hs.minds_measured fun _ hs =>
      minds_bind hs.minds_instructionArguments fun _ _ _ => trivial⟩
  closingVariable := governed_closingVariable

/-! ### Statements -/

theorem governed_oneLineBranches :
    Governed total fuel .inner (.live true b) oneLineBranches (.live true false) := by
  have hlines : LineRules fun st m x m' => Governed total fuel st m x m' := governed_lines
  refine hlines.bind (governed_inlineBody hstatement (by decide)) fun _ => ?_
  refine hlines.ifOnLine (hlines.node rfl ?_) (hlines.pure ())
  exact hlines.bind (hlines.take_seeing (.inl rfl)) fun _ => governed_inlineBody hstatement (by simp)

/-- The words after a condition are read on the same line only where problems are heard. -/
theorem Heard.minds_ifBranches (hs : Heard total .inner (.live false b) s) : Minds fuel ifBranches s := by
  have hblock : Minds fuel blockBranches s :=
    (walk_blockBranches (governed_blockRules hstatement)).minds s hs
  refine minds_askLine rfl ?_
  refine minds_statementEnds (fun _ => ?_) fun hmore => ?_
  · rw [Bool.not_true, Bool.and_false]
    exact hblock
  · have hloud : s.silenced = false :=
      Bool.eq_false_iff.2 fun hsilenced => hmore (hs.settled hsilenced)
    split
    · exact (governed_oneLineBranches hstatement).minds s { hs with loud := fun _ => hloud }
    · exact hblock

theorem minds_ifParts (hs : Heard total .inner (.word started b .kwIf) s) : Minds fuel ifParts s := by
  have hr : BlockRules fun st m x m' => Governed total fuel st m x m' := governed_blockRules hstatement
  refine hr.take_word.minds_bind hs fun _ t ht => ?_
  exact (walk_condition hr.toLineRules).minds_bind ht fun _ u hu => hu.minds_ifBranches hstatement

theorem governed_statementRules : StatementRules fun st m x m' => Governed total fuel st m x m' where
  toBlockRules := governed_blockRules hstatement
  forLoop := ⟨hears.forLoop, fun s hs => minds_node
    ((walk_loopParts (governed_blockRules hstatement) governed_texts).minds s.fresh hs.fresh)⟩
  scanStatement := ⟨hears.scanStatement, fun s hs => minds_node
    ((walk_scanParts (governed_blockRules hstatement) rfl).minds s.fresh hs.fresh)⟩
  subScanStatement := ⟨hears.subScanStatement, fun s hs => minds_node
    ((walk_scanParts (governed_blockRules hstatement) rfl).minds s.fresh hs.fresh)⟩
  ifStatement := ⟨hears.ifStatement, fun _ hs => minds_node (minds_ifParts hstatement hs.fresh)⟩
  assignmentOrInstruction := by
    refine ⟨hears.assignmentOrInstruction, fun s hs => minds_askLine rfl ?_⟩
    split
    · exact (walk_assignmentStatement governed_lines).minds s hs
    · exact (walk_instruction governed_lines).minds s hs

end Bodies

theorem governed_statement :
    Governed total fuel .outer (.word started b k) statement (.live true false) := by
  induction fuel generalizing started b k with
  | zero => exact governed_callOfNone (.inr rfl)
  | succ fuel ih => exact governed_call (.inr rfl) (walk_statementRule (governed_statementRules ih))

/-- Every text minds what it has to. -/
theorem minds_sourceFile (options : ParseOptions) (words : List Word) :
    Minds fuel sourceFile (Sketch.initial options words) := by
  have hbetween : Between .alone words.length (Sketch.initial options words).fresh :=
    between_initial fun h => absurd rfl h
  refine minds_node (minds_statements (P := Between .alone words.length) governed_statement
    run_continuesText (fun s hs => ?_) (fun s hgo hs => ?_)
    (fun s u hsu hs hu => hu.between rfl (hsu.frames.trans hs.frames)) hbetween)
  · exact minds_ask (fun _ => hs.heard) trivial
  · obtain ⟨k, hk⟩ := Option.isSome_iff_exists.1 hgo
    exact ⟨false, k, hs.holds hk⟩

end Grammar

end CRBasic
