import CRBasic.Proofs.Blocks.Statements
import CRBasic.Proofs.Tree.Standing

/-!
# How nodes come about

Every loop, every scan, every `If`, every number and every operation of a tree has been put by a run of its
script, where the text is heard and behind the words in front of the node (`exists_arises`).  So what is shown of the runs of
one script holds of the nodes of every tree.
-/

namespace CRBasic

open Parsing

/-- If a report is about two names of a loop variable, they differ. -/
def Report.NamesDiffer (r : Report) : Prop :=
  ∀ x y, r.cause = .loopVariableMismatch x y → Grammar.sameName x y = false

namespace Grammar

open Script Draft

/-! ### Runs inside nodes -/

/-- A run of a script inside a new node behind `n` words, in a text of the given words in which the given
problems are found. -/
inductive Fills (words : List Word) (problems : List Report) (n : Nat) (st : Stage) (m : Mode)
    (x : Script Unit) : List (Piece Draft) → Prop where
  | intro {fuel : Nat} {s u : Sketch} (hs : Heard words.length st m s) (htaken : s.taken = n)
      (hrest : s.rest = words.drop n)
      (hrun : x.run (runRule script fuel) fuel s.fresh = some ((), u))
      (hreports : u.reports.toList <+: problems) : Fills words problems n st m x u.parts.reverse

/-- What an `If` holds. -/
def ifParts : Script Unit := do
  take
  condition
  ifBranches

/-- How a loop, a scan, an `If`, a number or an operation behind `n` words has come about.  An operation is
put around its left operand, or holds no more than was put. -/
inductive Arises (words : List Word) (problems : List Report) (n : Nat) : Draft → Prop where
  | loop {s b : Bool} {ps : List (Piece Draft)}
      (h : Fills words problems n .outer (.word s b .kwFor) loopParts ps) :
      Arises words problems n (.node .forLoop ps)
  | conditional {s b : Bool} {ps : List (Piece Draft)}
      (h : Fills words problems n .outer (.word s b .kwIf) ifParts ps) :
      Arises words problems n (.node .ifStmt ps)
  | scan {s b : Bool} {kind : NodeKind} {opener kindOfEnd : TokenKind} {least most : Nat}
      {ps : List (Piece Draft)} (hkind : kind = .scanStmt ∨ kind = .subScanStmt)
      (h : Fills words problems n .outer (.word s b opener) (scanParts opener kindOfEnd least most) ps) :
      Arises words problems n (.node kind ps)
  | operation {b : Bool} {k : TokenKind} {left right : Nat} {d : Draft} {first : Option Draft}
      {ps : List (Piece Draft)} (hk : k.infixPower? = some (left, right))
      (h : Fills words problems (n + (wordsOfAll (first.toList.map .node)).length) .inner
        (.seeing false b k) (do take; expressionFrom right) ps)
      (hkind : d.kind = .binaryExpr) (hpieces : d.pieces = first.toList.map .node ++ ps) :
      Arises words problems n d
  | number {w : Word} (h : w.kind = .number) : Arises words problems n (.node .numberLiteral [.word w])
  | other {d : Draft} (h : d.kind.isRoutine ∨ d.kind = .unaryExpr) : Arises words problems n d

/-- The nodes that a sketch has put behind `n` words have come about by runs, and its reports about names
are about names that differ. -/
structure Traced (words : List Word) (problems : List Report) (n : Nat) (s : Sketch) : Prop where
  drafts : AllPartsAt (Arises words problems) n s.parts.reverse
  taken : s.taken = n + (wordsOfAll s.parts.reverse).length
  rest : s.rest = words.drop s.taken
  names : ∀ r ∈ s.reports, r.NamesDiffer

/-- Where something holds of the sketch, every run of a script whose problems are among the given ones
leaves the sketch traced. -/
def Traces (words : List Word) (problems : List Report) (fuel : Nat) (P : Sketch → Prop) {α : Type}
    (x : Script α) : Prop :=
  ∀ (n : Nat) (s : Sketch) (a : α) (t : Sketch), x.run (runRule script fuel) fuel s = some (a, t) →
    t.reports.toList <+: problems → P s → Traced words problems n s → Traced words problems n t

variable {words : List Word} {fuel n : Nat} {problems : List Report} {α β : Type} {st : Stage} {m m' m'' : Mode}
  {P Q : Sketch → Prop} {x : Script α} {f : α → Script β} {s t u : Sketch} {l b started : Bool}
  {k : TokenKind} {kind : NodeKind}

namespace Traced

theorem fresh (h : Traced words problems n s) : Traced words problems s.taken s.fresh :=
  ⟨trivial, rfl, h.rest, h.names⟩

/-- Only the words, the parts and the reports count. -/
theorem transfer (h : Traced words problems n s) (hparts : t.parts = s.parts) (hrest : t.rest = s.rest)
    (htaken : t.taken = s.taken) (hreports : t.reports = s.reports) : Traced words problems n t := by
  refine ⟨?_, ?_, ?_, ?_⟩
  · rw [hparts]
    exact h.drafts
  · rw [hparts, htaken]
    exact h.taken
  · rw [hrest, htaken]
    exact h.rest
  · rw [hreports]
    exact h.names

/-- A node that ends. -/
theorem node (h : Traced words problems n s) (hu : Traced words problems s.taken u)
    (harises : Arises words problems s.taken (.node kind u.parts.reverse)) :
    Traced words problems n (u.leave s.parts (.node kind)) := by
  have hparts : (u.leave s.parts (.node kind)).parts.reverse =
      s.parts.reverse ++ [.node (.node kind u.parts.reverse)] := by simp [Sketch.leave]
  refine ⟨?_, ?_, hu.rest, hu.names⟩
  · rw [hparts, allPartsAt_append, ← h.taken]
    exact ⟨h.drafts, ⟨harises, hu.drafts⟩, trivial⟩
  · rw [hparts, wordsOfAll_append, List.length_append, ← Nat.add_assoc, ← h.taken]
    simpa [wordsOfAll, Draft.words, Sketch.leave] using hu.taken

/-- A node that ends around the last part, if that is a node. -/
theorem wrap (h : Traced words problems n s) (hu : Traced words problems s.taken u)
    (harises : ∀ {i : Nat} (first : Option Draft) {d : Draft}, d.kind = kind →
      d.pieces = first.toList.map .node ++ u.parts.reverse →
      i + (wordsOfAll (first.toList.map .node)).length = s.taken → Arises words problems i d) :
    Traced words problems n (u.leave s.parts (.wrap kind)) := by
  cases hparts : s.parts with
  | nil =>
    rw [← hparts]
    have hleave : u.leave s.parts (.wrap kind) = u.leave s.parts (.node kind) := by
      simp [Sketch.leave, Sketch.putAround, hparts]
    rw [hleave]
    exact h.node hu (harises none rfl rfl rfl)
  | cons p before =>
    cases p with
    | word w =>
      rw [← hparts]
      have hleave : u.leave s.parts (.wrap kind) = u.leave s.parts (.node kind) := by
        simp [Sketch.leave, Sketch.putAround, hparts]
      rw [hleave]
      exact h.node hu (harises none rfl rfl rfl)
    | node d =>
      have hsketch : (u.leave (.node d :: before) (.wrap kind)).parts.reverse =
          before.reverse ++ [.node (.around kind d u.parts.reverse)] := by
        simp [Sketch.leave, Sketch.putAround]
      have hdrafts := h.drafts
      have htaken := h.taken
      rw [hparts, List.reverse_cons, allPartsAt_append] at hdrafts
      rw [hparts, List.reverse_cons, wordsOfAll_append, List.length_append, ← Nat.add_assoc] at htaken
      obtain ⟨hbefore, hd, -⟩ := hdrafts
      have hplace : n + (wordsOfAll before.reverse).length + d.words.length = s.taken := by
        rw [htaken]
        simp [wordsOfAll]
      refine ⟨?_, ?_, hu.rest, hu.names⟩
      · rw [hsketch, allPartsAt_append]
        refine ⟨hbefore, ⟨harises (some d) rfl rfl ?_, hd, ?_⟩, trivial⟩
        · simpa [wordsOfAll] using hplace
        · rw [hplace]
          exact hu.drafts
      · rw [hsketch, wordsOfAll_append, List.length_append]
        have := hu.taken
        simp only [wordsOfAll, Draft.words, List.length_append, List.append_nil]
        change u.taken = _
        omega

end Traced

/-! ### Single steps -/

theorem Traces.mono (h : Traces words problems fuel Q x) (hPQ : ∀ s, P s → Q s) :
    Traces words problems fuel P x :=
  fun n s a t hrun hreports hs => h n s a t hrun hreports (hPQ s hs)

theorem traces_pure (a : α) : Traces words problems fuel P (pure a) := by
  intro n s b t hrun _ _ h
  obtain ⟨-, rfl⟩ := run_pure_iff.1 hrun
  exact h

theorem traces_bind (hx : Traces words problems fuel P x)
    (hQ : ∀ s a t, x.run (runRule script fuel) fuel s = some (a, t) → P s → Q t)
    (hf : ∀ a, Traces words problems fuel Q (f a)) : Traces words problems fuel P (x >>= f) := by
  intro n s b u hrun hreports hs h
  obtain ⟨a, t, ht, hu⟩ := run_bind_iff.1 hrun
  have hfirst := (Sketch.goesOn_of_run hu).reports.trans hreports
  exact hf a n t b u hu hreports (hQ s a t ht hs) (hx n s a t ht hfirst hs h)

/-- Steps of which nothing more is known. -/
theorem traces_seq (hx : Traces words problems fuel P x)
    (hf : ∀ a, Traces words problems fuel (fun _ => True) (f a)) :
    Traces words problems fuel P (x >>= f) :=
  traces_bind hx (fun _ _ _ _ _ => trivial) hf

theorem traces_ask {q : Query α} (h : ∀ s, P s → Q s)
    (hf : ∀ a, Traces words problems fuel Q (f a)) :
    Traces words problems fuel P (.ask q .done >>= f) :=
  fun n s b t hrun hreports hs => hf _ n s b t hrun hreports (h s hs)

theorem traces_take : Traces words problems fuel P take := by
  intro n s _ t hrun _ _ h
  obtain rfl : t = s.take := run_act_iff.1 hrun
  cases hrest : s.rest with
  | nil =>
    rw [Sketch.take, hrest]
    exact h
  | cons w ws =>
    rw [Sketch.take_eq hrest]
    refine ⟨?_, ?_, ?_, h.names⟩
    · rw [List.reverse_cons, allPartsAt_append]
      exact ⟨h.drafts, trivial⟩
    · rw [List.reverse_cons, wordsOfAll_append, List.length_append, ← Nat.add_assoc, ← h.taken]
      rfl
    · rw [← List.drop_drop, ← h.rest, hrest]
      rfl

theorem traces_report {place : Place} {cause : Cause}
    (hcause : ∀ x y, cause = .loopVariableMismatch x y → sameName x y = false) :
    Traces words problems fuel P (report place cause) := by
  intro n s _ t hrun _ _ h
  obtain rfl := run_act_iff.1 hrun
  change Traced words problems n { s with toReading := s.toReading.report place cause }
  rw [Reading.report]
  split
  · exact h
  · refine ⟨h.drafts, h.taken, h.rest, fun r hr => ?_⟩
    rcases Array.mem_push.1 hr with hr | rfl
    · exact h.names r hr
    · exact hcause

theorem traces_routine {place : Place} {cause : Cause} (hcause : cause.isRoutine) :
    Traces words problems fuel P (report place cause) := by
  apply traces_report
  rintro x y rfl
  cases hcause

theorem traces_silence : Traces words problems fuel P silence := by
  intro n s _ t hrun _ _ h
  obtain rfl := run_act_iff.1 hrun
  exact ⟨h.drafts, h.taken, h.rest, h.names⟩

theorem traces_listen : Traces words problems fuel P listen := by
  intro n s _ t hrun _ _ h
  obtain rfl := run_act_iff.1 hrun
  exact ⟨h.drafts, h.taken, h.rest, h.names⟩

/-! ### Stretches -/

theorem traces_node (hkind : kind.isRoutine ∨ kind = .unaryExpr)
    (hx : Traces words problems fuel Q x) (hPQ : ∀ s, P s → Q s.fresh) :
    Traces words problems fuel P (node kind x) := by
  intro n s a t hrun hreports hs h
  obtain ⟨u, hu, rfl⟩ := run_within_iff.1 hrun
  exact h.node (hx _ s.fresh a u hu hreports (hPQ s hs) h.fresh) (.other hkind)

/-- A number that is seen is all that its node holds. -/
theorem traces_number :
    Traces words problems fuel (Heard words.length st (.seeing l b .number)) (oneWord .numberLiteral) := by
  intro n s a t hrun hreports hs h
  obtain ⟨u, hu, rfl⟩ := run_within_iff.1 hrun
  have htraced := traces_take (P := fun _ => True) _ s.fresh a u hu hreports trivial h.fresh
  obtain ⟨w, ws, hrest, hw⟩ := Reading.exists_rest (Reading.current_of_onLine hs.sees)
  have hfresh : s.fresh.rest = w :: ws := hrest
  obtain rfl : u = s.fresh.take := run_act_iff.1 hu
  have hparts : s.fresh.take.parts = [.word w] := by
    rw [Sketch.take_eq hfresh]
    rfl
  refine h.node htraced ?_
  rw [hparts]
  exact .number hw

theorem traces_wrap (hkind : kind.isRoutine) (hx : Traces words problems fuel Q x)
    (hPQ : ∀ s, P s → Q s.fresh) : Traces words problems fuel P (wrap kind x) := by
  intro n s a t hrun hreports hs h
  obtain ⟨u, hu, rfl⟩ := run_within_iff.1 hrun
  refine h.wrap (hx _ s.fresh a u hu hreports (hPQ s hs) h.fresh) ?_
  rintro i first d rfl - -
  exact .other (.inl hkind)

/-- A stretch that is no node. -/
theorem traces_within {scope : Scope} (hx : Traces words problems fuel Q x)
    (hPQ : ∀ s, P s → Q (Machine.begin s scope).2)
    (hbegin : ∀ s : Sketch, (Machine.begin s scope).2.parts = s.parts)
    (hleave : ∀ (u : Sketch) mark, (Machine.leave u mark scope).parts = u.parts) :
    Traces words problems fuel P (within scope x) := by
  intro n s a t hrun hreports hs h
  obtain ⟨u, hu, rfl⟩ := run_within_iff.1 hrun
  obtain ⟨hrest, htaken, -, hsame⟩ := begin_same s scope
  obtain ⟨hrest', htaken', -, hsame'⟩ := leave_same u (Machine.begin s scope).1 scope
  rw [hsame'] at hreports
  exact (hx n _ a u hu hreports (hPQ s hs) (h.transfer (hbegin s) hrest htaken hsame)).transfer
    (hleave u _) hrest' htaken' hsame'

theorem traces_collect {item : Script (Option β)}
    (hQ : ∀ s a t, item.run (runRule script fuel) fuel s = some (a, t) → P s → P t)
    (h : Traces words problems fuel P item) : Traces words problems fuel P (collect item) := by
  intro n s bs t hrun hreports hs hn
  rw [run_collect_iff] at hrun
  refine repeatStep_induction (P := fun _ s _ t => t.reports.toList <+: problems → P s →
    Traced words problems n s → Traced words problems n t) ?_ ?_ hrun hreports hs hn
  · exact fun _ s t hst hreports => h n s none t hst hreports
  · intro _ s b u _ t hsu hut ih hreports hs hn
    have hfirst := (Sketch.goesOn_of_rounds hut).reports.trans hreports
    exact ih hreports (hQ s _ u hsu hs) (h n s (some b) u hsu hfirst hs hn)

/-! ### What is skipped -/

theorem traces_whileM {test : Script Bool} {body : Script Unit}
    (htest : Traces words problems fuel (fun _ => True) test)
    (hbody : Traces words problems fuel (fun _ => True) body) :
    Traces words problems fuel P (whileM test body) := by
  refine traces_seq (Traces.mono (Q := fun _ => True) (traces_collect (fun _ _ _ _ _ => trivial) ?_)
    fun _ _ => trivial) fun _ => traces_pure ()
  refine traces_seq htest fun c => ?_
  split
  · exact traces_seq hbody fun _ => traces_pure _
  · exact traces_pure _

theorem traces_statementEnds : Traces words problems fuel P statementEnds := by
  refine traces_ask (fun _ => id) fun o => ?_
  split
  · exact traces_pure _
  · have h : Traces words problems fuel P (atStop >>= pure) := traces_ask (fun _ => id) traces_pure
    rwa [bind_pure] at h

theorem traces_takeLine : Traces words problems fuel P takeLine :=
  traces_whileM (traces_seq traces_statementEnds fun _ => traces_pure _) traces_take

theorem traces_errorNode : Traces words problems fuel P (node .errorNode takeLine) :=
  traces_node (Q := fun _ => True) (.inl rfl) traces_takeLine fun _ _ => trivial

theorem traces_lineEnd : Traces words problems fuel P lineEnd := by
  have hskip {P : Sketch → Prop} :
      Traces words problems fuel P (do node .errorNode takeLine; listen) :=
    traces_seq traces_errorNode fun _ => traces_listen
  refine traces_seq traces_statementEnds fun c => ?_
  cases c with
  | true => exact traces_listen
  | false =>
    refine traces_ask (fun _ => id) fun o => ?_
    split
    · exact hskip
    · exact hskip
    · exact traces_seq (traces_routine rfl) fun _ => hskip

theorem traces_skipDeepExpression : Traces words problems fuel P skipDeepExpression := by
  refine traces_seq (traces_routine rfl) fun _ => ?_
  exact traces_node (Q := fun _ => True) (.inl rfl) (traces_seq traces_silence fun _ => traces_takeLine)
    fun _ _ => trivial

/-! ### Lines -/

/-- A script leads from one mode to another where the text is heard, and leaves sketches traced. -/
structure Tracks (words : List Word) (problems : List Report) (fuel : Nat) {α : Type} (st : Stage) (m : Mode)
    (x : Script α) (m' : Mode) : Prop where
  hears : Hears fuel words.length st m x m'
  traces : Traces words problems fuel (Heard words.length st m) x

theorem Tracks.bind_traces (hx : Tracks words problems fuel st m x m')
    (hf : ∀ a, Traces words problems fuel (Heard words.length st m') (f a)) :
    Traces words problems fuel (Heard words.length st m) (x >>= f) :=
  traces_bind hx.traces (fun _ _ _ hrun hs => Heard.of_run hx.hears hrun hs) hf

theorem traces_onLine {f : Option TokenKind → Script α}
    (hnone : Traces words problems fuel (Heard words.length st (.live l b)) (f none))
    (hsome : ∀ k, Traces words problems fuel (Heard words.length st (.seeing l b k)) (f (some k))) :
    Traces words problems fuel (Heard words.length st (.live l b)) (onLine >>= f) := by
  intro n s a t hrun hreports hs
  rw [onLine, run_ask_bind, answer_onLine] at hrun
  cases hk : s.onLine with
  | none =>
    rw [hk] at hrun
    exact hnone n s a t hrun hreports hs
  | some k =>
    rw [hk] at hrun
    exact hsome k n s a t hrun hreports { hs with sees := hk }

/-- A branch on the kind of the next word on the line. -/
theorem traces_ifOnLine {x y : Script α}
    (hx : Traces words problems fuel (Heard words.length st (.seeing l b k)) x)
    (hy : Traces words problems fuel (Heard words.length st (.live l b)) y) :
    Traces words problems fuel (Heard words.length st (.live l b)) (do if (← onLine) == some k then x else y) := by
  refine traces_onLine hy fun k' => ?_
  by_cases hk : k' = k
  · subst hk
    rw [if_pos (beq_self_eq_true _)]
    exact hx
  · rw [if_neg (by simpa using hk)]
    exact hy.mono fun s hs => hs.weaken (.seen id id)

/-- What is known is asked. -/
theorem traces_known {q : Query β} {f : β → Script α} {b : β}
    (hb : ∀ s, P s → Machine.answer s q = b) (h : Traces words problems fuel P (f b)) :
    Traces words problems fuel P (.ask q .done >>= f) := by
  intro n s a t hrun hreports hs
  rw [run_ask_bind, hb s hs] at hrun
  exact h n s a t hrun hreports hs

theorem tracks_lineRules (hexpression : ∀ {l b : Bool} power,
    Tracks words problems fuel .inner (.live l b) (expressionFrom power) (.live false b)) :
    LineRules fun st m x m' => Tracks words problems fuel st m x m' where
  pure a := ⟨hears.pure a, traces_pure a⟩
  bind hx hf := ⟨hears.bind hx.hears fun a => (hf a).hears, hx.bind_traces fun a => (hf a).traces⟩
  weaken hpre hpost h :=
    ⟨hears.weaken hpre hpost h.hears, h.traces.mono fun _ hs => hs.weaken hpre⟩
  idle hq hf h := ⟨hears.idle hq hf h.hears, traces_ask (fun _ => id) fun a => hf a ▸ h.traces⟩
  onLine hnone hsome := ⟨hears.onLine hnone.hears fun k => (hsome k).hears,
    traces_onLine hnone.traces fun k => (hsome k).traces⟩
  onLine_seeing h := ⟨hears.onLine_seeing h.hears, traces_known (fun _ hs => hs.sees) h.traces⟩
  current_seeing h := ⟨hears.current_seeing h.hears,
    traces_known (fun _ hs => Reading.current_of_onLine hs.sees) h.traces⟩
  current_word h := ⟨hears.current_word h.hears, traces_known (fun _ hs => hs.sees) h.traces⟩
  second_seeing h := ⟨hears.second_seeing fun o => (h o).hears,
    traces_ask (fun _ => id) fun o => (h o).traces⟩
  second_word {_ st b k m f} hnone hsome := by
    refine ⟨hears.second_word hnone.hears fun k => (hsome k).hears, fun n s a t hrun hreports hs => ?_⟩
    have hanswer : Machine.answer s Query.secondOnLine = s.secondOnLine := rfl
    rw [secondOnLine, run_ask_bind, hanswer] at hrun
    cases hk : s.secondOnLine with
    | none =>
      rw [hk] at hrun
      exact hnone.traces n s a t hrun hreports hs
    | some k' =>
      rw [hk] at hrun
      exact (hsome k').traces n s a t hrun hreports
        { hs with sees := ⟨hs.sees, hk⟩, blamed := Bool.noConfusion }
  atStop {_ st l k m f} htrue hfalse := by
    refine ⟨hears.atStop htrue.hears hfalse.hears, fun n s a t hrun hreports hs => ?_⟩
    have hanswer : Machine.answer s Query.atStop = s.atStop := rfl
    rw [atStop, run_ask_bind, hanswer] at hrun
    cases hstop : s.atStop with
    | true =>
      rw [hstop] at hrun
      exact htrue.traces n s a t hrun hreports hs
    | false =>
      rw [hstop] at hrun
      refine hfalse.traces n s a t hrun hreports { hs with loud := fun _ => ?_ }
      refine Bool.eq_false_iff.2 fun hsilenced => ?_
      have hk : s.onLine = some k := hs.sees
      have := hs.settled hsilenced
      simp [hk, hstop] at this
  tooDeep h := ⟨hears.tooDeep fun d => (h d).hears, traces_ask (fun _ => id) fun d => (h d).traces⟩
  here h := ⟨hears.here fun e => (h e).hears, traces_ask (fun _ => id) fun e => (h e).traces⟩
  behind h := ⟨hears.behind fun e => (h e).hears, traces_ask (fun _ => id) fun e => (h e).traces⟩
  take_word := ⟨hears.take_word, traces_take⟩
  take_pair := ⟨hears.take_pair, traces_take⟩
  take_seeing hk := ⟨hears.take_seeing hk, traces_take⟩
  report_live hcause := ⟨hears.report_live hcause, traces_routine hcause⟩
  report_seeing hcause := ⟨hears.report_seeing hcause, traces_routine hcause⟩
  report_word hcause := ⟨hears.report_word hcause, traces_routine hcause⟩
  listen_live := ⟨hears.listen_live, traces_listen⟩
  listen_word := ⟨hears.listen_word, traces_listen⟩
  collect h := ⟨hears.collect h.hears,
    traces_collect (fun _ _ _ hrun hs => Heard.of_run h.hears hrun hs) h.traces⟩
  measured_of_inner h := ⟨hears.measured_of_inner h.hears,
    h.traces.mono fun _ hs => { hs with measured := by simp }⟩
  node hkind h := ⟨hears.node hkind h.hears, traces_node (.inl hkind) h.traces fun _ hs => hs.fresh⟩
  number h := ⟨hears.number h.hears, traces_number⟩
  wrap h := ⟨hears.wrap h.hears, traces_wrap rfl h.traces fun _ hs => hs.fresh⟩
  wrapped hx hy := ⟨hears.wrapped hx.hears hy.hears,
    hx.bind_traces fun _ => traces_wrap rfl hy.traces fun _ hs => hs.fresh⟩
  nested h := ⟨hears.nested h.hears, traces_within h.traces
    (fun s hs => hs.transfer_of_frames (begin_same s .nested) rfl hs.measured) (fun _ => rfl)
    fun _ _ => rfl⟩
  measured h := ⟨hears.measured h.hears, traces_within h.traces
    (fun s hs => hs.transfer_of_frames (begin_same s .measured) rfl fun _ =>
      ⟨List.cons_ne_nil _ _, Nat.le_refl _⟩) (fun _ => rfl) fun _ _ => rfl⟩
  error h := ⟨hears.error h.hears, h.traces.mono fun _ hs => { hs with blamed := fun _ => rfl }⟩
  expression := hexpression
  lineEnd := ⟨hears.lineEnd, traces_lineEnd⟩

theorem tracks_operationRules (hexpression : ∀ {l b : Bool} power,
    Tracks words problems fuel .inner (.live l b) (expressionFrom power) (.live false b)) :
    OperationRules fun st m x m' => Tracks words problems fuel st m x m' where
  toLineRules := tracks_lineRules hexpression
  unary h := ⟨alike_node losing_alone.toLosing h.hears,
    traces_node (.inr rfl) h.traces fun _ hs => hs.fresh⟩
  binary {b k left right} hk := by
    have hoperation : Tracks words problems fuel .inner (.seeing false b k)
        (do take; expressionFrom right) (.live false b) :=
      walk_operation (tracks_lineRules hexpression) hk
    refine ⟨alike_wrap losing_alone.toLosing hoperation.hears, fun n s a t hrun hreports hs h => ?_⟩
    obtain ⟨u, hu, rfl⟩ := run_within_iff.1 hrun
    refine h.wrap (hoperation.traces _ s.fresh a u hu hreports hs.fresh h.fresh) ?_
    intro i first d hkind hpieces hi
    exact .operation hk (.intro hs hi.symm (hi ▸ h.rest) hu hreports) hkind hpieces
  skipDeepExpression := ⟨alike_skipDeepExpression losing_alone.toLosing, traces_skipDeepExpression⟩

/-- A call of a rule keeps track as the script of the rule does on less fuel. -/
theorem tracks_call {rule : Rule} (h : Tracks words problems fuel st m (script rule) m') :
    Tracks words problems (fuel + 1) st m (.call rule .done) m' where
  hears := alike_call h.hears
  traces n s _ t hrun := h.traces n s () t (run_of_runRule (run_call_iff.1 hrun))

theorem tracks_callOfNone {rule : Rule} :
    Tracks words problems 0 st m (.call rule .done) m' where
  hears := alike_callOfNone
  traces n s _ t hrun := by cases run_call_iff.1 hrun

theorem tracks_expression (power : Nat) :
    Tracks words problems fuel .inner (.live l b) (expressionFrom power) (.live false b) := by
  induction fuel generalizing l b power with
  | zero => exact tracks_callOfNone
  | succ fuel ih =>
    exact tracks_call (walk_expressionRule (tracks_operationRules fun power => ih power) power)

theorem tracks_lines : LineRules fun st m x m' => Tracks words problems fuel st m x m' :=
  tracks_lineRules fun power => tracks_expression power

theorem tracks_texts : TextRules fun st m x m' => Tracks words problems fuel st m x m' where
  toLineRules := tracks_lines
  text h := ⟨(alike_texts losing_alone.toLosing).text fun cs => (h cs).hears,
    traces_ask (fun _ => id) fun cs => (h cs).traces⟩

end Grammar

end CRBasic
