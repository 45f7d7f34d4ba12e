import CRBasic.Proofs.Expression.Parsing
import CRBasic.Proofs.Lines.Arguments
import CRBasic.Proofs.Roles.LoopParts

/-!
# Arguments that are names

Whether an argument is a name is told ahead, by the two words that are next.  Where the nesting leaves room,
that is so of exactly the arguments that are put as a node of one name and that a comma or a closing
parenthesis follows on the line (`isName_iff`).
-/

namespace CRBasic

open Parsing

/-- An edge is behind a word, or at the start of one that starts no line. -/
def Edge.Here (words : List Word) (e : Edge) : Prop :=
  ∀ n, e = .startAfter n → ∃ w, words[n]? = some w ∧ w.startsLine = false

/-- Among some problems there is one of a cause behind at least `m` words and at most `n`. -/
def Report.Among (words : List Word) (problems : List Report) (cause : Cause) (m n : Nat) : Prop :=
  ∃ r ∈ problems, r.cause = cause ∧ m ≤ r.start.count ∧ r.start.count ≤ n ∧ r.start.Here words

theorem Report.Among.mono {words : List Word} {problems problems' : List Report} {cause : Cause}
    {m n m' n' : Nat} (h : Among words problems cause m n) (hsub : problems <+: problems') (hm : m' ≤ m)
    (hn : n ≤ n') : Among words problems' cause m' n' := by
  obtain ⟨r, hr, hcause, hle, hle', hhere⟩ := h
  exact ⟨r, hsub.mem hr, hcause, Nat.le_trans hm hle, Nat.le_trans hle' hn, hhere⟩

/-! ### Events -/

namespace Draft

/-- The events of a draft start with the start of a node, which points to a parent if the draft is linked. -/
theorem exists_events : ∀ (d : Draft) (linked : Bool), ∃ kind parent? more,
    d.events linked = .start kind parent? :: more ∧ (linked = true → parent? ≠ none)
  | .node kind parts, linked => by
    refine ⟨kind, _, _, rfl, ?_⟩
    rintro rfl
    exact Option.some_ne_none _
  | .around kind first parts, linked => by
    obtain ⟨kind, parent?, more, hevents, hparent⟩ := first.exists_events true
    exact ⟨kind, parent?, _, by rw [events, hevents]; rfl, fun _ => hparent rfl⟩

theorem eventsOfAll_eq_token {ps : List (Piece Draft)} {k : TokenKind}
    (h : eventsOfAll ps = [.token k]) : ∃ w : Word, w.kind = k ∧ ps = [.word w] := by
  have hnode {d : Draft} {ps : List (Piece Draft)} {es : List Event}
      (h : eventsOfAll (.node d :: ps) = es) : ∃ kind parent? more, es = .start kind parent? :: more := by
    obtain ⟨kind, parent?, more, hevents, -⟩ := d.exists_events false
    exact ⟨kind, parent?, _, by rw [← h, eventsOfAll, hevents]; rfl⟩
  rcases ps with - | ⟨w | d, ps⟩
  · cases h
  · obtain ⟨hw, hmore⟩ := List.cons.inj h
    refine ⟨w, Event.token.inj hw, ?_⟩
    rcases ps with - | ⟨w' | d, ps⟩
    · rfl
    · cases hmore
    · obtain ⟨kind, parent?, more, hstart⟩ := hnode hmore
      cases hstart
  · obtain ⟨kind, parent?, more, hstart⟩ := hnode h
    cases hstart

/-- Only the draft of a node of one word has the events of one. -/
theorem events_eq_iff {d : Draft} {kind : NodeKind} {k : TokenKind} :
    d.events false = [.start kind none, .token k, .finish] ↔
      ∃ w : Word, w.kind = k ∧ d = .node kind [.word w] := by
  constructor
  · intro h
    cases d with
    | node kind' parts =>
      obtain ⟨hstart, hmore⟩ := List.cons.inj h
      have hmore : eventsOfAll parts ++ [.finish] = [.token k] ++ [.finish] := hmore
      obtain ⟨w, hw, rfl⟩ := eventsOfAll_eq_token (List.append_cancel_right hmore)
      cases hstart
      exact ⟨w, hw, rfl⟩
    | around kind' first parts =>
      obtain ⟨kind'', parent?, more, hevents, hparent⟩ := first.exists_events true
      rw [events, hevents] at h
      cases (List.cons.inj h).1
      exact absurd rfl (hparent rfl)
  · rintro ⟨w, rfl, rfl⟩
    rfl

end Draft

namespace Grammar

open Script Draft

variable {fuel power : Nat} {s t : Sketch} {w x : Word} {ws : List Word} {v : Unit}

/-! ### Bare names -/

theorem yields_identifier_bare (hrest : s.rest = w :: x :: ws) (hx : x.kind ≠ .dot) :
    Yields script identifier s () (s.put (x :: ws) [.node (.node .identifier [.word w])]) := by
  refine yields_node .identifier fun u hu => ?_
  refine (yields_take (hu.rest.trans hrest)).bind ?_
  have hend : (u.put (x :: ws) [.word w]).onLine ≠ some .dot := by
    intro hk
    obtain ⟨y, ys, hy, hkind⟩ := rest_of_onLine hk
    obtain ⟨rfl, -⟩ := List.cons.inj hy
    exact hx hkind
  exact (yields_collect_nil ((yields_eat_none hend).bind (yields_pure none))).bind (yields_pure ())

/-- A name that no argument list and no operator follows is an expression of one node. -/
theorem yields_bareName (hrest : s.rest = w :: x :: ws) (hline : w.startsLine = false)
    (hw : w.kind = .ident) (hx : Closing x.kind) (hroom : s.tooDeep = false) :
    Yields script expression s () (s.put (x :: ws) [.node (.node .identifier [.word w])]) := by
  have hdepth : s.depth < s.options.maxDepth := by
    rw [Reading.tooDeep, decide_eq_false_iff_not] at hroom
    omega
  have hk : s.deeper.onLine = some .ident := hw ▸ onLine_cons (s := s.deeper) hrest hline
  refine yields_expressionFrom hdepth (yields_body_of_operand hk rfl ?_ (hx.yields_operators rfl))
  have hparen : ((s.deeper.put (x :: ws) [.node (.node .identifier [.word w])]).onLine ==
      some .lParen) = false := by
    have hfollows : Follows 0 (s.deeper.put (x :: ws) [.node (.node .identifier [.word w])]).rest :=
      hx.follows 0
    simpa using hfollows.onLine_ne_lParen
  have hname : Yields script nameReference s.deeper ()
      (s.deeper.put (x :: ws) [.node (.node .identifier [.word w])]) := by
    refine (yields_identifier_bare (s := s.deeper) hrest hx.2.1).bind ?_
    rw [onLine, yields_ask, answer_onLine, hparen]
    exact yields_pure ()
  exact yields_onLine hk (hname.thenPure true)

/-! ### Expressions that are no names -/

/-- Where nothing is left on the line, an expression puts nothing. -/
theorem parts_expressionBody_of_none (hk : s.onLine = none)
    (hrun : (expressionBody power).run (runRule script fuel) fuel s = some (v, t)) :
    t.parts = s.parts := by
  rw [expressionBody, onLine, run_ask_bind, answer_onLine, hk] at hrun
  obtain ⟨c, u, hu, hrun⟩ := run_bind_iff.1 hrun
  rw [operand, onLine, run_ask_bind, answer_onLine, hk] at hu
  obtain ⟨_, u', hu', hu⟩ := run_bind_iff.1 hu
  obtain rfl := run_act_iff.1 hu'
  rw [atStop, run_ask_bind] at hu
  obtain ⟨rfl, rfl⟩ := run_pure_iff.1 hu
  obtain ⟨-, rfl⟩ := run_pure_iff.1 hrun
  rfl

/-- An expression that puts a name starts with a word on the line, where the nesting leaves room. -/
theorem onLine_of_identifier {parts : List (Piece Draft)}
    (hrun : (expressionFrom power).run (runRule script fuel) fuel s = some (v, t))
    (hparts : t.parts = .node (.node .identifier parts) :: s.parts) :
    s.tooDeep = false ∧ s.onLine ≠ none := by
  obtain ⟨n, ⟨-, hskip⟩ | ⟨hroom, u, hu, hsame⟩⟩ := run_expression_cases hrun
  · obtain ⟨_, u, hu, hnode⟩ := run_bind_iff.1 hskip
    obtain rfl := run_act_iff.1 hu
    obtain ⟨errors, herrors⟩ := Sketch.parts_node hnode
    rw [herrors] at hparts
    cases (List.cons.inj hparts).1
  · refine ⟨hroom, fun hnone => ?_⟩
    have hput : t.parts = s.parts := hsame.trans (parts_expressionBody_of_none (s := s.deeper) hnone hu)
    rw [hput] at hparts
    exact List.cons_ne_self _ _ hparts.symm

/-! ### What is looked ahead for -/

/-- A word that is next on the line. -/
theorem exists_of_onLine {k : TokenKind} (h : s.onLine = some k) :
    ∃ w ws, s.rest = w :: ws ∧ w.startsLine = false ∧ w.kind = k := by
  obtain ⟨w, ws, hrest, hw⟩ := rest_of_onLine h
  rw [Reading.onLine, hrest] at h
  cases hline : w.startsLine with
  | false => exact ⟨w, ws, hrest, hline, hw⟩
  | true => simp [hline] at h

/-- Where the nesting leaves room, an argument counts as a name if and only if it is put as a node of one name
and a comma or a closing parenthesis follows on the line. -/
theorem isName_iff {a : Argument} (hrun : argument.run (runRule script fuel) fuel s = some (a, t)) :
    a.isName = true ∧ s.tooDeep = false ↔ ∃ w : Word, w.kind = .ident ∧
      t.parts = .node (.node .identifier [.word w]) :: s.parts ∧
        (t.onLine = some .comma ∨ t.onLine = some .rParen) := by
  obtain ⟨hexpression, rfl⟩ := run_argument hrun
  refine Iff.trans (and_congr_left' Word.closedName_iff) ⟨?_, ?_⟩
  · rintro ⟨⟨w, x, ws, hrest, hline, hw, hlineEnd, hx⟩, hroom⟩
    have hclosing : Closing x.kind := by
      rcases hx with hx | hx
      · exact hx ▸ closing_comma
      · exact hx ▸ closing_rParen
    obtain ⟨-, rfl⟩ := Yields.unique ⟨fuel, hexpression⟩ (yields_bareName hrest hline hw hclosing hroom)
    have hk : (s.put (x :: ws) [.node (.node .identifier [.word w])]).onLine = some x.kind :=
      onLine_cons rfl hlineEnd
    exact ⟨w, hw, rfl, hx.imp (fun hx => hk.trans (congrArg some hx)) fun hx => hk.trans (congrArg some hx)⟩
  · rintro ⟨w, hw, hparts, hend⟩
    obtain ⟨hroom, hnext⟩ := onLine_of_identifier hexpression hparts
    have hrest : s.rest = wordsOfAll [.node (.node .identifier [.word w])] ++ t.rest :=
      words_of_run hexpression hparts
    have hrest : s.rest = w :: t.rest := by simpa [wordsOfAll, Draft.words] using hrest
    obtain ⟨k, hk⟩ := Option.ne_none_iff_exists'.1 hnext
    obtain ⟨w', ws, hrest', hline, -⟩ := exists_of_onLine hk
    obtain ⟨rfl, -⟩ := List.cons.inj (hrest.symm.trans hrest')
    have hfollows {k : TokenKind} (h : t.onLine = some k) (hclosing : k = .comma ∨ k = .rParen) :
        ∃ w x more, s.rest = w :: x :: more ∧ w.startsLine = false ∧ w.kind = .ident ∧
          x.startsLine = false ∧ (x.kind = .comma ∨ x.kind = .rParen) := by
      obtain ⟨x, more, hmore, hlineEnd, rfl⟩ := exists_of_onLine h
      exact ⟨w, x, more, by rw [hrest, hmore], hline, hw, hlineEnd, hclosing⟩
    exact ⟨hend.elim (hfollows · (.inl rfl)) (hfollows · (.inr rfl)), hroom⟩

/-! ### The events of an argument -/

/-- Where the nesting leaves room, an argument counts as a name if and only if its events are those of one name
and a comma or a closing parenthesis follows on the line. -/
theorem isName_iff_events {s t : State} {a : Argument} (hlatest : s.latest = none)
    (hrun : argument.run (runRule script fuel) fuel s = some (a, t)) :
    a.isName = true ∧ s.tooDeep = false ↔
      t.events.toList = s.events.toList ++ [.start .identifier none, .token .ident, .finish] ∧
        (t.onLine = some .comma ∨ t.onLine = some .rParen) := by
  have hdepicts : Sketch.Depicts s.events.toList s ⟨s.toReading, []⟩ :=
    ⟨rfl, (List.append_nil _).symm, hlatest⟩
  obtain ⟨u, hu, htu⟩ := Sketch.simulation.run hdepicts hrun Sketch.simulation.runRule
  obtain ⟨d?, hparts⟩ := parts_expression (run_argument hu).1
  have hnext : u.onLine = t.onLine := congrArg Reading.onLine htu.reading
  have hevents : t.events.toList =
      s.events.toList ++ [.start .identifier none, .token .ident, .finish] ↔
        ∃ w : Word, w.kind = .ident ∧ u.parts = [.node (.node .identifier [.word w])] := by
    rw [htu.events, List.append_cancel_left_eq, hparts]
    cases d? with
    | none => simp [eventsOfAll]
    | some d =>
      have hone : eventsOfAll [Piece.node d] = d.events false := List.append_nil _
      simpa [hone] using Draft.events_eq_iff
  rw [hevents, ← hnext]
  refine (isName_iff hu).trans ⟨?_, ?_⟩
  · rintro ⟨w, hw, hput, hclose⟩
    exact ⟨⟨w, hw, hput⟩, hclose⟩
  · rintro ⟨⟨w, hw, hput⟩, hclose⟩
    exact ⟨w, hw, hput, hclose⟩

/-! ### Problems that are passed over -/

section Silence

variable {words : List Word}

/-- Between two sketches of a text it is reported that an expression is too deep. -/
def Nested (words : List Word) (s t : Sketch) : Prop :=
  s.rest = words.drop s.taken → Report.Among words t.reports.toList .nestingTooDeep s.taken t.taken

variable {u : Sketch}

theorem Nested.before (h : Nested words t u) (hst : s.toReading.GoesOn t.toReading) : Nested words s u :=
  fun hs => (h (hst.rest_eq_drop hs)).mono (List.prefix_refl _) hst.taken_le (Nat.le_refl _)

theorem Nested.behind (h : Nested words s t) (htu : t.toReading.GoesOn u.toReading) : Nested words s u :=
  fun hs => (h hs).mono htu.reports (Nat.le_refl _) htu.taken_le

/-- A problem is reported where a word of the line starts, or behind a word. -/
theorem here_edges {s : Reading} (hs : s.rest = words.drop s.taken) : (s.edges .here).1.Here words := by
  rw [Reading.edges]
  split
  · next hnext =>
    rintro k ⟨⟩
    obtain ⟨k, hk⟩ := Option.isSome_iff_exists.1 hnext
    obtain ⟨w, ws, hrest, hline, -⟩ := exists_of_onLine (s := ⟨s, []⟩) hk
    have hhead : (words.drop s.taken).head? = some w := by
      rw [← hs]
      exact congrArg List.head? hrest
    rw [List.head?_drop] at hhead
    exact ⟨w, hhead, hline⟩
  · rintro k ⟨⟩

/-- Where problems begin to be passed over on a line, it is reported that an expression is too deep. -/
theorem tells_nested : Tells (Nested words) where
  before hrun h := h.before (Sketch.goesOn_of_run hrun)
  behind hrun h := h.behind (Sketch.goesOn_of_run hrun)
  within {scope s u} h hs := by
    obtain ⟨hrest, htaken, -, -⟩ := begin_same s scope
    obtain ⟨-, htaken', -, hreports⟩ := leave_same u (Machine.begin s scope).1 scope
    rw [hreports, htaken', ← htaken]
    exact h (by rw [hrest, htaken, hs])
  deep {fuel s t} hloud hrun hs := by
    obtain ⟨_, u, hu, hnode⟩ := run_bind_iff.1 hrun
    obtain rfl := run_act_iff.1 hu
    have hgoes := Sketch.goesOn_of_run hnode
    have hreport : (s.perform (.report .here .nestingTooDeep)).reports.toList =
        s.reports.toList ++ [⟨.nestingTooDeep, (s.edges .here).1, (s.edges .here).2⟩] := by
      change (s.toReading.report .here .nestingTooDeep).reports.toList = _
      simp [Reading.report, hloud]
    have hsame : (s.perform (.report .here .nestingTooDeep)).taken = s.taken :=
      s.toReading.taken_report _ _
    refine ⟨_, hgoes.reports.mem (hreport ▸ List.mem_append_right _ List.mem_cons_self), rfl, ?_, ?_,
      here_edges hs⟩
    · exact Nat.le_of_eq (count_here _).symm
    · rw [count_here, ← hsame]
      exact hgoes.taken_le

end Silence

/-! ### Lists of arguments -/

/-- What closes an argument in its list: nothing, or words from a comma or a closing parenthesis on. -/
inductive AfterArgument (s : Sketch) : List (Piece Draft) → Prop where
  | missing (hcomma : s.onLine ≠ some .comma) (hparen : s.onLine ≠ some .rParen) : AfterArgument s []
  | written {w : Word} {more : List (Piece Draft)}
      (hnext : s.onLine = some .comma ∨ s.onLine = some .rParen) : AfterArgument s (.word w :: more)

/-- How the arguments of a list are read between two sketches: none or one, or a second one behind a comma. -/
inductive ReadsItems (words : List Word) (fuel : Nat) (s t : Sketch) :
    List Argument → List (Piece Draft) → Prop where
  | few {args : List Argument} {ps : List (Piece Draft)} (hargs : args.length < 2)
      (hps : ∀ w, .word w ∈ ps → w.kind ≠ .comma) : ReadsItems words fuel s t args ps
  | more {u v : Sketch} {a b : Argument} {args : List Argument} {comma : Word}
      {first? second? : Option Draft} {closing : List (Piece Draft)} (hcomma : comma.kind = .comma)
      (htaken : u.taken = s.taken + (wordsOfAll (first?.toList.map .node ++ [.word comma])).length)
      (hsu : s.toReading.GoesOn u.toReading) (hreveals : s.Reveals (Nested words) u)
      (hsecond : argument.run (runRule script fuel) fuel u = some (b, v))
      (hparts : v.parts = second?.toList.map .node ++ u.parts)
      (hvt : v.toReading.GoesOn t.toReading) (hclosing : AfterArgument v closing) :
      ReadsItems words fuel s t (a :: b :: args)
        (first?.toList.map .node ++ .word comma :: (second?.toList.map .node ++ closing))

variable {words : List Word} {n : Nat} {α β : Type} {u : Sketch}

theorem separated_eq (item : Script α) : separated item = (do
    let first ← item
    let more ← collect (itemAfterComma item)
    return first :: more) := rfl

theorem run_itemAfterComma {item : Script α} {c : Option α}
    (hrun : (itemAfterComma item).run (runRule script fuel) fuel s = some (c, t)) :
    (c = none ∧ s.onLine ≠ some .comma ∧ t = s) ∨
      ∃ b, c = some b ∧ s.onLine = some .comma ∧
        item.run (runRule script fuel) fuel s.take = some (b, t) := by
  rw [itemAfterComma, eat, LawfulMonad.bind_assoc, onLine, run_ask_bind, answer_onLine] at hrun
  split at hrun
  · next hk =>
    have hrun : (item >>= fun b => pure (some b)).run (runRule script fuel) fuel s.take = some (c, t) := hrun
    obtain ⟨b, u, hu, hrun⟩ := run_bind_iff.1 hrun
    obtain ⟨rfl, rfl⟩ := run_pure_iff.1 hrun
    exact .inr ⟨b, rfl, by simpa using hk, hu⟩
  · next hk =>
    obtain ⟨rfl, rfl⟩ := run_pure_iff.1 hrun
    exact .inl ⟨rfl, by simpa using hk, rfl⟩

/-- The rounds of a repetition are none, or a first one and others. -/
theorem rounds_cases {call : Rule → Sketch → Option Sketch} {item : Script (Option β)} {bs : List β}
    (h : repeatStep (item.run call fuel) n s = some (bs, t)) :
    (bs = [] ∧ item.run call fuel s = some (none, t)) ∨ ∃ b more u m, bs = b :: more ∧
      item.run call fuel s = some (some b, u) ∧ repeatStep (item.run call fuel) m u = some (more, t) :=
  repeatStep_induction (P := fun _ s bs t => (bs = [] ∧ item.run call fuel s = some (none, t)) ∨
      ∃ b more u m, bs = b :: more ∧ item.run call fuel s = some (some b, u) ∧
        repeatStep (item.run call fuel) m u = some (more, t))
    (fun _ _ _ hst => .inl ⟨rfl, hst⟩)
    (fun n _ b u more _ hsu hut _ => .inr ⟨b, more, u, n, rfl, hsu, hut⟩) h

/-- An argument puts at most one part, which is a node. -/
theorem parts_argument {a : Argument} (hrun : argument.run (runRule script fuel) fuel s = some (a, t)) :
    ∃ d? : Option Draft, t.parts = d?.toList.map .node ++ s.parts :=
  parts_expression (run_argument hrun).1

theorem exists_parts_rounds {args : List Argument}
    (h : repeatStep ((itemAfterComma argument).run (runRule script fuel) fuel) n s = some (args, t)) :
    ∃ new, t.parts = new ++ s.parts := by
  refine repeatStep_induction (P := fun _ (s : Sketch) _ (t : Sketch) => ∃ new, t.parts = new ++ s.parts)
    ?_ ?_ h
  · intro _ s t hst
    obtain ⟨-, -, rfl⟩ | ⟨b, hnone, -⟩ := run_itemAfterComma hst
    · exact ⟨[], rfl⟩
    · cases hnone
  · intro _ s b u _ t hsu _ ih
    obtain ⟨hsome, -⟩ | ⟨b, -, hcomma, hargument⟩ := run_itemAfterComma hsu
    · cases hsome
    · obtain ⟨w, ws, hrest, -⟩ := rest_of_onLine hcomma
      obtain ⟨d?, hd⟩ := parts_argument hargument
      obtain ⟨new, hnew⟩ := ih
      rw [Sketch.take_eq hrest] at hd
      exact ⟨new ++ d?.toList.map .node ++ [.word w], by simp [hnew, hd]⟩

theorem run_want_cases {k : TokenKind} (hrun : (want k).run (runRule script fuel) fuel s = some (v, t)) :
    (s.onLine = some k ∧ t = s.take) ∨ (s.onLine ≠ some k ∧ t.parts = s.parts) := by
  obtain ⟨c, u, hu, hrun⟩ := run_bind_iff.1 hrun
  obtain ⟨-, rfl⟩ := run_pure_iff.1 hrun
  obtain ⟨-, hk, rfl⟩ | ⟨-, hk, rfl⟩ := run_expect hu
  · exact .inl ⟨hk, rfl⟩
  · exact .inr ⟨hk, rfl⟩

/-- What is put behind an argument of a list closes it. -/
theorem exists_closes {args : List Argument}
    (hrounds : repeatStep ((itemAfterComma argument).run (runRule script fuel) fuel) n s = some (args, u))
    (hrun : (want .rParen).run (runRule script fuel) fuel u = some (v, t)) :
    ∃ closing, t.parts = closing.reverse ++ s.parts ∧ AfterArgument s closing ∧
      (args = [] → ∀ w, .word w ∈ closing → w.kind ≠ .comma) := by
  have hwant : ∃ new, t.parts = new ++ u.parts := by
    obtain ⟨hparen, rfl⟩ | ⟨-, hsame⟩ := run_want_cases hrun
    · obtain ⟨w, ws, hrest, -⟩ := rest_of_onLine hparen
      exact ⟨[.word w], by rw [Sketch.take_eq hrest]; rfl⟩
    · exact ⟨[], hsame⟩
  obtain ⟨rfl, hround⟩ | ⟨b, more, u', m, rfl, hround, hmore⟩ := rounds_cases hrounds
  · obtain ⟨-, hcomma, rfl⟩ | ⟨b, hnone, -⟩ := run_itemAfterComma hround
    · obtain ⟨hparen, rfl⟩ | ⟨hparen, hsame⟩ := run_want_cases hrun
      · obtain ⟨w, ws, hrest, hw⟩ := rest_of_onLine hparen
        refine ⟨[.word w], by rw [Sketch.take_eq hrest]; rfl, .written (.inr hparen), fun _ w' hw' => ?_⟩
        obtain rfl : w' = w := by simpa using hw'
        simp [hw]
      · exact ⟨[], hsame, .missing hcomma hparen, fun _ _ hw => absurd hw List.not_mem_nil⟩
    · cases hnone
  · obtain ⟨hsome, -⟩ | ⟨b, -, hcomma, hargument⟩ := run_itemAfterComma hround
    · cases hsome
    · obtain ⟨w, ws, hrest, -⟩ := rest_of_onLine hcomma
      obtain ⟨d?, hd⟩ := parts_argument hargument
      obtain ⟨new, hnew⟩ := exists_parts_rounds hmore
      obtain ⟨last, hlast⟩ := hwant
      rw [Sketch.take_eq hrest] at hd
      refine ⟨.word w :: (d?.toList.map .node ++ new.reverse ++ last.reverse), ?_, .written (.inl hcomma),
        nofun⟩
      cases d? <;> simp [hlast, hnew, hd]

/-- What is put for one argument of a list or more, and for its closing parenthesis. -/
theorem readsItems_separated {args : List Argument}
    (hitems : (separated argument).run (runRule script fuel) fuel s = some (args, u))
    (hrun : (want .rParen).run (runRule script fuel) fuel u = some (v, t)) :
    ∃ ps, t.parts = ps.reverse ++ s.parts ∧ ReadsItems words fuel s t args ps := by
  rw [separated_eq] at hitems
  obtain ⟨a, u₁, hfirst, hitems⟩ := run_bind_iff.1 hitems
  obtain ⟨more, u₂, hrounds, hitems⟩ := run_bind_iff.1 hitems
  obtain ⟨rfl, rfl⟩ := run_pure_iff.1 hitems
  rw [run_collect_iff] at hrounds
  obtain ⟨first?, hparts₁⟩ := parts_argument hfirst
  have hfirstParts : (first?.toList.map Piece.node).reverse = first?.toList.map .node := by
    cases first? <;> rfl
  have hcases := rounds_cases hrounds
  obtain ⟨rfl, -⟩ | ⟨b, more, v₁, m, rfl, hround, hmore⟩ := hcases
  · obtain ⟨closing, hclosing, -, hcomma⟩ := exists_closes hrounds hrun
    refine ⟨first?.toList.map .node ++ closing, ?_, .few (by simp) fun w hw => ?_⟩
    · rw [hclosing, hparts₁, List.reverse_append, hfirstParts, List.append_assoc]
    · refine hcomma rfl w ((List.mem_append.1 hw).resolve_left ?_)
      cases first? <;> simp
  · obtain ⟨hsome, -⟩ | ⟨b', hb, hnext, hsecond⟩ := run_itemAfterComma hround
    · cases hsome
    cases hb
    obtain ⟨comma, ws, hrest, hcomma⟩ := rest_of_onLine hnext
    obtain ⟨second?, hparts₂⟩ := parts_argument hsecond
    obtain ⟨closing, hclosing, hcloses, -⟩ := exists_closes hmore hrun
    have htake := Sketch.take_eq hrest
    have hsu₁ := Sketch.goesOn_of_run hfirst
    have hgoes : u₁.toReading.GoesOn u₁.take.toReading := Sketch.goesOn_take (.refl _)
    have hreveals : s.Reveals (Nested words) u₁.take := by
      intro hsilenced
      rw [htake] at hsilenced
      have hlineal : argument.Lineal false := lineal_argument
      exact (hlineal.reveals tells_nested hfirst hsilenced).imp_right (·.behind hgoes)
    refine ⟨first?.toList.map .node ++ .word comma :: (second?.toList.map .node ++ closing), ?_,
      .more hcomma ?_ (hsu₁.trans hgoes) hreveals hsecond hparts₂ ?_ hcloses⟩
    · have hsecondParts : (second?.toList.map Piece.node).reverse = second?.toList.map .node := by
        cases second? <;> rfl
      rw [hclosing, hparts₂, htake, hparts₁]
      simp [hfirstParts, hsecondParts]
    · have hcount := taken_of_run hfirst
      rw [hparts₁, List.reverse_append, hfirstParts, wordsOfAll_append, List.length_append] at hcount
      rw [htake, wordsOfAll_append, List.length_append]
      change u₁.taken + 1 = s.taken + (_ + 1)
      omega
    · exact (Sketch.goesOn_of_rounds hmore).trans (Sketch.goesOn_of_run hrun)

/-- What follows the opening parenthesis of a list. -/
def listItems : Script (List Argument) := do
  if (← onLine) == some .rParen then
    want .rParen
    return []
  else
    let items ← separated argument
    want .rParen
    return items

theorem argumentList_eq : argumentList = node .argList (do
    let start ← here
    take
    let items ← listItems
    let stop ← behind
    return ⟨start, stop, items⟩) := by
  simp only [argumentList, listItems, LawfulMonad.bind_assoc]
  refine congrArg _ (bind_congr fun start => bind_congr fun _ => bind_congr fun o => ?_)
  split <;> simp only [LawfulMonad.bind_assoc, LawfulMonad.pure_bind]

theorem lineal_listItems : listItems.Lineal false := by
  have hclose (items : List Argument) {known : Bool} :
      (do want .rParen; return items : Script (List Argument)).Lineal known :=
    (lineal_want .rParen).bind fun _ => trivial
  exact lineal_ifOnLine (hclose []) ((lineal_separated lineal_argument).bind fun items => hclose items)

theorem readsItems {args : List Argument}
    (hrun : listItems.run (runRule script fuel) fuel s = some (args, t)) :
    ∃ ps, t.parts = ps.reverse ++ s.parts ∧ ReadsItems words fuel s t args ps := by
  rw [listItems, onLine, run_ask_bind, answer_onLine] at hrun
  split at hrun
  · obtain ⟨_, u, hwant, hrun⟩ := run_bind_iff.1 hrun
    obtain ⟨rfl, rfl⟩ := run_pure_iff.1 hrun
    obtain ⟨hparen, rfl⟩ | ⟨-, hsame⟩ := run_want_cases hwant
    · obtain ⟨w, ws, hrest, hw⟩ := rest_of_onLine hparen
      refine ⟨[.word w], by rw [Sketch.take_eq hrest]; rfl, .few (by simp) fun w' hw' => ?_⟩
      obtain rfl : w' = w := by simpa using hw'
      simp [hw]
    · exact ⟨[], hsame, .few (by simp) fun w hw => absurd hw List.not_mem_nil⟩
  · obtain ⟨items, u, hitems, hrun⟩ := run_bind_iff.1 hrun
    obtain ⟨_, u', hwant, hrun⟩ := run_bind_iff.1 hrun
    obtain ⟨rfl, rfl⟩ := run_pure_iff.1 hrun
    exact readsItems_separated hitems hwant

/-- What is put for a list of arguments, and how they are read. -/
theorem exists_readsItems (words : List Word) {args : Arguments} (hk : s.onLine = some .lParen)
    (hrun : argumentList.run (runRule script fuel) fuel s = some (args, t)) :
    ∃ (paren : Word) (ps : List (Piece Draft)) (u : Sketch), paren.kind = .lParen ∧
      t = { u with parts := .node (.node .argList (.word paren :: ps)) :: s.parts } ∧
      ReadsItems words fuel s.fresh.take u args.items ps ∧ s.fresh.take.Reveals (Nested words) u ∧
      u.taken = s.fresh.take.taken + (wordsOfAll ps).length := by
  rw [argumentList_eq] at hrun
  obtain ⟨u, hu, rfl⟩ := run_within_iff.1 hrun
  rw [here, run_ask_bind] at hu
  obtain ⟨_, first, hfirst, hu⟩ := run_bind_iff.1 hu
  obtain rfl : first = s.fresh.take := run_act_iff.1 hfirst
  obtain ⟨items, u', hitems, hu⟩ := run_bind_iff.1 hu
  rw [behind, run_ask_bind] at hu
  obtain ⟨rfl, rfl⟩ := run_pure_iff.1 hu
  obtain ⟨ps, hparts, hreads⟩ := readsItems hitems
  obtain ⟨paren, ws, hrest, hparen⟩ := rest_of_onLine hk
  have htake : s.fresh.take.parts = [.word paren] :=
    congrArg Sketch.parts (Sketch.take_eq (s := s.fresh) hrest)
  have hall : u.parts.reverse = .word paren :: ps := by simp [hparts, htake]
  have hcount := taken_of_run hitems
  rw [hall, htake] at hcount
  refine ⟨paren, ps, u, hparen, by rw [← hall]; rfl, hreads,
    lineal_listItems.reveals tells_nested hitems, ?_⟩
  simp only [List.reverse_singleton, wordsOfAll, List.length_cons, List.length_nil] at hcount
  omega

end Grammar

end CRBasic
