import CRBasic.Proofs.Embedding.Arguments
import CRBasic.Proofs.Grammar.WalkStatement

/-!
# Blocks in a larger text

Blocks are alike in a text and in a larger one, if statements are (`alike_blockRules`).  A block that
the text does not end goes on in the larger text, and a word that ends a block of the larger text is
no statement in it; both are lost.
-/

namespace CRBasic

namespace Draft

/-- A one-line `If` without a statement between `Then` and `Else`. -/
structure IsBare (d : Draft) : Prop where
  shape : ∃ parts, d = .node .ifStmt parts ∧ .node (.node .stmtList []) ∈ parts ∧
    ∀ w, .word w ∈ parts → w.kind ≠ .kwEndIf

end Draft

namespace Grammar

open Parsing Parsing.Script

/-- What is lost shows the blocks that the text does not end, and the one-line `If`s whose `Else` would
end a branch around the text. -/
structure LosingBlocks (c : Setting) (Lost : Sketch → Prop) : Prop extends Losing c Lost where
  unclosed {s : Sketch} {r : Report} (hpost : c.post ≠ []) (hr : r ∈ s.reports)
    (hcause : r.cause.isUnclosed) : Lost s
  bare {s : Sketch} {d : Draft} (hends : c.ends .kwElse) (hd : .node d ∈ s.parts) (hbare : d.IsBare) :
    Lost s

section Rules

variable {c : Setting} {total : Nat} {Lost : Sketch → Prop} {fuel : Nat} {α β : Type} {st : Stage}
  {m m' m'' : Mode} {l b : Bool} {k : TokenKind} {s t u : Sketch}

/-- What is alike among statements is alike inside a node. -/
theorem alike_of_outer {x : Script α} (h : Alike c total Lost fuel .outer m x m') :
    Alike c total Lost fuel .inner m x m' := by
  intro before s a t _ hrun
  obtain ⟨hgone, hholds⟩ := h before s a t nofun hrun
  refine ⟨hgone, fun hs => ?_⟩
  exact (hholds { hs with measured := nofun }).imp_right fun ⟨ht, h⟩ =>
    ⟨ht, { h with measured := nofun }⟩

/-! ### Words that end blocks -/

theorem ne_error_of_closes (h : k.closes) : k ≠ .error := by
  rintro rfl
  cases h

theorem statementOf_of_closes (h : k.closes) : statementOf k = unexpectedWord k := by
  cases k <;> first | rfl | cases h

/-- A word that ends a block is no statement. -/
theorem statement_reports (hk : s.current = some k) (hcloses : k.closes)
    (hrun : statement.run (runRule script fuel) fuel s = some ((), t)) : t.reports ≠ #[] := by
  cases fuel with
  | zero => cases run_call_iff.1 hrun
  | succ fuel =>
    have hrun := run_of_runRule (run_call_iff.1 hrun)
    change (listen >>= fun _ => _).run _ _ s = _ at hrun
    obtain ⟨_, u, hu, hrun⟩ := run_bind_iff.1 hrun
    obtain rfl := run_act_iff.1 hu
    rw [tooDeep, run_ask_bind] at hrun
    split at hrun
    · exact Sketch.reports_ne_nil rfl hrun
    · have hsome : Machine.answer (Machine.perform s .listen) Query.current = some k := hk
      rw [current, run_ask_bind, hsome] at hrun
      dsimp only at hrun
      rw [statementOf_of_closes hcloses, unexpectedWord,
        if_neg (by simpa using ne_error_of_closes hcloses)] at hrun
      exact Sketch.reports_ne_nil rfl hrun

/-- A statement at a word that ends a block of the larger text is lost. -/
theorem Losing.statement (hlost : Losing c Lost) (hends : s.current.any c.ends)
    (hrun : statement.run (runRule script fuel) fuel s = some ((), t)) : Lost t := by
  obtain ⟨k, hk, hends⟩ := (Option.any_eq_true _ _).1 hends
  exact hlost.report (Setting.frames_ne_nil_of_ends hends)
    (statement_reports hk (Setting.closes_of_ends hends) hrun)

/-- Where statements end in the larger text only, there is a word that ends a block of it. -/
theorem ends_of_embed {before : List (Piece Draft)} (h : ¬ AtEnd s) (hembed : AtEnd (c.embed before s)) :
    s.current.any c.ends := by
  obtain ⟨k, hk, hstop⟩ := exists_onLine h
  rw [AtEnd, Setting.onLine_embed, hk, Setting.atStop_embed (Reading.ne_nil_of_onLine hk), hstop] at hembed
  simpa using hembed

/-! ### Bodies -/

/-- Whether a statement of a block is next. -/
def continuesBody : Script Bool := do return (← current).isSome && !(← atStop)

theorem run_continuesBody {call : Rule → Sketch → Option Sketch} (s : Sketch) :
    continuesBody.run call fuel s = some (s.current.isSome && !s.atStop, s) := rfl

variable (hlost : LosingBlocks c Lost)
include hlost

/-- The statements of a block, up to a word that ends them. -/
theorem alike_body (hstatement : ∀ k, Alike c total Lost fuel .outer (.word true false k) statement
      (.live true false)) :
    Alike c total Lost fuel .outer (.live true b) (whileM continuesBody statement) .body := by
  intro before s v t hbefore hrun
  refine ⟨fun hs => .inl (hlost.kept hrun (hs.lost Mode.live_ne_body)), fun hs => ?_⟩
  obtain ⟨us, hus⟩ := run_whileM_iff.1 hrun
  have hloop := rounds_induction run_continuesBody (P := fun n s t =>
    (Lost s → Lost t) ∧ (Holds c total .outer (.live true false) s →
      Gone c Lost .body t ∨ ((∃ us, repeatStep ((round continuesBody statement).run
        (runRule script fuel) fuel) n (c.embed before s) = some (us, c.embed before t)) ∧
          Holds c total .outer .body t))) ?_ ?_ hus
  · refine (hloop.2 (hs.weaken (.live id Bool.noConfusion))).imp_right fun h => ⟨?_, h.2⟩
    exact run_whileM_iff.2 h.1
  · intro n s hstop
    refine ⟨id, fun hs => ?_⟩
    have hbody : Holds c total .outer .body s := hs.weaken .body
    by_cases hrest : s.rest = []
    · by_cases hpost : c.post = []
      · refine .inr ⟨⟨[], ?_⟩, hbody⟩
        have hnone : (c.embed before s).current = none := by
          rw [Reading.current_eq_none]
          exact List.append_eq_nil_iff.2 ⟨hrest, hpost⟩
        rw [repeatStep, run_round_of_false]
        rw [run_continuesBody, hnone]
        rfl
      · exact .inl (.inr ⟨rfl, hrest, hs.loud rfl, hpost⟩)
    · refine .inr ⟨⟨[], ?_⟩, hbody⟩
      rw [repeatStep, run_round_of_false]
      rw [run_continuesBody, Setting.current_embed hrest, Setting.atStop_embed hrest]
      have hsome : s.current ≠ none := (not_congr Reading.current_eq_none).2 hrest
      have hstop : s.atStop = true := by simpa [Option.isSome_iff_ne_none.2 hsome] using hstop
      rw [hstop, Bool.true_or, Bool.not_true, Bool.and_false]
  · rintro n s u us t hgo hsu - ⟨hkept, hholds⟩
    rw [Bool.and_eq_true] at hgo
    refine ⟨hkept ∘ hlost.kept hsu, fun hs => ?_⟩
    obtain ⟨k, hk⟩ := Option.isSome_iff_exists.1 hgo.1
    cases hends : s.current.any c.ends with
    | true => exact .inl (.inl (hkept (hlost.statement hends hsu)))
    | false =>
      have hword : Holds c total .outer (.word true false k) s := { hs with sees := hk }
      rcases (hstatement k before s () u (by simp) hsu).2 hword with h | ⟨hu, h⟩
      · exact .inl (.inl (hkept (h.lost Mode.live_ne_body)))
      · rcases hholds h with h | ⟨⟨us, hus⟩, h⟩
        · exact .inl h
        refine .inr ⟨⟨() :: us, ?_⟩, h⟩
        rw [repeatStep, run_round_of_true _ hu]
        · dsimp only
          rw [hus]
        · rw [run_continuesBody, Setting.current_embed (Reading.ne_nil_of_current hk),
            Setting.atStop_embed (Reading.ne_nil_of_current hk), hends, Bool.or_false, hgo.1, hgo.2]
          rfl

theorem alike_blockBody (hstatement : ∀ k, Alike c total Lost fuel .outer (.word true false k)
      statement (.live true false)) {stops : List TokenKind} (hstops : ∀ k ∈ stops, k.closes) :
    Alike c total Lost fuel .inner (.live true b) (blockBody stops) .body :=
  alike_node hlost.toLosing (alike_stopAt hlost.toLosing hstops rfl
    (alike_nested hlost.toLosing (alike_of_outer (alike_body hlost hstatement))))

/-- At most one statement on a line. -/
theorem alike_inlineBody (hstatement : ∀ k, Alike c total Lost fuel .outer (.word true false k)
      statement (.live true false)) {stops : List TokenKind} (hstops : ∀ k ∈ stops, k.closes) :
    Alike c total Lost fuel .inner (.live true b) (inlineBody stops) (.live true false) := by
  refine alike_node hlost.toLosing (alike_stopAt hlost.toLosing hstops rfl
    (alike_nested hlost.toLosing (alike_of_outer ?_)))
  intro before s v t hbefore hrun
  refine ⟨fun hs => .inl (hlost.kept hrun (hs.lost nofun)), fun hs => ?_⟩
  by_cases hend : AtEnd s
  · rw [run_statementEnds_of_atEnd hend] at hrun
    rw [run_statementEnds_of_atEnd (hend.embed before)]
    obtain ⟨rfl, rfl⟩ := run_pure_iff.1 hrun
    exact .inr ⟨rfl, hs.weaken (.live id nofun)⟩
  · rw [run_statementEnds_of_not hend] at hrun
    by_cases hembed : AtEnd (c.embed before s)
    · exact .inl (.inl (hlost.statement (ends_of_embed hend hembed) hrun))
    · rw [run_statementEnds_of_not hembed]
      obtain ⟨k, hk, -⟩ := exists_onLine hend
      refine (hstatement k before s v t hbefore hrun).2 { hs with sees := ?_, blamed := nofun }
      exact Reading.current_of_onLine hk

/-! ### Ends of bodies -/

theorem alike_current_body {f : Option TokenKind → Script α}
    (hnone : Alike c total Lost fuel st .body (f none) m)
    (hsome : ∀ k, Alike c total Lost fuel st (.word true false k) (f (some k)) m) :
    Alike c total Lost fuel st .body (current >>= f) m := by
  intro before s a t hbefore hrun
  have hgone (h : Gone c Lost .body s) : Gone c Lost m t := by
    rcases h with h | h
    · exact .inl (hlost.kept hrun h)
    · rw [current, run_ask_bind, answer_current, Reading.current_eq_none.2 h.2.1] at hrun
      exact (hnone before s a t hbefore hrun).1 (.inr h)
  refine ⟨hgone, fun hs => ?_⟩
  rw [current, run_ask_bind, answer_current] at hrun
  cases hk : s.current with
  | some k =>
    rw [hk] at hrun
    have hword : Holds c total st (.word true false k) s :=
      { hs with sees := hk, blamed := Bool.noConfusion }
    refine ((hsome k before s a t hbefore hrun).2 hword).imp_right fun h => ⟨?_, h.2⟩
    rw [current, run_ask_bind, answer_current, Setting.current_embed (Reading.ne_nil_of_current hk), hk]
    exact h.1
  | none =>
    have hrest := Reading.current_eq_none.1 hk
    by_cases hpost : c.post = []
    · rw [hk] at hrun
      refine ((hnone before s a t hbefore hrun).2 hs).imp_right fun h => ⟨?_, h.2⟩
      have hembed : (c.embed before s).current = none :=
        Reading.current_eq_none.2 (List.append_eq_nil_iff.2 ⟨hrest, hpost⟩)
      rw [current, run_ask_bind, answer_current, hembed]
      exact h.1
    · exact .inl (hgone (.inr ⟨rfl, hrest, hs.loud rfl, hpost⟩))

omit hlost in
theorem run_terminator_of_eq {call : Rule → Sketch → Option Sketch} {kind opener : TokenKind}
    (h : s.current = some kind) : (terminator kind opener).run call fuel s = some (true, s.take) := by
  rw [terminator, current, run_ask_bind, answer_current, h, if_pos (beq_self_eq_true _)]
  rfl

omit hlost in
theorem run_terminator_of_ne {call : Rule → Sketch → Option Sketch} {kind opener : TokenKind}
    (h : s.current ≠ some kind) : (terminator kind opener).run call fuel s =
      some (false, s.perform (.report .word (.unclosedBlock kind opener))) := by
  rw [terminator, current, run_ask_bind, answer_current, if_neg (by simpa using h)]
  rfl

/-- The missing end of a block is lost where more words follow. -/
theorem LosingBlocks.unclosed_report {kind opener : TokenKind} (hpost : c.post ≠ [])
    (hloud : s.silenced = false) :
    Lost (s.perform (.report .word (.unclosedBlock kind opener))) := by
  have hmem : ⟨.unclosedBlock kind opener, (s.edges .word).1, (s.edges .word).2⟩ ∈
      (s.toReading.report .word (.unclosedBlock kind opener)).reports := by
    rw [Reading.report, hloud]
    exact Array.mem_push_self
  exact hlost.unclosed hpost hmem rfl

omit hlost in
theorem placed_word {kind opener : TokenKind} (hcount : s.taken + s.rest.length = total) :
    (⟨.unclosedBlock kind opener, (s.edges .word).1, (s.edges .word).2⟩ : Report).Placed total := by
  by_cases hrest : s.rest = []
  · rw [hrest] at hcount
    exact .inr ⟨rfl, congrArg _ hcount, congrArg (fun n => Edge.endOf (n + 1)) hcount⟩
  · exact .inl (edges_inside hcount (.inr ⟨rfl, hrest⟩))

theorem alike_terminator (kind opener : TokenKind) :
    Alike c total Lost fuel .inner .body (terminator kind opener) (.live true false) := by
  intro before s a t _ hrun
  by_cases hk : s.current = some kind
  · refine ⟨fun hs => ?_, fun hs => .inr ?_⟩
    · rcases hs with hs | ⟨-, hrest, -⟩
      · exact .inl (hlost.kept hrun hs)
      · exact absurd hrest (Reading.ne_nil_of_current hk)
    · obtain ⟨w, ws, hrest, -⟩ := Reading.exists_rest hk
      rw [run_terminator_of_eq hk] at hrun
      cases hrun
      rw [run_terminator_of_eq ((Setting.current_embed (Reading.ne_nil_of_current hk)).trans hk),
        Setting.take_embed (Reading.ne_nil_of_current hk)]
      exact ⟨rfl, hs.take hrest (hs.loud rfl) trivial nofun⟩
  · have ht : (a, t) = (false, s.perform (.report .word (.unclosedBlock kind opener))) := by
      rw [run_terminator_of_ne hk] at hrun
      exact (Option.some.inj hrun).symm
    refine ⟨fun hs => ?_, fun hs => ?_⟩
    · rcases hs with hs | ⟨-, -, hloud, hpost⟩
      · exact .inl (hlost.kept hrun hs)
      · cases ht
        exact .inl (hlost.unclosed_report hpost hloud)
    · cases ht
      by_cases hpost : c.post = []
      · by_cases hframes : c.frames = []
        · refine .inr ⟨?_, hs.report hframes (placed_word hs.count) ⟨rfl, rfl⟩ trivial⟩
          have hembed : (c.embed before s).current ≠ some kind := by
            change ((s.rest ++ c.post).head?.map (·.kind)) ≠ some kind
            rwa [hpost, List.append_nil]
          rw [run_terminator_of_ne hembed]
          exact congrArg (fun t => some (false, t)) (Setting.report_embed trivial)
        · exact .inl (.inl (hs.lost_report hlost.toLosing hframes))
      · exact .inl (.inl (hlost.unclosed_report hpost (hs.loud rfl)))

theorem alike_unlessAtStop {cause : Cause} {x y : Script α} (hcause : cause.isRoutine)
    (hx : Alike c total Lost fuel st (.word true false k) x m)
    (hy : Alike c total Lost fuel st (.word true true k) y m) :
    Alike c total Lost fuel st (.word true false k)
      (do if ← atStop then x else report .word cause >>= fun _ => y) m := by
  intro before s a t hbefore hrun
  refine ⟨fun hs => .inl (hlost.kept hrun (hs.lost nofun)), fun hs => ?_⟩
  have hrest := Reading.ne_nil_of_current hs.sees
  have hreport : Alike c total Lost fuel st (.word true false k)
      (report .word cause >>= fun _ => y) m :=
    alike_bind ((alike_lines hlost.toLosing).report_word hcause) fun _ => hy
  rw [atStop, run_ask_bind] at hrun ⊢
  change (if s.atStop then x else _).run _ _ s = _ at hrun
  change _ ∨ ((if (c.embed before s).atStop then x else _).run _ _ _ = _ ∧ _)
  rw [Setting.atStop_embed hrest]
  cases hstop : s.atStop with
  | true =>
    rw [hstop] at hrun
    exact (hx before s a t hbefore hrun).2 hs
  | false =>
    rw [hstop] at hrun
    cases hends : s.current.any c.ends with
    | false => exact (hreport before s a t hbefore hrun).2 hs
    | true =>
      obtain ⟨k', -, hends⟩ := (Option.any_eq_true _ _).1 hends
      obtain ⟨_, u, hu, hrun⟩ := run_bind_iff.1 hrun
      obtain rfl := run_act_iff.1 hu
      have hframes := Setting.frames_ne_nil_of_ends hends
      exact .inl (.inl (hlost.kept hrun (hs.lost_report hlost.toLosing hframes)))

/-- What goes over several lines is alike, if statements are. -/
theorem alike_blockRules (hstatement : ∀ {s b k}, Alike c total Lost fuel .outer (.word s b k) statement
      (.live true false)) : BlockRules fun st m x m' => Alike c total Lost fuel st m x m' where
  toLineRules := alike_lines hlost.toLosing
  statement := hstatement
  blockBody := alike_blockBody hlost fun _ => hstatement
  current_body := alike_current_body hlost
  terminator := alike_terminator hlost
  unlessAtStop := alike_unlessAtStop hlost
  scanArguments := alike_scanArguments hlost.toLosing
  tableArguments := alike_tableArguments hlost.toLosing
  closingVariable := alike_closingVariable hlost.toLosing

end Rules

end Grammar

end CRBasic
