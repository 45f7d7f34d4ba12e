import CRBasic.Proofs.Roles.References

/-!
# The parts of a conditional

Where no problem is found, an `If` has its condition, `Then` and one statement list behind it, and has
`EndIf` just if that list is not on the line of `Then` (`conditional_of_fills`).
-/

namespace CRBasic

open Parsing

namespace Draft

/-- What stands behind the `Then` of an `If` in a text without a problem.  The first body has words if it
has any parts, and its first word starts a line just if `EndIf` follows. -/
inductive Branched : List (Piece Draft) → Prop where
  | intro {body : Draft} {more : List (Piece Draft)} (hbody : body.kind = .stmtList)
    (hempty : body.words = [] → body.pieces = [])
    (hline : ∀ w ∈ body.words.head?, w.startsLine = (ownWords more).any (·.kind == .kwEndIf)) :
    Branched (.node body :: more)

/-- The parts of an `If` in a text without a problem. -/
inductive Conditional : List (Piece Draft) → Prop where
  | intro {opener word : Word} {condition : Draft} {branches : List (Piece Draft)}
    (hopener : opener.kind = .kwIf) (hword : word.kind = .kwThen) (hcondition : condition.kind ≠ .stmtList)
    (hbranches : Branched branches) :
    Conditional (.word opener :: .node condition :: .word word :: branches)

end Draft

namespace Grammar

open Script Draft

variable {words : List Word} {fuel n : Nat} {s t u : Sketch} {v : Unit} {stops : List TokenKind} {body : Draft}
  {b started : Bool} {ps : List (Piece Draft)}

/-! ### Bodies -/

/-- One statement list has been put, which has words if it has any parts. -/
structure PutsBody (s t : Sketch) (body : Draft) : Prop where
  parts : t.parts = .node body :: s.parts
  words : s.rest = body.words ++ t.rest
  kind : body.kind = .stmtList
  empty : body.words = [] → body.pieces = []

/-- The first word of a body starts a line if there is no word on the line before the body. -/
theorem PutsBody.startsLine_eq (h : PutsBody s t body) {w : Word} (hw : w ∈ body.words.head?) :
    w.startsLine = s.onLine.isNone := by
  obtain ⟨ws, hws⟩ := List.head?_eq_some_iff.1 hw
  rw [Reading.onLine, h.words, hws, List.cons_append]
  cases hline : w.startsLine <;> simp [hline]

/-- Statements that take a word, if they put anything, are put as one body. -/
theorem exists_putsBody {x : Script Unit}
    (hx : ∀ s t : Sketch, x.run (runRule script fuel) fuel s = some (v, t) →
      t = s ∨ t.rest.length < s.rest.length)
    (hrun : (node .stmtList (within (.stopAt stops) (within .nested x))).run (runRule script fuel) fuel
      s = some (v, t)) : ∃ u body, x.run (runRule script fuel) fuel (inBody stops s) = some (v, u) ∧
        PutsBody s t body ∧ (u = inBody stops s → body.words = []) := by
  obtain ⟨t₁, h₁, hend⟩ := run_within_iff.1 hrun
  obtain ⟨t₂, h₂, rfl⟩ := run_within_iff.1 h₁
  obtain ⟨u, hu, rfl⟩ := run_within_iff.1 h₂
  have hparts : t.parts = .node (.node .stmtList u.parts.reverse) :: s.parts := by
    rw [hend]
    rfl
  have hrest : t.rest = u.rest := by
    rw [hend]
    rfl
  have hwords : s.rest = wordsOfAll [.node (.node .stmtList u.parts.reverse)] ++ t.rest :=
    words_of_run hrun hparts
  rw [wordsOfAll, wordsOfAll, List.append_nil] at hwords
  refine ⟨u, .node .stmtList u.parts.reverse, hu, ⟨hparts, hwords, rfl, fun hempty => ?_⟩, ?_⟩
  · rcases hx _ _ hu with rfl | hlt
    · rfl
    · have hlt : u.rest.length < s.rest.length := hlt
      rw [hwords, hempty, hrest] at hlt
      exact absurd hlt (Nat.lt_irrefl _)
  · rintro rfl
    rfl

theorem eq_or_length_lt_of_inline (s t : Sketch)
    (hrun : (do unless ← statementEnds do statement).run (runRule script fuel) fuel s = some (v, t)) :
    t = s ∨ t.rest.length < s.rest.length := by
  by_cases hend : AtEnd s
  · rw [run_statementEnds_of_atEnd hend] at hrun
    exact .inl (run_pure_iff.1 hrun).2
  · rw [run_statementEnds_of_not hend] at hrun
    obtain ⟨k, hk, -⟩ := exists_onLine hend
    exact .inr (length_lt_of_statement (Reading.ne_nil_of_onLine hk) hrun)

theorem eq_or_length_lt_of_statements (s t : Sketch)
    (hrun : (whileM continuesBody statement).run (runRule script fuel) fuel s = some (v, t)) :
    t = s ∨ t.rest.length < s.rest.length := by
  obtain ⟨us, hus⟩ := run_whileM_iff.1 hrun
  refine rounds_induction run_continuesBody (P := fun _ (s t : Sketch) =>
    t = s ∨ t.rest.length < s.rest.length) ?_ ?_ hus
  · exact fun _ _ _ => .inl rfl
  · intro _ s u _ t hgo hsu hut _
    obtain ⟨k, hk⟩ := Option.isSome_iff_exists.1 (Bool.and_eq_true _ _ ▸ hgo).1
    have hlt := length_lt_of_statement (Reading.ne_nil_of_current hk) hsu
    exact .inr (Nat.lt_of_le_of_lt (Sketch.goesOn_of_rounds hut).rest.length_le hlt)

/-- At most one statement on a line. -/
theorem exists_inlineBody (hrun : (inlineBody stops).run (runRule script fuel) fuel s = some (v, t)) :
    ∃ body, PutsBody s t body := by
  obtain ⟨-, body, -, hbody, -⟩ := exists_putsBody eq_or_length_lt_of_inline hrun
  exact ⟨body, hbody⟩

/-- Statements up to a word that ends them, which may be the first word. -/
theorem exists_blockBody (hrun : (blockBody stops).run (runRule script fuel) fuel s = some (v, t)) :
    ∃ body, PutsBody s t body ∧ (s.atStop → body.words = []) := by
  obtain ⟨u, body, hu, hbody, hempty⟩ := exists_putsBody eq_or_length_lt_of_statements hrun
  refine ⟨body, hbody, fun hstop => hempty (statements_of_atStop ?_ hu)⟩
  obtain ⟨k, hk, h⟩ := (Option.any_eq_true _ _).1 hstop
  have hisStop : (inBody stops s).isStop k = (stops.contains k || s.isStop k) := rfl
  exact (Option.any_eq_true _ _).2 ⟨k, hk, by rw [hisStop, h, Bool.or_true]⟩

/-! ### Both forms of an `If` -/

/-- What an `If` on one line puts behind `Then`. -/
theorem branched_of_oneLine (hend : ¬ AtEnd s)
    (hrun : oneLineBranches.run (runRule script fuel) fuel s = some (v, u)) :
    ∃ qs, u.parts = qs.reverse ++ s.parts ∧ Branched qs := by
  obtain ⟨_, t, ht, hrun⟩ := run_bind_iff.1 hrun
  obtain ⟨body, hbody⟩ := exists_inlineBody ht
  have hmore : ∃ more, u.parts = more.reverse ++ t.parts ∧ ownWords more = [] := by
    rw [onLine, run_ask_bind] at hrun
    split at hrun
    · obtain ⟨parts, hparts⟩ := Sketch.parts_node hrun
      exact ⟨[.node (.node .elseClause parts)], hparts, rfl⟩
    · obtain ⟨-, rfl⟩ := run_pure_iff.1 hrun
      exact ⟨[], rfl, rfl⟩
  obtain ⟨more, hparts, hwords⟩ := hmore
  obtain ⟨k, hk, -⟩ := exists_onLine hend
  refine ⟨.node body :: more, ?_, .intro hbody.kind hbody.empty fun w hw => ?_⟩
  · rw [hparts, hbody.parts]
    simp
  · rw [hbody.startsLine_eq hw, hk, hwords]
    rfl

/-- Where an `If` block should end and no problem is found, `EndIf` is put. -/
theorem parts_blockEnd (hloud : s.silenced = false) (hreports : u.reports = #[])
    (hrun : (blockEnd .kwEndIf .kwIf).run (runRule script fuel) fuel s = some (v, u)) :
    ∃ qs, u.parts = qs.reverse ++ s.parts ∧ (ownWords qs).any (·.kind == .kwEndIf) := by
  obtain ⟨c, t, ht, hrun⟩ := run_bind_iff.1 hrun
  by_cases hk : s.current = some .kwEndIf
  · rw [run_terminator_of_eq hk] at ht
    cases ht
    obtain ⟨w, ws, hrest, hw⟩ := Reading.exists_rest hk
    obtain ⟨errors, herrors, -⟩ := parts_lineEnd hrun
    refine ⟨.word w :: errors.reverse, ?_, ?_⟩
    · rw [herrors, Sketch.take_eq hrest]
      simp
    · exact List.any_eq_true.2 ⟨w, List.mem_cons_self, beq_iff_eq.2 hw⟩
  · rw [run_terminator_of_ne hk] at ht
    cases ht
    rw [(run_pure_iff.1 hrun).2] at hreports
    have hreports : (s.toReading.report .word (.unclosedBlock .kwEndIf .kwIf)).reports = #[] := hreports
    rw [Reading.report_word hloud] at hreports
    exact absurd hreports Array.push_ne_empty

/-- What an `If` block puts behind `Then`, if no problem is found. -/
theorem branched_of_block {l : Bool} (hs : Heard words.length .inner (.live l b) s)
    (hreports : u.reports = #[]) (hfit : ¬ HasError u.parts)
    (hrun : blockBranches.run (runRule script fuel) fuel s = some (v, u)) :
    ∃ qs, u.parts = qs.reverse ++ s.parts ∧ Branched qs := by
  have hrules : BlockRules fun st m x m' => Hears fuel words.length st m x m' := hears.toBlockRules
  rw [blockBranches_eq] at hrun
  obtain ⟨_, t₁, h₁, hrun⟩ := run_bind_iff.1 hrun
  obtain ⟨_, t₂, h₂, hmore⟩ := run_bind_iff.1 hrun
  obtain ⟨_, t₃, h₃, hend⟩ := run_bind_iff.1 hmore
  have hheard₁ := Heard.of_run hrules.lineEnd h₁ hs
  have hheard₂ := Heard.of_run (hrules.blockBody closes_branchStops) h₂ hheard₁
  have hheard₃ := Heard.of_run hears_laterBranches h₃ hheard₂
  -- Nothing is left of the line of `Then`.
  obtain ⟨errors, herrors, honly⟩ := parts_lineEnd h₁
  have hparts₁ : t₁.parts = s.parts := by
    have hnone : ¬ HasError t₁.parts := fun h => hfit (Sketch.hasError_of_run hrun h)
    rw [herrors] at hnone ⊢
    rw [honly.eq_nil hnone]
    rfl
  obtain ⟨body, hbody, hempty⟩ := exists_blockBody h₂
  obtain ⟨cs, hcs, -⟩ :=
    builds_laterBranches (K := .ifStmt) (statements fuel words.length) t₂ _ t₃ h₃ hheard₂
  obtain ⟨qs, hqs, hclosed⟩ := parts_blockEnd (hheard₃.loud rfl) hreports hend
  refine ⟨.node body :: (cs ++ qs), ?_, .intro hbody.kind hbody.empty fun w hw => ?_⟩
  · rw [hqs, hcs.parts, hbody.parts, hparts₁]
    simp
  · have hwords : body.words ≠ [] := by
      rintro hnil
      rw [hnil] at hw
      cases hw
    have hline : t₁.onLine = none := (atEnd_of_lineEnd h₁).resolve_right fun h => hwords (hempty h)
    rw [hbody.startsLine_eq hw, hline, ownWords_append, List.any_append, hclosed, Bool.or_true]
    rfl

/-- What the script of an `If` puts, if no problem is found. -/
theorem conditional_of_fills (h : Fills words [] n .outer (.word started b .kwIf) ifParts ps)
    (hfit : ¬ HasError ps) : Conditional ps := by
  obtain ⟨hs, -, -, hrun, hreports⟩ := h
  rename_i fuel s u
  have hreports : u.reports = #[] := Array.toList_eq_nil_iff.1 (List.prefix_nil.1 hreports)
  rw [ifParts, ← LawfulMonad.bind_assoc] at hrun
  obtain ⟨_, t, ht, hbranches⟩ := run_bind_iff.1 hrun
  obtain ⟨⟨_, hhead⟩, hheard⟩ := exists_headed hs ht
  -- The first word, the condition and `Then`.
  obtain ⟨_, r, hr, hcondition⟩ := run_bind_iff.1 ht
  obtain ⟨opener, ws, hrest, hopener⟩ := Reading.exists_rest hs.sees
  have htake : r = { s.fresh with rest := ws, taken := s.taken + 1, parts := [.word opener] } := by
    rw [run_act_iff.1 hr]
    exact Sketch.take_eq (s := s.fresh) hrest
  have hranked : r.Ranked := by
    rw [htake]
    exact ⟨hs.loud rfl, by simp⟩
  have hclean : t.reports = #[] := (Sketch.goesOn_of_run hbranches).reports_eq_nil hreports
  obtain ⟨condition, word, hword, hparts⟩ := condition_puts hranked hcondition hclean
  have hkind : condition.kind ≠ .stmtList := by
    refine hhead.noBody condition ?_
    rw [hparts]
    simp
  -- The two forms.
  have hnone : ¬ HasError u.parts := by
    rintro ⟨d, hd, h⟩
    exact hfit ⟨d, List.mem_reverse.2 hd, h⟩
  have hforms : ∃ qs, u.parts = qs.reverse ++ t.parts ∧ Branched qs := by
    rcases run_ifBranches_cases hbranches with ⟨hend, hbranches⟩ | hbranches
    · exact branched_of_oneLine hend hbranches
    · exact branched_of_block hheard hreports hnone hbranches
  obtain ⟨qs, hqs, hbranched⟩ := hforms
  have hall : u.parts.reverse = .word opener :: .node condition :: .word word :: qs := by
    rw [hqs, hparts, htake]
    simp
  rw [hall]
  exact .intro hopener hword hkind hbranched

/-- An `If` of a text without a problem. -/
theorem Arises.exists_conditional {d : Draft} (h : Arises words [] n d) (hkind : d.kind = .ifStmt)
    (hfit : ¬ HasError d.pieces) : Conditional d.pieces := by
  cases h with
  | loop => cases hkind
  | conditional h => exact conditional_of_fills h hfit
  | scan hscan => rcases hscan with rfl | rfl <;> cases hkind
  | operation _ _ hop _ =>
    rw [hkind] at hop
    cases hop
  | number => cases hkind
  | other h =>
    rw [hkind] at h
    rcases h with h | h <;> cases h

end Grammar

end CRBasic
