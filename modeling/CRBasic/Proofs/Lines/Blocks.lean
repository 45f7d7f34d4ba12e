import CRBasic.Proofs.Blocks.Statements
import CRBasic.Proofs.Lines.Arguments

/-!
# Blocks of lines

A block goes over several lines.  What stands on one of them stays on it, and nothing else is asked of
the node of a block (`crosses_statement`).  So all nodes of a text that stand on one line do so, and all
its problems have their places within lines (`lined_of_readsAs`).
-/

namespace CRBasic

namespace Grammar

open Parsing Parsing.Script

/-- A script leads from one mode to another one, over any number of lines. -/
abbrev Crosses (words : List Word) (fuel : Nat) {α : Type} (m : Mode) (x : Script α) (m' : Mode) :
    Prop :=
  Keeps words fuel false .outer m x m'

section Rules

variable {words : List Word} {fuel : Nat} {α β : Type} {m m' m'' : Mode} {l b s : Bool}
  {k opener : TokenKind} {kind : NodeKind} {stops : List TokenKind} {x : Script α} {t u : Sketch}

/-! ### Modes across lines -/

/-- Across lines, only what modes say of the words makes a difference. -/
theorem Stands.crosses {line : Bool} {st : Stage} (h : Stands words line st m t)
    (hsees : m'.Sees t.toReading) : Stands words false .outer m' t :=
  ⟨hsees, h.tidy, absurd rfl⟩

theorem Crosses.pre {m₀ : Mode} (h : Crosses words fuel m x m') (hm : ∀ s, m₀.Sees s → m.Sees s) :
    Crosses words fuel m₀ x m' := by
  intro s a t hrun hs
  obtain ⟨ht, -⟩ := h s a t hrun (hs.crosses (hm _ hs.sees))
  exact ⟨ht, nofun⟩

/-- What may start anywhere may start at any word. -/
theorem Crosses.anywhere (h : Crosses words fuel .body x m') : Crosses words fuel m x m' :=
  h.pre fun _ _ => trivial

theorem Crosses.toBody (h : Crosses words fuel m x m') : Crosses words fuel m x .body := by
  intro s a t hrun hs
  obtain ⟨ht, -⟩ := h s a t hrun hs
  exact ⟨ht.crosses trivial, nofun⟩

theorem crosses_pure (a : α) : Crosses words fuel m (pure a) .body :=
  Crosses.toBody (keeps_pure a)

/-- What stands on one line leads across lines. -/
theorem Keeps.crosses (h : Keeps words fuel true .outer m x m') : Crosses words fuel m x m' := by
  intro s a t hrun hs
  obtain ⟨ht, -⟩ := h s a t hrun ⟨hs.sees, hs.tidy, absurd rfl⟩
  exact ⟨ht.crosses ht.sees, nofun⟩

/-- A question leads on from the modes that its answers tell. -/
theorem crosses_ask {q : Query β} {f : β → Script α} (n : β → Mode)
    (hn : ∀ s : Sketch, m.Sees s.toReading → (n (s.answer q)).Sees s.toReading)
    (h : ∀ a, Crosses words fuel (n a) (f a) m') : Crosses words fuel m (.ask q .done >>= f) m' := by
  intro s b t hrun hs
  obtain ⟨ht, -⟩ := h (s.answer q) s b t hrun (hs.crosses (hn s hs.sees))
  exact ⟨ht, nofun⟩

theorem crosses_current {f : Option TokenKind → Script α} (hnone : Crosses words fuel .body (f none) m')
    (hsome : ∀ k, Crosses words fuel (.word true false k) (f (some k)) m') :
    Crosses words fuel m (current >>= f) m' := by
  refine crosses_ask (fun o => o.elim .body (.word true false)) (fun s _ => ?_) fun o => ?_
  · change Mode.Sees (s.current.elim _ _) _
    cases h : s.current with
    | none => trivial
    | some k => exact h
  · cases o with
    | none => exact hnone
    | some k => exact hsome k

theorem crosses_onLine {f : Option TokenKind → Script α} (hnone : Crosses words fuel .body (f none) m')
    (hsome : ∀ k, Crosses words fuel (.word true false k) (f (some k)) m') :
    Crosses words fuel m (onLine >>= f) m' := by
  refine crosses_ask (fun o => o.elim .body (.word true false)) (fun s _ => ?_) fun o => ?_
  · change Mode.Sees (s.onLine.elim _ _) _
    cases h : s.onLine with
    | none => trivial
    | some k => exact Reading.current_of_onLine h
  · cases o with
    | none => exact hnone
    | some k => exact hsome k

/-- What follows a word on its line stays on it. -/
theorem crosses_takeThen {m₁ m₂ : Mode} {f : α → Script β}
    (hrest : ∀ s : Sketch, m.Sees s.toReading → s.rest ≠ []) (htake : Crosses words fuel m take m₁)
    (hx : Keeps words fuel true .inner m₁ x m₂) (hf : ∀ a, Crosses words fuel m₂ (f a) m') :
    Crosses words fuel m (take >>= fun _ => x >>= f) m' := by
  intro s a v hrun hs
  obtain ⟨_, t, ht, hrun⟩ := run_bind_iff.1 hrun
  obtain ⟨c, u, hu, hv⟩ := run_bind_iff.1 hrun
  obtain ⟨ht', -⟩ := htake s () t ht hs
  obtain ⟨w, ws, hcons⟩ := List.exists_cons_of_ne_nil (hrest s hs.sees)
  obtain rfl : t = s.take := run_act_iff.1 ht
  have hline : Stands words true .inner m₁ s.take := by
    refine ⟨ht'.sees, ht'.tidy, fun _ _ d before hparts => ?_⟩
    rw [Sketch.take_eq hcons] at hparts
    cases hparts
  obtain ⟨hu', -⟩ := hx s.take c u hu hline
  obtain ⟨hv', -⟩ := hf c u a v hv (hu'.crosses hu'.sees)
  exact ⟨hv', nofun⟩

/-- What follows the first word of a line stays on it. -/
theorem crosses_wordThen {f : α → Script β} (hx : Keeps words fuel true .inner (.live true b) x m)
    (hf : ∀ a, Crosses words fuel m (f a) m') :
    Crosses words fuel (.word s b k) (take >>= fun _ => x >>= f) m' :=
  crosses_takeThen (fun _ => Reading.ne_nil_of_current) keeps_steps.take_word hx hf

/-- The node of a block. -/
theorem crosses_node (hkind : kind.isLine = false) (h : Crosses words fuel m x m') :
    Crosses words fuel m (node kind x) m' := by
  intro s a t hrun hs
  obtain ⟨u, hu, rfl⟩ := run_within_iff.1 hrun
  obtain ⟨hu, -⟩ := h s.fresh a u hu ⟨hs.sees, hs.tidy.fresh, absurd rfl⟩
  have hlined : (Draft.node kind u.parts.reverse).Lined :=
    Draft.lined_iff.2 ⟨fun hline => absurd hline (Bool.eq_false_iff.1 hkind),
      fun e he => hu.tidy.parts e (List.mem_reverse.1 he)⟩
  refine ⟨⟨hu.sees, ⟨hu.tidy.rest_eq, hu.tidy.taken_le, fun e he => ?_, hu.tidy.reports⟩, absurd rfl⟩,
    nofun⟩
  rcases List.mem_cons.1 he with he | he
  · cases he
    exact hlined
  · exact hs.tidy.parts e he

/-- The node of a branch. -/
theorem crosses_clause (hkind : kind.isLine = false) (h : Crosses words fuel m x .body) (a : β) :
    Crosses words fuel m (do let _ ← node kind x; return a) .body :=
  keeps_bind (crosses_node hkind h) fun _ => crosses_pure a

theorem crosses_report {cause : Cause} (hcause : cause.isRoutine) :
    Crosses words fuel .body (report .word cause) .body :=
  keeps_report hcause (.inr rfl) ⟨rfl, rfl⟩ fun _ _ _ _ => trivial

theorem crosses_lineEnd : Crosses words fuel m lineEnd .body := by
  have hline : Crosses words fuel (.live true true) lineEnd (.live true true) :=
    Keeps.crosses keeps_lines.lineEnd
  exact hline.toBody.pre fun _ _ => trivial

/-! ### Ends of blocks -/

theorem crosses_terminatorThen {f : Bool → Script α} {name : TokenKind}
    (hfound : Keeps words fuel true .inner (.live true false) (f true) m)
    (hmissing : Crosses words fuel .body (f false) .body) :
    Crosses words fuel .body (terminator name opener >>= f) .body := by
  rw [terminator, LawfulMonad.bind_assoc]
  have hreport : Crosses words fuel .body
      (report .word (.unclosedBlock name opener) >>= fun _ => f false) .body :=
    keeps_bind (crosses_report rfl) fun _ => hmissing
  refine crosses_current hreport fun k => ?_
  split
  · change Crosses words fuel _ (take >>= fun _ => f true) _
    rw [← bind_pure (f true)]
    exact crosses_wordThen hfound fun _ => crosses_pure _
  · exact hreport.anywhere

theorem crosses_blockEnd (name opener : TokenKind) :
    Crosses words fuel .body (blockEnd name opener) .body :=
  crosses_terminatorThen keeps_lines.lineEnd (crosses_pure ())

theorem crosses_ending (form : BlockForm) (name? : Option (List Char)) :
    Crosses words fuel .body (form.ending name?) .body := by
  have hlines : LineRules fun st m x m' => Keeps words fuel true st m x m' := keeps_lines
  have hclosing : Keeps words fuel true .inner (.live true false) (form.closing name?)
      (.live false false) := by
    have hnone : Keeps words fuel true .inner (.live true false) (pure ()) (.live false false) :=
      hlines.post .quiet (hlines.pure ())
    cases form with
    | forLoop => exact keeps_closingVariable name?
    | doLoop => exact walk_loopCondition hlines
    | _ => exact hnone
  exact crosses_terminatorThen (keeps_bind hclosing fun _ => hlines.lineEnd) (crosses_pure ())

/-! ### Lines that open blocks -/

/-- The head of a block stays on its line. -/
theorem keeps_head (form : BlockForm) :
    Keeps words fuel true .inner (.live true b) form.head (.live false b) :=
  BlockForm.walk_head keeps_texts keeps_scanArguments keeps_tableArguments form

end Rules

/-! ### Bodies -/

/-- Calls of statements lead across lines. -/
def CrossesStatements (words : List Word) (fuel : Nat) : Prop :=
  ∀ {s b : Bool} {k : TokenKind}, Crosses words fuel (.word s b k) statement .body

section Calls

variable {words : List Word} {fuel : Nat} {m : Mode} {l b s : Bool} {k opener : TokenKind}
  {kind : NodeKind} {stops : List TokenKind} {x : Script Unit}
  (hcalls : CrossesStatements words fuel)
include hcalls

theorem crosses_blockBody : Crosses words fuel m (blockBody stops) .body := by
  have hround : Crosses words fuel .body (round continuesBody statement) .body := by
    simp only [Script.round, continuesBody, LawfulMonad.bind_assoc, pure_bind]
    refine crosses_current (keeps_askAny fun _ => crosses_pure none) fun k => ?_
    refine keeps_askAny fun stop => ?_
    split
    · exact keeps_bind hcalls fun _ => crosses_pure _
    · exact crosses_pure none
  have hloop : Crosses words fuel .body (whileM continuesBody statement) .body :=
    keeps_bind (keeps_collect hround) fun _ => crosses_pure ()
  exact (crosses_node rfl (keeps_stopAt (keeps_nested hloop))).anywhere

theorem crosses_inlineBody : Crosses words fuel m (inlineBody stops) .body := by
  have hstatement : Crosses words fuel m (do unless ← statementEnds do statement) .body := by
    rw [statementEnds, LawfulMonad.bind_assoc]
    refine crosses_onLine (crosses_pure ()) fun k => keeps_askAny fun stop => ?_
    cases stop with
    | true => exact crosses_pure ()
    | false => exact hcalls
  exact crosses_node rfl (keeps_stopAt (keeps_nested hstatement))

theorem crosses_lineThenBody : Crosses words fuel m (do lineEnd; blockBody stops) .body :=
  keeps_bind crosses_lineEnd fun _ => crosses_blockBody hcalls

/-! ### Blocks -/

theorem crosses_form (form : BlockForm) :
    Crosses words fuel (.word s b form.opener) (statementOf form.opener) .body := by
  have hkind : form.kind.isLine = false := by cases form <;> rfl
  rw [form.statementOf_opener]
  refine crosses_node hkind ?_
  rw [BlockForm.opening, LawfulMonad.bind_assoc]
  simp only [LawfulMonad.bind_assoc, pure_bind]
  refine crosses_wordThen (keeps_head form) fun name? => ?_
  exact keeps_bind crosses_lineEnd fun _ => keeps_bind (crosses_blockBody hcalls) fun _ =>
    crosses_ending form name?

/-- The branches of a block after its first one. -/
theorem crosses_moreBranches {item : Script (Option Unit)}
    (hitem : Crosses words fuel .body item .body) (hkind : kind.isLine = false) :
    Crosses words fuel .body (moreBranches item k kind stops) .body := by
  refine keeps_bind (keeps_collect hitem) fun _ => crosses_current (crosses_pure ()) fun k' => ?_
  split
  · refine crosses_node hkind ?_
    exact keeps_bind keeps_steps.take_word fun _ => (crosses_lineThenBody hcalls).anywhere
  · exact crosses_pure ()

theorem crosses_elseIfBranch : Crosses words fuel .body elseIfBranch .body := by
  have hcondition {l b : Bool} : Keeps words fuel true .inner (.live l b) condition (.live false b) :=
    walk_condition keeps_lines
  refine crosses_current (crosses_pure none) fun k => ?_
  split
  · exact crosses_clause rfl (crosses_wordThen hcondition fun _ => crosses_lineThenBody hcalls) _
  · refine keeps_steps.second_word (crosses_pure none) fun k' => ?_
    split
    · have hline : Keeps words fuel true .inner (.seeing true false k') (do take; condition)
          (.live false false) :=
        keeps_bind (keeps_steps.take_seeing (.inl rfl)) fun _ => hcondition
      have hbranch : Crosses words fuel (.pair k k') (take >>= fun _ =>
          (do take; condition : Script Unit) >>= fun _ =>
            (do lineEnd; blockBody branchStops : Script Unit)) .body :=
        crosses_takeThen (fun _ hs => Reading.ne_nil_of_current hs.1) keeps_steps.take_pair hline
          fun _ => crosses_lineThenBody hcalls
      simp only [LawfulMonad.bind_assoc] at hbranch
      simp only [conditionalBranch]
      exact crosses_clause rfl hbranch _
    · exact crosses_pure none
  · exact crosses_pure none

theorem crosses_directiveElseIf : Crosses words fuel .body directiveElseIf .body := by
  refine crosses_current (crosses_pure none) fun k => ?_
  split
  · exact crosses_clause rfl (crosses_wordThen (walk_directiveCondition keeps_lines) fun _ =>
      crosses_lineThenBody hcalls) _
  · exact crosses_pure none

theorem crosses_caseOrSkipped : Crosses words fuel .body caseOrSkipped .body := by
  refine crosses_current (crosses_pure none) fun k => ?_
  split
  · exact crosses_pure none
  · exact crosses_pure none
  · exact crosses_clause rfl (crosses_wordThen (walk_caseSelector keeps_lines) fun _ =>
      crosses_lineThenBody hcalls) _
  · refine keeps_askAny fun stop => ?_
    split
    · exact crosses_pure none
    · have hskip : Crosses words fuel (.word true true k) skipWords (.live true true) :=
        Keeps.crosses (walk_skipWords keeps_lines)
      refine keeps_bind (keeps_steps.report_word rfl) fun _ => ?_
      exact keeps_bind hskip fun _ => crosses_pure _

theorem crosses_selectStatement :
    Crosses words fuel (.word s b .kwSelect) selectStatement .body := by
  have hlines : LineRules fun st m x m' => Keeps words fuel true st m x m' := keeps_lines
  have hsubject : Keeps words fuel true .inner (.live true b) (do want .kwCase; expression)
      (.live false b) :=
    hlines.bind (walk_want hlines (.inl rfl)) fun _ => hlines.expression 0
  have hselect : Crosses words fuel (.word s b .kwSelect) (take >>= fun _ =>
      (do want .kwCase; expression : Script Unit) >>= fun _ => (do
        lineEnd
        let _ ← collect caseOrSkipped
        blockEnd .kwEndSelect .kwSelect : Script Unit)) .body :=
    crosses_wordThen hsubject fun _ => keeps_bind crosses_lineEnd fun _ =>
      keeps_bind (keeps_collect (crosses_caseOrSkipped hcalls)) fun _ => crosses_blockEnd _ _
  simp only [LawfulMonad.bind_assoc] at hselect
  exact crosses_node rfl hselect

theorem crosses_directiveBranches :
    Crosses words fuel m (directiveBranches opener) .body := by
  rw [directiveBranches_eq]
  refine keeps_bind crosses_lineEnd fun _ => keeps_bind (crosses_blockBody hcalls) fun _ => ?_
  exact keeps_bind (crosses_moreBranches hcalls (crosses_directiveElseIf hcalls) rfl) fun _ =>
    crosses_blockEnd _ _

theorem crosses_blockBranches : Crosses words fuel m blockBranches .body := by
  rw [blockBranches_eq]
  refine keeps_bind crosses_lineEnd fun _ => keeps_bind (crosses_blockBody hcalls) fun _ => ?_
  exact keeps_bind (crosses_moreBranches hcalls (crosses_elseIfBranch hcalls) rfl) fun _ =>
    crosses_blockEnd _ _

theorem crosses_oneLineBranches : Crosses words fuel m oneLineBranches .body := by
  refine keeps_bind (crosses_inlineBody hcalls) fun _ => crosses_onLine (crosses_pure ()) fun k => ?_
  split
  · refine crosses_node rfl ?_
    exact keeps_bind keeps_steps.take_word fun _ => crosses_inlineBody hcalls
  · exact crosses_pure ()

theorem crosses_ifStatement : Crosses words fuel (.word s b .kwIf) ifStatement .body := by
  refine crosses_node rfl (crosses_wordThen (walk_condition keeps_lines) fun _ => ?_)
  refine keeps_askAny fun allowed => keeps_bind keeps_statementEnds fun ends => ?_
  split
  · exact crosses_oneLineBranches hcalls
  · exact crosses_blockBranches hcalls

/-! ### All statements -/

theorem crosses_statementOf (k : TokenKind) : Crosses words fuel (.word s b k) (statementOf k) .body := by
  have hlines : LineRules fun st m x m' => Keeps words fuel true st m x m' := keeps_lines
  have hline {k : TokenKind} {x : Script Unit}
      (h : Keeps words fuel true .outer (.word s b k) x (.live true false)) :
      Crosses words fuel (.word s b k) x .body := h.crosses.toBody
  unfold statementOf
  split
  · exact crosses_form hcalls .program
  · exact crosses_form hcalls .function
  · exact crosses_form hcalls .subroutine
  · exact crosses_ifStatement hcalls
  · exact crosses_form hcalls .forLoop
  · exact crosses_form hcalls .whileLoop
  · exact crosses_form hcalls .doLoop
  · exact crosses_selectStatement hcalls
  · exact crosses_form hcalls .scan
  · exact crosses_form hcalls .subScan
  · exact crosses_form hcalls .slowSequence
  · exact crosses_form hcalls .displayMenu
  · exact crosses_form hcalls .subMenu
  · exact hline (walk_menuItem hlines)
  · exact crosses_form hcalls .dataTable
  · exact hline (walk_callTable hlines)
  · exact hline (walk_variableDeclaration hlines)
  · exact hline (walk_variableDeclaration hlines)
  · exact hline (walk_constantDeclaration hlines)
  · exact crosses_form hcalls .constantTable
  · exact hline (walk_aliasDeclaration hlines)
  · exact hline (walk_unitsDeclaration hlines)
  · exact hline (walk_returnStatement hlines)
  · exact hline (walk_exitStatement hlines)
  · exact hline (walk_callStatement hlines)
  · exact crosses_node rfl (crosses_wordThen (walk_directiveCondition hlines) fun _ =>
      crosses_directiveBranches hcalls)
  · exact crosses_node rfl (crosses_wordThen (walk_namedIdentifier hlines) fun _ =>
      crosses_directiveBranches hcalls)
  · exact hline (walk_directiveUndefine hlines)
  · exact hline (walk_inclusion hlines)
  · refine keeps_askAny fun assigns => ?_
    split
    · exact hline (walk_assignmentStatement hlines)
    · exact hline (walk_instruction hlines)
  · exact hline (walk_unexpectedWord hlines)

theorem crosses_statementRule : Crosses words fuel (.word s b k) statementRule .body := by
  refine keeps_bind keeps_steps.listen_word fun _ => keeps_askAny fun deep => ?_
  split
  · exact (Keeps.crosses (walk_skipDeepStatement keeps_lines)).toBody
  · exact keeps_steps.current_word (crosses_statementOf hcalls k)

end Calls

theorem crosses_statement (words : List Word) (fuel : Nat) : CrossesStatements words fuel := by
  induction fuel with
  | zero => exact keeps_callOfNone
  | succ fuel ih => exact keeps_call (crosses_statementRule ih)

theorem crosses_allStatements (words : List Word) (fuel : Nat) :
    Crosses words fuel .body allStatements .body := by
  have hround : Crosses words fuel .body (round continuesText statement) .body := by
    simp only [Script.round, continuesText, LawfulMonad.bind_assoc, pure_bind]
    refine crosses_current (crosses_pure none) fun k => ?_
    exact keeps_bind (crosses_statement words fuel) fun _ => crosses_pure _
  exact keeps_bind (keeps_collect hround) fun _ => crosses_pure ()

end Grammar

open Parsing Grammar

section Texts

variable {options : ParseOptions} {words : List Word} {parts : List (Piece Draft)} {reports : List Report}
  (h : ReadsAs options words parts reports)
include h

/-- What a text is read as is what a tidy sketch holds. -/
theorem tidy_of_readsAs :
    ∃ t : Sketch, t.Tidy words ∧ t.parts.reverse = parts ∧ t.reports.toList = reports := by
  obtain ⟨t, ⟨fuel, hrun⟩, -, hparts, hreports⟩ := h
  have hinitial : (Sketch.initial options words).Tidy words :=
    ⟨rfl, Nat.zero_le _, fun _ hd => absurd hd List.not_mem_nil, fun _ hr => absurd hr (Array.not_mem_empty _)⟩
  obtain ⟨ht, -⟩ :=
    crosses_allStatements words fuel _ () t hrun ⟨trivial, hinitial, absurd rfl⟩
  exact ⟨t, ht.tidy, hparts, hreports⟩

/-- In what a text is read as, the nodes that stand on one line do so, and the problems have their
places within lines. -/
theorem lined_of_readsAs : (∀ d, .node d ∈ parts → d.Lined) ∧
    ∀ r ∈ reports, r.cause.kind = .grammatical ∧ r.OneLine words := by
  obtain ⟨t, ht, rfl, rfl⟩ := tidy_of_readsAs h
  refine ⟨fun d hd => ht.parts d (List.mem_reverse.1 hd), fun r hr => ?_⟩
  obtain ⟨hkind, hline, -⟩ := ht.reports r (Array.mem_toList_iff.1 hr)
  exact ⟨hkind, hline⟩

/-- No name that a comma or a closing parenthesis follows is reported as the units of a scan. -/
theorem unnamed_of_readsAs {r : Report} (hr : r ∈ reports) : r.Unnamed words := by
  obtain ⟨t, ht, -, rfl⟩ := tidy_of_readsAs h
  exact (ht.reports r (Array.mem_toList_iff.1 hr)).2.2

end Texts

end CRBasic
