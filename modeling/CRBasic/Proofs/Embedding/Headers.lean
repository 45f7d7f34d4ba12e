import CRBasic.Proofs.Embedding.Bodies
import CRBasic.Proofs.Grammar.Forms

/-!
# Lines that open blocks

A line that opens a block is read as it is before the end of the block, whatever lines follow it
(`BlockForm.exists_opens`).  So a block goes on with the body that is put into it
(`BlockForm.Opens.readsAs`).
-/

namespace CRBasic

open Parsing Parsing.Script Grammar

/-- The setting of a text that has lines after it, and nothing before it. -/
def Parsing.Setting.ahead (post : List Word) (hpost : ∀ w ∈ post.head?, w.startsLine) : Setting :=
  .beside 0 #[] post hpost

namespace Parsing.Script

variable {script : Rule → Script Unit} {α : Type} {x : Script α} {s t : Sketch} {a b : α}

theorem Yields.of_pure (h : Yields script (pure a) s b t) : b = a ∧ t = s := by
  obtain ⟨fuel, hrun⟩ := h
  exact run_pure_iff.1 hrun

theorem Yields.of_act {action : Action} (h : Yields script (.act action .done) s () t) :
    t = s.perform action := by
  obtain ⟨fuel, hrun⟩ := h
  exact run_act_iff.1 hrun

theorem Yields.of_node {kind : NodeKind}
    (h : Yields script (node kind x) s a t) : ∃ u, Yields script x { s with parts := [] } a u ∧
      t = { u with parts := .node (.node kind u.parts.reverse) :: s.parts } := by
  obtain ⟨fuel, hrun⟩ := h
  obtain ⟨u, hu, rfl⟩ := run_within_iff.1 hrun
  exact ⟨u, ⟨fuel, hu⟩, rfl⟩

theorem Yields.goesOn (h : Yields script x s a t) : s.toReading.GoesOn t.toReading := by
  obtain ⟨fuel, hrun⟩ := h
  exact Sketch.goesOn_of_run hrun

end Parsing.Script

namespace Grammar

variable {s t : Sketch} {k : TokenKind}

/-- A statement runs as the script for its first word. -/
theorem yields_statement_iff (hk : s.current = some k) (hdeep : s.tooDeep = false)
    (hs : s.silenced = false) :
    Yields script statement s () t ↔ Yields script (statementOf k) s () t := by
  have hlisten : s.perform .listen = s := by
    change { s with silenced := false } = s
    rw [← hs]
  have hrule {fuel : Nat} {call : Rule → Sketch → Option Sketch} :
      statementRule.run call fuel s = (statementOf k).run call fuel s := by
    rw [statementRule, Script.listen, run_act_bind]
    change (tooDeep >>= fun deep => if deep then _ else _).run call fuel (s.perform .listen) = _
    rw [hlisten, tooDeep, run_ask_bind, answer_tooDeep, hdeep, if_neg Bool.false_ne_true, current,
      run_ask_bind, answer_current, hk]
  constructor
  · rintro ⟨_ | fuel, hrun⟩
    · cases run_call_iff.1 hrun
    · have hrun := run_of_runRule (run_call_iff.1 hrun)
      exact ⟨fuel, hrule.symm.trans hrun⟩
  · rintro ⟨fuel, hrun⟩
    exact Yields.call ⟨fuel, hrule.trans hrun⟩

/-- The statements of a text start with a first one. -/
theorem exists_statement (h : Yields script allStatements s () t) (hrest : s.rest ≠ []) :
    ∃ u, Yields script statement s () u ∧ u.toReading.GoesOn t.toReading := by
  obtain ⟨fuel, hrun⟩ := h
  have hrun : (whileM continuesText statement).run (runRule script fuel) fuel s = some ((), t) := hrun
  obtain ⟨us, hus⟩ := run_whileM_iff.1 hrun
  refine rounds_induction run_continuesText (P := fun _ s t => s.rest ≠ [] →
    ∃ u, Yields script statement s () u ∧ u.toReading.GoesOn t.toReading) ?_ ?_ hus hrest
  · intro n s hstop hrest
    exact absurd (Reading.current_eq_none.1 (by simpa using hstop)) hrest
  · intro n s u us t _ hsu hut _ _
    exact ⟨u, ⟨fuel, hsu⟩, Sketch.goesOn_of_rounds hut⟩

theorem yields_lineEnd_of_none (h : s.onLine = none) :
    Yields script lineEnd s () { s with silenced := false } := by
  refine ⟨0, ?_⟩
  rw [lineEnd, run_statementEnds_of_atEnd (.inl h)]
  rfl

/-- A text of one statement is read as its node. -/
theorem readsAs_statement {options : ParseOptions} {words : List Word} {kind : NodeKind}
    {x : Script Unit} (hk : words.head?.map (·.kind) = some k) (hdeep : 0 < options.maxDepth)
    (hstatement : statementOf k = node kind x)
    (h : Yields script x (Sketch.amid options 0 words []) () t) (hrest : t.rest = []) :
    ReadsAs options words [.node (.node kind t.parts.reverse)] t.reports.toList := by
  have hwords : words ≠ [] := by
    rintro rfl
    cases hk
  have hcurrent : (Sketch.amid options 0 words []).current = some k := hk
  have htooDeep : (Sketch.amid options 0 words []).tooDeep = false := by
    rw [Reading.tooDeep, decide_eq_false_iff_not]
    exact Nat.not_le.2 hdeep
  have hnode : Yields script (statementOf k) (Sketch.amid options 0 words []) ()
      { t with parts := [.node (.node kind t.parts.reverse)] } := by
    rw [hstatement]
    change Yields script (within (.node kind) x) (Sketch.amid options 0 words []) ()
      (Machine.leave t [] (.node kind))
    exact Yields.within h
  refine ⟨{ t with parts := [.node (.node kind t.parts.reverse)] }, ?_, hrest, rfl, rfl⟩
  refine yields_whileM_cons (yields_continuesText hwords)
    ((yields_statement_iff hcurrent htooDeep rfl).2 hnode) (yields_whileM_nil ⟨0, ?_⟩)
  have hnone : t.current = none := Reading.current_eq_none.2 hrest
  rw [current, run_ask_bind, answer_current, hnone]
  rfl

end Grammar

namespace BlockForm

variable {form : BlockForm} {options : ParseOptions} {s t : Sketch} {w : Word} {ws words : List Word}
  {name? : Option (List Char)} {parts before : List (Piece Draft)}

/-! ### Ends of blocks -/

theorem yields_closing (form : BlockForm) (name? : Option (List Char)) (h : s.onLine = none) :
    Yields script (form.closing name?) s () s := by
  cases form with
  | forLoop =>
    rw [closing, closingVariable, onLine, yields_ask, answer_onLine, h]
    exact yields_pure ()
  | doLoop =>
    rw [closing, loopCondition, onLine, yields_ask, answer_onLine, h]
    exact yields_pure ()
  | _ => exact yields_pure ()

theorem yields_ending (form : BlockForm) (options : ParseOptions) (name? : Option (List Char))
    (before : List (Piece Draft)) (hw : w.kind = form.terminator) (taken : Nat) :
    Yields script (form.ending name?) (Sketch.amid options taken [w] before) ()
      (Sketch.amid options (taken + 1) [] (.word w :: before)) := by
  have hcurrent : (Sketch.amid options taken [w] before).current = some form.terminator :=
    congrArg some hw
  refine Yields.bind ⟨0, run_terminator_of_eq hcurrent⟩ ?_
  rw [if_pos rfl]
  exact (yields_closing form name? rfl).bind (yields_lineEnd_of_none rfl)

/-! ### Lines that open blocks -/

/-- Words are read as the line that opens a block, whatever lines follow. -/
def Opens (form : BlockForm) (options : ParseOptions) (words : List Word)
    (name? : Option (List Char)) (parts : List (Piece Draft)) : Prop :=
  ∀ post : List Word, (∀ w ∈ post.head?, w.startsLine) →
    Yields script form.opening (Sketch.amid options 0 (words ++ post) []) name?
      (Sketch.amid options words.length post parts)

/-- The head of a block is alike in a text and in a larger one. -/
theorem alike_head {c : Setting} {total : Nat} {Lost : Sketch → Prop} {fuel : Nat} {b : Bool}
    (hlost : Losing c Lost) (form : BlockForm) :
    Alike c total Lost fuel .inner (.live true b) form.head (.live false b) :=
  walk_head (alike_texts hlost) (alike_scanArguments hlost) (alike_tableArguments hlost) form

/-- The line that opens the first block of a text. -/
theorem exists_opening (hkind : w.kind = form.opener) (hdeep : 0 < options.maxDepth)
    (h : Yields script allStatements (Sketch.amid options 0 (w :: ws) []) () t) :
    ∃ name? u v, Yields script form.head (Sketch.amid options 1 ws [.word w]) name? u ∧
      Yields script lineEnd u () v ∧ (t.reports = #[] → v.reports = #[]) := by
  obtain ⟨s₁, hs₁, hgoes⟩ := exists_statement h (List.cons_ne_nil w ws)
  have hcurrent : (Sketch.amid options 0 (w :: ws) []).current = some form.opener :=
    congrArg some hkind
  have htooDeep : (Sketch.amid options 0 (w :: ws) []).tooDeep = false := by
    rw [Reading.tooDeep, decide_eq_false_iff_not]
    exact Nat.not_le.2 hdeep
  rw [yields_statement_iff hcurrent htooDeep rfl, statementOf_opener] at hs₁
  obtain ⟨s₂, hs₂, rfl⟩ := hs₁.of_node
  obtain ⟨name?, v, hopening, hbody⟩ := hs₂.of_bind
  obtain ⟨_, s₃, htake, hhead⟩ := hopening.of_bind
  obtain ⟨name?', u, hhead, hline⟩ := hhead.of_bind
  obtain ⟨_, v', hline, hpure⟩ := hline.of_bind
  obtain ⟨rfl, rfl⟩ := hpure.of_pure
  obtain rfl := htake.of_act
  exact ⟨name?, u, v, hhead, hline, fun ht => hbody.goesOn.reports_eq_nil (hgoes.reports_eq_nil ht)⟩

/-- Where no problem is found, a line ends where its words do. -/
theorem atEnd_of_lineEnd (h : Yields script lineEnd s () t) (ht : t.reports = #[])
    (hs : s.silenced → AtEnd s) (herror : ∀ k, s.current = some k → k ≠ .error) : AtEnd s := by
  refine Classical.byContradiction fun hend => ?_
  obtain ⟨fuel, hrun⟩ := h
  obtain ⟨k, x, hx⟩ := exists_trailing hend herror hrun
  have hloud : s.silenced = false := Bool.eq_false_iff.2 fun hsilenced => hend (hs hsilenced)
  have hreports := (Sketch.goesOn_of_run hx).reports_eq_nil ht
  change (s.toReading.report _ _).reports = #[] at hreports
  simp [Reading.report, hloud] at hreports

/-- The head of a block is read before other lines as it is read alone. -/
theorem head_ahead {fuel : Nat} {u : Sketch} (hrun : form.head.run (runRule script fuel) fuel
      (Sketch.amid options 1 ws [.word w]) = some (name?, u))
    (post : List Word) (hpost : ∀ w ∈ post.head?, w.startsLine) :
    Yields script form.head (Sketch.amid options 1 (ws ++ post) [.word w]) name?
        ((Setting.ahead post hpost).embed [] u) ∧
      Holds (.ahead post hpost) (ws.length + 1) .inner (.live false false) u := by
  have hlost : Losing (.ahead post hpost) fun _ => False := ⟨fun _ => id, id, absurd rfl⟩
  have hs : Holds (.ahead post hpost) (ws.length + 1) .inner (.live true false)
      (Sketch.amid options 1 ws [.word w]) := by
    refine ⟨trivial, fun _ => rfl, nofun, fun _ => Nat.one_pos, nofun, nofun, Nat.add_comm _ _, ?_,
      absurd rfl, nofun⟩
    simp [Sketch.amid]
  have hstart : (Setting.ahead post hpost).embed [] (Sketch.amid options 1 ws [.word w]) =
      Sketch.amid options 1 (ws ++ post) [.word w] := by
    simp [Setting.embed, Setting.read, Setting.ahead, Setting.beside, Sketch.amid]
  have hnone : ¬ Gone (.ahead post hpost) (fun _ => False) (.live false false) u := by
    rintro (h | ⟨h, -⟩)
    · exact h
    · cases h
  obtain ⟨hrun, hu⟩ :=
    ((alike_head hlost form [] _ name? u (fun _ => rfl) hrun).2 hs).resolve_left hnone
  rw [hstart] at hrun
  exact ⟨⟨fuel, hrun⟩, hu⟩

theorem rest_eq_nil_of_atEnd (hend : AtEnd s) (hframes : s.frames = [])
    (hline : ∀ x ∈ s.rest, x.startsLine = false) : s.rest = [] := by
  cases hrest : s.rest with
  | nil => rfl
  | cons x xs =>
    have hx : x.startsLine = false := hline x (by rw [hrest]; exact List.mem_cons_self)
    rcases hend with hend | hend
    · rw [onLine_cons hrest hx] at hend
      cases hend
    · rw [Reading.atStop, Reading.current, hrest, List.head?_cons, Option.map_some, Option.any_some,
        Reading.isStop, hframes] at hend
      cases hend

/-- Where a block is read without a problem, the head is all of the line after its first word. -/
theorem exists_head {v : Word} {ps : List (Piece Draft)} (hkind : w.kind = form.opener)
    (hline : ∀ v ∈ ws, v.startsLine = false) (herror : ∀ v ∈ ws, v.kind ≠ .error)
    (hdeep : 0 < options.maxDepth) (hv : v.startsLine) (hverror : v.kind ≠ .error)
    (h : ReadsAs options (w :: ws ++ [v]) ps []) :
    ∃ name? u fuel, form.head.run (runRule script fuel) fuel
      (Sketch.amid options 1 ws [.word w]) = some (name?, u) ∧ u.rest = [] ∧ u.reports = #[] := by
  obtain ⟨_, ⟨t, ht, -⟩, -⟩ := exists_readsAs options (w :: ws)
  obtain ⟨name?, u, -, ⟨fuel, hhead⟩, -⟩ := exists_opening hkind hdeep ht
  have hgoes : (Sketch.amid options 1 ws [.word w]).toReading.GoesOn u.toReading :=
    Sketch.goesOn_of_run hhead
  -- The end of the block is on a line of its own, so the head is the same before it.
  obtain ⟨t', ht', -, -, hreports⟩ := h
  obtain ⟨name', u', v', hhead', hlineEnd, hnil⟩ := exists_opening hkind hdeep ht'
  have hv' : v'.reports = #[] := hnil (by simpa using hreports)
  obtain ⟨hembed, hu⟩ := head_ahead hhead [v] (by rintro _ ⟨⟩; exact hv)
  obtain ⟨-, rfl⟩ := hhead'.unique hembed
  have hwords : ∀ x ∈ u.rest ++ [v], x.kind ≠ .error := by
    rw [List.forall_mem_append, List.forall_mem_singleton]
    exact ⟨fun x hx => herror x (hgoes.rest.subset hx), hverror⟩
  have hend : AtEnd u := by
    refine (atEnd_embed_iff rfl).1
      (atEnd_of_lineEnd hlineEnd hv' (fun h => .embed [] (hu.settled h)) fun k hk => ?_)
    obtain ⟨x, xs, hrest, rfl⟩ := Reading.exists_rest hk
    change u.rest ++ [v] = x :: xs at hrest
    exact hwords x (by rw [hrest]; exact List.mem_cons_self)
  refine ⟨name?, u, fuel, hhead, ?_, ?_⟩
  · exact rest_eq_nil_of_atEnd hend hgoes.frames fun x hx => hline x (hgoes.rest.subset hx)
  · have hembedded := hlineEnd.goesOn.reports_eq_nil hv'
    simpa [Setting.embed, Setting.read, Setting.ahead, Setting.beside] using hembedded

/-- A line that opens a block without a problem before the end of the block opens it before any
lines. -/
theorem exists_opens {v : Word} {ps : List (Piece Draft)} (hkind : w.kind = form.opener)
    (hline : ∀ v ∈ ws, v.startsLine = false) (herror : ∀ v ∈ ws, v.kind ≠ .error)
    (hdeep : 0 < options.maxDepth) (hv : v.startsLine) (hverror : v.kind ≠ .error)
    (h : ReadsAs options (w :: ws ++ [v]) ps []) :
    ∃ name? parts, form.Opens options (w :: ws) name? parts := by
  obtain ⟨name?, u, fuel, hhead, hrest, hreports⟩ :=
    exists_head hkind hline herror hdeep hv hverror h
  have hgoes : (Sketch.amid options 1 ws [.word w]).toReading.GoesOn u.toReading :=
    Sketch.goesOn_of_run hhead
  refine ⟨name?, u.parts, fun post hpost => ?_⟩
  obtain ⟨hembed, hu⟩ := head_ahead hhead post hpost
  have honLine : ((Setting.ahead post hpost).embed [] u).onLine = none :=
    Setting.onLine_embed.trans (onLine_nil hrest)
  have htaken : u.taken = ws.length + 1 := by simpa [hrest] using hu.count
  have hafter : { (Setting.ahead post hpost).embed [] u with silenced := false } =
      Sketch.amid options (w :: ws).length post u.parts := by
    obtain ⟨⟨_, _, _, _, _, _, _, _⟩, _⟩ := u
    have := hgoes.options
    have := hgoes.frames
    have := hgoes.depth
    have := hgoes.origins
    simp_all [Setting.embed, Setting.read, Setting.ahead, Setting.beside, Sketch.amid]
  rw [← hafter]
  exact (yields_take rfl).bind (hembed.bind ((yields_lineEnd_of_none honLine).bind (yields_pure name?)))

/-- A block with a text as its body is read as one statement. -/
theorem Opens.readsAs {body : List Word} (h : form.Opens options.deeper words name? before)
    (hopener : words.head?.map (·.kind) = some form.opener) (hbody : ReadsAs options body parts [])
    (hline : ∀ v ∈ body.head?, v.startsLine) (herror : ∀ v ∈ body, v.kind ≠ .error)
    (hw : w.kind = form.terminator) (hstart : w.startsLine) :
    ReadsAs options.deeper (words ++ (body ++ [w])) [.node (.node form.kind
      (before.reverse ++ [.node (.node .stmtList parts), .word w]))] [] := by
  have hfirst : (words ++ (body ++ [w])).head?.map (·.kind) = some form.opener := by
    cases words with
    | nil => cases hopener
    | cons v vs => exact hopener
  have hlist := hbody.blockBody herror (by simpa using form.closes_terminator) words.length before
    (fun h => absurd (List.mem_singleton.1 h).symm form.terminator_ne_else) hstart
    (List.mem_singleton.2 hw) []
  have hend := form.yields_ending options.deeper name? (.node (.node .stmtList parts) :: before) hw
    (words.length + body.length)
  have hlength : words.length + body.length + 1 = (words ++ (body ++ [w])).length := by
    simp [Nat.add_assoc]
  rw [hlength] at hend
  have hblock := readsAs_statement hfirst (Nat.succ_pos _) form.statementOf_opener
    ((h _ (startsLine_of_body hline hstart)).bind (hlist.bind hend)) rfl
  simpa [Sketch.amid] using hblock

end BlockForm

end CRBasic
