import CRBasic.Proofs.Blocks.Laid
import CRBasic.Proofs.Parsing.Putting
import CRBasic.Proofs.Parsing.Text

/-!
# Rules for what is laid down

What a script lays down is built up from what its steps lay down (`lays_bind` and so on).  A word is
taken only where its kind is known, and what comes after a report is part of no text without a problem.
-/

namespace CRBasic

namespace Grammar

open Parsing Parsing.Script Draft

/-- The kind of the next word, if any is given. -/
def Knows (o : Option TokenKind) (s : Reading) : Prop := ∀ k ∈ o, s.current = some k

/-- Nothing is said of a result and the parts that come with it. -/
abbrev Free {α : Type} : α → List (Piece Draft) → Prop := fun _ _ => True

/-- Where the next word is as given, every run of a script lays down some parts.  If it finds no problem,
its result and the parts are as told. -/
def Lays (fuel : Nat) (K : NodeKind) (blamed : Bool) {α : Type} (o : Option TokenKind) (x : Script α)
    (Q : α → List (Piece Draft) → Prop) : Prop :=
  ∀ (s : Sketch) (a : α) (t : Sketch), x.run (runRule script fuel) fuel s = some (a, t) →
    Knows o s.toReading → ∃ ps, Laid K blamed s t ps ∧
      (blamed = false → Clean s.toReading t.toReading → Q a ps)

variable {fuel : Nat} {K kind : NodeKind} {blamed : Bool} {α β : Type} {o : Option TokenKind}
  {x : Script α} {f : α → Script β} {P Q : α → List (Piece Draft) → Prop}
  {R : β → List (Piece Draft) → Prop} {s t u : Sketch} {a : α} {ps : List (Piece Draft)}

theorem knows_none (s : Reading) : Knows none s := nofun

theorem knows_onLine (s : Reading) : Knows s.onLine s := fun _ => Reading.current_of_onLine

theorem Knows.report {s : Reading} {place : Place} {cause : Cause} (h : Knows o s) :
    Knows o (s.report place cause) := by
  rw [Reading.report_eq]
  exact h

/-! ### One step after the other -/

theorem lays_pure (h : Q a []) : Lays fuel K blamed o (pure a) Q := by
  intro s b t hrun _
  obtain ⟨rfl, rfl⟩ := run_pure_iff.1 hrun
  exact ⟨[], .refl _, fun _ _ => h⟩

theorem Lays.mono (h : Lays fuel K blamed o x P) (hPQ : ∀ a ps, P a ps → Q a ps) :
    Lays fuel K blamed o x Q := by
  intro s a t hrun ho
  obtain ⟨ps, hlaid, hP⟩ := h s a t hrun ho
  exact ⟨ps, hlaid, fun hblamed hclean => hPQ a ps (hP hblamed hclean)⟩

theorem Lays.free (h : Lays fuel K blamed o x P) : Lays fuel K blamed o x Free :=
  h.mono fun _ _ _ => trivial

theorem Lays.forget (h : Lays fuel K blamed none x Q) : Lays fuel K blamed o x Q :=
  fun s a t hrun _ => h s a t hrun (knows_none _)

theorem lays_bind (hx : Lays fuel K blamed o x P)
    (hf : ∀ a, Lays fuel K blamed none (f a) fun b qs => ∀ ps, P a ps → R b (ps ++ qs)) :
    Lays fuel K blamed o (x >>= f) R := by
  intro s b u hrun ho
  obtain ⟨a, t, ht, hu⟩ := run_bind_iff.1 hrun
  obtain ⟨ps, hps, hP⟩ := hx s a t ht ho
  obtain ⟨qs, hqs, hR⟩ := hf a t b u hu (knows_none _)
  refine ⟨ps ++ qs, hps.trans hqs, fun hblamed hclean => ?_⟩
  exact hR hblamed (hps.second hqs.goes hblamed hclean) ps (hP hblamed (hclean.first hqs.goes))

/-- Steps of which no more is asked than that they lay down parts. -/
theorem lays_seq (hx : Lays fuel K blamed o x P) (hf : ∀ a, Lays fuel K blamed none (f a) Free) :
    Lays fuel K blamed o (x >>= f) Free :=
  lays_bind hx.free fun a => (hf a).mono fun _ _ _ _ _ => trivial

/-! ### Questions -/

theorem lays_ask {q : Query α} (h : ∀ a, Lays fuel K blamed o (f a) R) :
    Lays fuel K blamed o (Script.ask q .done >>= f) R :=
  fun s b t hrun ho => h _ s b t hrun ho

theorem lays_onLine {f : Option TokenKind → Script β} (h : ∀ o, Lays fuel K blamed o (f o) R) :
    Lays fuel K blamed o (onLine >>= f) R :=
  fun s b t hrun _ => h s.onLine s b t hrun (knows_onLine _)

theorem lays_current {k : TokenKind} {f : Option TokenKind → Script β}
    (h : Lays fuel K blamed (some k) (f (some k)) R) :
    Lays fuel K blamed (some k) (current >>= f) R := by
  intro s b t hrun ho
  rw [current, run_ask_bind, answer_current, ho k rfl] at hrun
  exact h s b t hrun ho

/-- A branch on the kind of the next word on the line. -/
theorem lays_ifOnLine {k : TokenKind} {x y : Script α} (hx : Lays fuel K blamed (some k) x Q)
    (hy : Lays fuel K blamed none y Q) :
    Lays fuel K blamed o (do if (← onLine) == some k then x else y) Q := by
  refine lays_onLine fun o => ?_
  split
  · next ho =>
    obtain rfl : o = some k := by simpa using ho
    exact hx
  · exact hy.forget

/-! ### Changes -/

/-- A word that ends no block. -/
theorem lays_take {k : TokenKind} (hk : k.isTerminator = false) :
    Lays fuel K blamed (some k) take fun _ ps => ∃ w, ps = [.word w] ∧ w.kind = k := by
  intro s _ t hrun ho
  have hgoes := Sketch.goesOn_of_run (x := take) hrun
  obtain ⟨w, ws, hrest, rfl⟩ := Reading.exists_rest (ho k rfl)
  obtain rfl : t = s.take := run_act_iff.1 hrun
  rw [Sketch.take_eq hrest] at hgoes ⊢
  refine ⟨[.word w], ⟨hgoes, rfl, hrest, ?_, nofun, ?_, ?_⟩, fun _ _ => ⟨w, rfl, rfl⟩⟩
  · intro v hv
    obtain rfl : v = w := by simpa using hv
    exact hk
  · exact ⟨[], (List.append_nil _).symm, marks_nil _ _, rfl⟩
  · exact fun _ hclean => ⟨hclean.heard, nofun⟩

theorem lays_listen : Lays fuel K blamed o listen Free := by
  intro s _ t hrun _
  have hgoes := Sketch.goesOn_of_run (x := listen) hrun
  obtain rfl : t = { s with silenced := false } := run_act_iff.1 hrun
  refine ⟨[], ⟨hgoes, rfl, rfl, nofun, nofun, ?_, fun _ _ => ⟨rfl, nofun⟩⟩, fun _ _ => trivial⟩
  exact ⟨[], (List.append_nil _).symm, marks_nil _ _, rfl⟩

theorem unclosed_report {place : Place} {cause : Cause} (hcause : cause.isUnclosed = false) :
    (s.perform (.report place cause)).unclosed = s.unclosed := by
  change (s.toReading.report place cause).unclosed = _
  rw [Reading.report]
  split
  · rfl
  · simp [Reading.unclosed, hcause]

/-- What comes after a problem, and the problem. -/
theorem laid_report {place : Place} {cause : Cause} (hcause : cause.isUnclosed = false)
    (h : Laid K true (s.perform (.report place cause)) t ps) : Laid K blamed s t ps := by
  have hgoes : s.toReading.GoesOn (s.toReading.report place cause) := (Reading.GoesOn.refl _).report _ _
  have hrest := s.toReading.rest_report place cause
  have htaken := s.toReading.taken_report place cause
  have hinBranch : (s.toReading.report place cause).inBranch = s.inBranch := by
    rw [Reading.report_eq]
    rfl
  obtain ⟨rs, hrs, hmarks, hcauses⟩ := h.unclosed
  refine ⟨hgoes.trans h.goes, h.parts, hrest ▸ h.words, h.bare, h.placed, ⟨rs, ?_, ?_, ?_⟩, ?_⟩
  · rw [hrs, unclosed_report hcause]
  · exact htaken ▸ hmarks
  · exact hinBranch ▸ hcauses
  · intro _ hclean
    have hnil : (s.toReading.report place cause).reports = #[] :=
      h.goes.reports_eq_nil hclean.reports
    simp [Reading.report, hclean.heard] at hnil

theorem lays_report_bind {place : Place} {cause : Cause} {f : Unit → Script β}
    (hcause : cause.isUnclosed = false) (h : Lays fuel K true o (f ()) Free) :
    Lays fuel K blamed o (report place cause >>= f) R := by
  intro s b t hrun ho
  obtain ⟨ps, hps, -⟩ := h (s.perform (.report place cause)) b t hrun ho.report
  refine ⟨ps, laid_report hcause hps, fun _ hclean => ?_⟩
  exact absurd hclean.reports (Sketch.reports_ne_nil hclean.heard hrun)

theorem lays_report {place : Place} {cause : Cause} (hcause : cause.isUnclosed = false)
    {Q : Unit → List (Piece Draft) → Prop} : Lays fuel K blamed o (report place cause) Q := by
  have h : Lays fuel K blamed o (report place cause >>= pure) Q :=
    lays_report_bind hcause (lays_pure trivial)
  rwa [bind_pure] at h

/-! ### Stretches -/

theorem lays_node {x : Script α} (hends : kind.ends? = none) (hlist : kind ≠ .stmtList)
    (h : Lays fuel kind blamed o x Q) (hfits : ∀ a ps, Q a ps → kind.Fits ps) :
    Lays fuel K blamed o (node kind x) Free := by
  intro s a t hrun ho
  obtain ⟨u, hu, rfl⟩ := run_within_iff.1 hrun
  obtain ⟨ps, hps, hQ⟩ := h s.fresh a u hu ho
  have hfits (hblamed : blamed = false) (hclean : Clean s.toReading u.toReading) : kind.Fits ps :=
    hfits a ps (hQ hblamed ⟨hclean.heard, hclean.reports, hclean.words⟩)
  exact ⟨_, hps.node hends hlist hfits, fun _ _ => trivial⟩

/-- A stretch that is no node and no body of a block. -/
theorem lays_within {scope : Scope}
    (hbegin : ∀ s : Sketch, (Machine.begin s scope).2.parts = s.parts ∧
      (Machine.begin s scope).2.inBranch = s.inBranch ∧
      (Machine.begin s scope).2.rest = s.rest ∧ (Machine.begin s scope).2.taken = s.taken ∧
      (Machine.begin s scope).2.silenced = s.silenced ∧
      (Machine.begin s scope).2.reports = s.reports)
    (hleave : ∀ (t : Sketch) mark, (Machine.leave t mark scope).parts = t.parts)
    (h : Lays fuel K blamed o x Q) : Lays fuel K blamed o (within scope x) Q := by
  intro s a t hrun ho
  have hgoes := Sketch.goesOn_of_run hrun
  obtain ⟨u, hu, rfl⟩ := run_within_iff.1 hrun
  obtain ⟨hparts, hbranch, hrest, htaken, hsilenced, hreports⟩ := hbegin s
  obtain ⟨hrest', htaken', hsilenced', hreports'⟩ := leave_same u (Machine.begin s scope).1 scope
  have ho : Knows o (Machine.begin s scope).2.toReading := by
    intro k hk
    rw [Reading.current, hrest]
    exact ho k hk
  obtain ⟨ps, hps, hQ⟩ := h _ a u hu ho
  refine ⟨ps, hps.transfer hgoes hrest.symm hparts.symm htaken.symm hreports.symm hsilenced.symm
    hbranch.symm hrest' (hleave u _) htaken' hreports' hsilenced', fun hblamed hclean => ?_⟩
  refine hQ hblamed ⟨hsilenced.trans hclean.heard, hreports'.symm.trans hclean.reports, ?_⟩
  rw [hrest]
  exact hclean.words

theorem lays_nested (h : Lays fuel K blamed o x Q) : Lays fuel K blamed o (within .nested x) Q :=
  lays_within (fun _ => ⟨rfl, rfl, rfl, rfl, rfl, rfl⟩) (fun _ _ => rfl) h

theorem lays_measured (h : Lays fuel K blamed o x Q) : Lays fuel K blamed o (within .measured x) Q :=
  lays_within (fun _ => ⟨rfl, rfl, rfl, rfl, rfl, rfl⟩) (fun _ _ => rfl) h

theorem lays_collect {item : Script (Option β)} (h : Lays fuel K blamed none item Free) :
    Lays fuel K blamed o (collect item) Free := by
  intro s bs t hrun _
  rw [run_collect_iff] at hrun
  suffices hlaid : ∃ ps, Laid K blamed s t ps by
    obtain ⟨ps, hps⟩ := hlaid
    exact ⟨ps, hps, fun _ _ => trivial⟩
  refine repeatStep_induction (P := fun _ s _ t => ∃ ps, Laid K blamed s t ps) ?_ ?_ hrun
  · intro _ s t hst
    obtain ⟨ps, hps, -⟩ := h s none t hst (knows_none _)
    exact ⟨ps, hps⟩
  · rintro _ s b u _ t hsu _ ⟨qs, hqs⟩
    obtain ⟨ps, hps, -⟩ := h s (some b) u hsu (knows_none _)
    exact ⟨ps ++ qs, hps.trans hqs⟩

/-! ### What is skipped -/

/-- A script that takes words only. -/
def Skips (fuel : Nat) {α : Type} (x : Script α) : Prop :=
  ∀ (s : Sketch) (a : α) (t : Sketch), x.run (runRule script fuel) fuel s = some (a, t) →
    (∃ ws : List Word, t.parts = (ws.map .word).reverse ++ s.parts) ∧ t.reports = s.reports

theorem skips_pure (a : α) : Skips fuel (pure a : Script α) := by
  intro s b t hrun
  obtain ⟨-, rfl⟩ := run_pure_iff.1 hrun
  exact ⟨⟨[], rfl⟩, rfl⟩

theorem skips_bind (hx : Skips fuel x) (hf : ∀ a, Skips fuel (f a)) : Skips fuel (x >>= f) := by
  intro s b u hrun
  obtain ⟨a, t, ht, hu⟩ := run_bind_iff.1 hrun
  obtain ⟨⟨ws, hws⟩, hreports⟩ := hx s a t ht
  obtain ⟨⟨vs, hvs⟩, hreports'⟩ := hf a t b u hu
  exact ⟨⟨ws ++ vs, by rw [hvs, hws]; simp⟩, hreports'.trans hreports⟩

theorem skips_ask {q : Query α} (h : ∀ a, Skips fuel (f a)) :
    Skips fuel (Script.ask q .done >>= f) :=
  fun s b t hrun => h _ s b t hrun

theorem skips_take : Skips fuel take := by
  intro s _ t hrun
  obtain rfl : t = s.take := run_act_iff.1 hrun
  rw [Sketch.take]
  split
  · exact ⟨⟨[], rfl⟩, rfl⟩
  · next w ws _ => exact ⟨⟨[w], rfl⟩, rfl⟩

theorem skips_silence : Skips fuel silence := by
  intro s _ t hrun
  obtain rfl := run_act_iff.1 hrun
  exact ⟨⟨[], rfl⟩, rfl⟩

theorem skips_whileM {test : Script Bool} {body : Script Unit} (htest : Skips fuel test)
    (hbody : Skips fuel body) : Skips fuel (whileM test body) := by
  intro s _ t hrun
  obtain ⟨us, hus⟩ := run_whileM_iff.1 hrun
  have hround : Skips fuel (round test body) := by
    refine skips_bind htest fun c => ?_
    cases c with
    | true => exact skips_bind hbody fun _ => skips_pure _
    | false => exact skips_pure none
  refine repeatStep_induction (P := fun _ (s : Sketch) _ (t : Sketch) =>
    (∃ ws : List Word, t.parts = (ws.map .word).reverse ++ s.parts) ∧ t.reports = s.reports)
    ?_ ?_ hus
  · exact fun _ s t hst => hround s none t hst
  · intro _ s b u _ t hsu _ ⟨⟨vs, hvs⟩, hreports'⟩
    obtain ⟨⟨ws, hws⟩, hreports⟩ := hround s (some b) u hsu
    exact ⟨⟨ws ++ vs, by rw [hvs, hws]; simp⟩, hreports'.trans hreports⟩

theorem skips_statementEnds : Skips fuel statementEnds := by
  refine skips_ask fun o => ?_
  split
  · exact skips_pure _
  · have h : Skips fuel (atStop >>= pure) := skips_ask skips_pure
    rwa [bind_pure] at h

theorem skips_takeLine : Skips fuel takeLine :=
  skips_whileM (skips_bind skips_statementEnds fun _ => skips_pure _) skips_take

theorem words_of_run (hrun : x.run (runRule script fuel) fuel s = some (a, t))
    (hparts : t.parts = ps.reverse ++ s.parts) : s.rest = wordsOfAll ps ++ t.rest := by
  have h : Sketch.HasWords (wordsOfAll s.parts.reverse ++ s.rest) t :=
    Sketch.kept_hasWords.run (i := wordsOfAll s.parts.reverse ++ s.rest) (s := s) rfl hrun
      Sketch.kept_hasWords.runRule
  rw [Sketch.HasWords, hparts, List.reverse_append, List.reverse_reverse, wordsOfAll_append,
    List.append_assoc] at h
  exact (List.append_cancel_left h).symm

/-- Words that fit nowhere.  They are in error themselves, or there has been a problem. -/
theorem lays_errorNode {x : Script α} (hx : Skips fuel x) (h : blamed = true ∨ o = some .error) :
    Lays fuel K blamed o (node .errorNode x) Q := by
  intro s a t hrun ho
  have hgoes := Sketch.goesOn_of_run hrun
  obtain ⟨u, hu, rfl⟩ := run_within_iff.1 hrun
  obtain ⟨⟨ws, hws⟩, hreports⟩ := hx s.fresh a u hu
  have hclean (hblamed : blamed = false) (hclean : Clean s.toReading u.toReading) : False := by
    obtain rfl := h.resolve_left (by simp [hblamed])
    obtain ⟨w, ws, hrest, hw⟩ := Reading.exists_rest (ho .error rfl)
    exact hclean.words w (by simp [hrest]) hw
  have hparts : u.parts.reverse = ws.map .word := by simp [hws, Sketch.fresh]
  refine ⟨[.node (.node .errorNode (ws.map .word))], ⟨hgoes, ?_, ?_, by simp, ?_, ?_, ?_⟩, ?_⟩
  · change Piece.node (.node .errorNode u.parts.reverse) :: s.parts = _
    rw [hparts]
    rfl
  · refine words_of_run hrun ?_
    change Piece.node (.node .errorNode u.parts.reverse) :: s.parts = _
    rw [hparts]
    rfl
  · intro d hd
    obtain rfl : d = .node .errorNode (ws.map .word) := by simpa using hd
    exact all_iff.2 ⟨⟨.inl rfl, trivial⟩, fun e he => by simp [pieces] at he⟩
  · refine ⟨[], ?_, marks_nil _ _, ?_⟩
    · change u.unclosed = s.unclosed ++ []
      rw [Reading.unclosed, hreports, List.append_nil]
      rfl
    · have hwords (ws : List Word) (K : NodeKind) (b : Bool) :
          unclosedOfAll K b (ws.map .word) = [] := by
        induction ws with
        | nil => rfl
        | cons w ws ih => exact ih
      rw [unclosedOfAll, Draft.unclosed, hwords]
      rfl
  · exact fun hblamed h => (hclean hblamed h).elim
  · exact fun hblamed h => (hclean hblamed h).elim

end Grammar

end CRBasic
