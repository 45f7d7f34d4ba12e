import CRBasic.Proofs.Grammar.Edges
import CRBasic.Proofs.Lines.Inline

/-!
# Problems between edges of a line

An argument list stands on one line.  A problem that is reported between two edges of it or of its
arguments has its place on that line (`keeps_scanArguments` and so on).
-/

namespace CRBasic

namespace Grammar

open Parsing Parsing.Script

section Edges

variable {s t : Reading} {e start stop : Edge} {words : List Word} {cause : Cause}

theorem shift_measuredWords (h : s.origin ≤ s.taken) : s.origin + s.measuredWords = s.taken :=
  Nat.add_sub_of_le h

theorem Asked.reaches {q : Query Edge} (h : Asked s t q e) (horigin : s.origin ≤ s.taken) :
    ∃ u : Reading, e = u.answer q ∧ s.origin + u.measuredWords = u.taken ∧ s.taken ≤ u.taken ∧
      u.taken ≤ t.taken := by
  obtain ⟨u, hsu, hut, he⟩ := h
  have hu : u.origin = s.origin := by rw [Reading.origin, hsu.origins, Reading.origin]
  have hle := hsu.taken_le
  exact ⟨u, he, hu ▸ shift_measuredWords (hu ▸ Nat.le_trans horigin hle), hle, hut.taken_le⟩

/-- Edges that were found while words of one line were taken are edges of that line. -/
theorem oneLine_between (hline : Word.OnLine words s.taken t.taken) (hlength : t.taken ≤ words.length)
    (horigin : s.origin ≤ s.taken) (hstart : Asked s t .here start) (hstop : Asked s t .behind stop) :
    (⟨cause, start.shift s.origin, stop.shift s.origin⟩ : Report).OneLine words := by
  obtain ⟨u, rfl, hu, hsu, -⟩ := hstart.reaches horigin
  obtain ⟨v, rfl, hv, -, hvt⟩ := hstop.reaches horigin
  refine .inr ⟨v.taken, Nat.le_trans hvt hlength, congrArg Edge.endOf hv, hline.mono ?_ hvt⟩
  change s.taken ≤ ((if u.onLine.isSome then Edge.startAfter u.measuredWords
    else .endOf u.measuredWords).shift s.origin).begun
  split
  · exact Nat.le_succ_of_le (Nat.le_trans hsu (Nat.le_of_eq hu.symm))
  · exact Nat.le_trans hsu (Nat.le_of_eq hu.symm)

/-- An argument starts where a problem would be reported. -/
theorem shift_here {u : Reading} (h : u.origin ≤ u.taken) :
    (u.answer .here).shift u.origin = (u.edges .here).1 := by
  change (if u.onLine.isSome then Edge.startAfter u.measuredWords
    else .endOf u.measuredWords).shift u.origin = _
  rw [Reading.edges]
  split
  · exact congrArg Edge.startAfter (shift_measuredWords h)
  · exact congrArg Edge.endOf (shift_measuredWords h)

/-- As many words are in front of where a problem would be reported as have been taken. -/
theorem count_here (u : Reading) : (u.edges .here).1.count = u.taken := by
  rw [Reading.edges]
  split <;> rfl

/-- Where an argument starts that counts as no name, none stands that a comma or a closing parenthesis
follows. -/
theorem Argument.Among.unnamed {a : Argument} (h : a.Among s t) (hs : s.rest = words.drop s.taken)
    (horigin : s.origin ≤ s.taken) (hname : a.isName = false) :
    (⟨cause, a.start.shift s.origin, stop⟩ : Report).Unnamed words := by
  intro _
  obtain ⟨u, hsu, -, hstart, hseen⟩ := h.begun
  have hu : u.origin = s.origin := by rw [Reading.origin, hsu.origins, Reading.origin]
  have hshift := shift_here (hu ▸ Nat.le_trans horigin hsu.taken_le)
  rw [hu, ← hstart] at hshift
  rw [hshift, count_here, ← hsu.rest_eq_drop hs, ← hseen, hname]

end Edges

section Reports

variable {words : List Word} {fuel : Nat} {line : Bool} {st : Stage} {l b : Bool} {s t u : Sketch}
  {α : Type} {start stop : Edge} {cause : Cause}

/-- A result that may come with a report between two edges of one line. -/
theorem stands_unlessBetween {p : Prop} [Decidable p] {a a' : α}
    (hs : Stands words line st (.live l b) s) (hcause : cause.kind = .grammatical)
    (hplace : (⟨cause, start.shift s.origin, stop.shift s.origin⟩ : Report).OneLine words)
    (hunits : ¬ p → (⟨cause, start.shift s.origin, stop.shift s.origin⟩ : Report).Unnamed words)
    (hrun : (if p then pure a else report (.between start stop) cause >>= fun _ => pure a).run
      (runRule script fuel) fuel s = some (a', t)) :
    a' = a ∧ Stands words line st (.live l b) t ∧ Stays words (.live l b) (.live l b) s t := by
  split at hrun
  · obtain ⟨rfl, rfl⟩ := run_pure_iff.1 hrun
    exact ⟨rfl, hs, .refl _ _⟩
  · next hp =>
    obtain ⟨_, u, hu, hpure⟩ := run_bind_iff.1 hrun
    obtain rfl : u = s.perform (.report (.between start stop) cause) := run_act_iff.1 hu
    obtain ⟨rfl, rfl⟩ := run_pure_iff.1 hpure
    exact ⟨rfl, hs.report hcause hplace (hunits hp) ⟨rfl, rfl⟩ fun _ _ _ _ => trivial⟩

/-- The arguments of an instruction stay on its line, where all edges of them are found. -/
theorem stands_instructionArguments {instruction : TokenKind} {least most : Nat}
    {items : List Argument} (hs : Stands words true .measured (.live true b) s)
    (horigin : s.origin = s.taken)
    (hrun : (instructionArguments instruction least most).run (runRule script fuel) fuel s =
      some (items, t)) :
    Stands words true .measured (.live false b) t ∧
      Stays words (.live true b) (.live false b) s t ∧
      ∀ a ∈ items, a.Among s.toReading t.toReading := by
  have hlines : LineRules fun st m x m' => Keeps words fuel true st m x m' := keeps_lines
  have horigin := Nat.le_of_eq horigin
  rw [instructionArguments, onLine, run_ask_bind] at hrun
  split at hrun
  · next hparen =>
    have hseen : Stands words true .measured (.seeing true b .lParen) s :=
      hs.still ⟨rfl, rfl⟩ (beq_iff_eq.1 hparen) hs.tidy rfl
    have hopen : Stays words (.live true b) (.seeing true b .lParen) s s := .still ⟨rfl, rfl⟩ rfl
    obtain ⟨args, u, hargs, hrun⟩ := run_bind_iff.1 hrun
    obtain ⟨hu, hstays⟩ := walk_argumentList hlines s args u hargs hseen
    have hstays := hopen.trans (hstays rfl)
    have hamong := among_argumentList hargs
    have hsu := Sketch.goesOn_of_run hargs
    have hplace : (⟨.argumentCount instruction least most args.items.length,
        args.start.shift u.origin, args.stop.shift u.origin⟩ : Report).OneLine words := by
      have hshared : u.origin = s.origin := congrArg (List.headD · 0) hsu.origins
      rw [hshared]
      exact oneLine_between hstays.onLine hu.tidy.taken_le horigin hamong.start hamong.stop
    have hut := Sketch.goesOn_of_run hrun
    obtain ⟨rfl, ht, hstays'⟩ := stands_unlessBetween hu rfl hplace (fun _ hcause => by cases hcause) hrun
    exact ⟨ht, hstays.trans hstays', fun a ha => (hamong.items a ha).mono (.refl _) hut⟩
  · obtain ⟨_, u, hu, hpure⟩ := run_bind_iff.1 hrun
    have hreport : Keeps words fuel true .measured (.live true b)
        (report .here (.missingArguments instruction)) (.live false b) :=
      hlines.post (.live (by simp) fun _ => rfl) (hlines.report_live rfl)
    obtain ⟨hu, hstays⟩ := hreport s () u hu hs
    obtain ⟨rfl, rfl⟩ := run_pure_iff.1 hpure
    exact ⟨hu, hstays rfl, by simp⟩

theorem keeps_tableArguments (instruction : TokenKind) (least most : Nat) :
    Keeps words fuel true .inner (.live true b)
      (within .measured do let _ ← instructionArguments instruction least most) (.live false b) := by
  refine keeps_measured fun s a t hrun horigin hs => ?_
  obtain ⟨items, u, hu, hpure⟩ := run_bind_iff.1 hrun
  obtain ⟨-, rfl⟩ := run_pure_iff.1 hpure
  obtain ⟨ht, hstays, -⟩ := stands_instructionArguments hs horigin hu
  exact ⟨ht, fun _ => hstays⟩

theorem keeps_scanArguments (instruction : TokenKind) (least most : Nat) :
    Keeps words fuel true .inner (.live true b) (scanArguments instruction least most)
      (.live false b) := by
  refine keeps_measured fun s a t hrun horigin hs => ?_
  obtain ⟨items, u, hu, hcheck⟩ := run_bind_iff.1 hrun
  obtain ⟨hu', hstays, hamong⟩ := stands_instructionArguments hs horigin hu
  unfold checkScanUnits at hcheck
  split at hcheck
  · next units _ =>
    have hunits := hamong units (by simp)
    rw [← bind_pure (report _ _)] at hcheck
    have hshared : u.origin = s.origin :=
      congrArg (List.headD · 0) (Sketch.goesOn_of_run hu).origins
    have hplace : (⟨.scanUnitsNotName, units.start.shift u.origin, units.stop.shift u.origin⟩ :
        Report).OneLine words := by
      rw [hshared]
      exact oneLine_between hstays.onLine hu'.tidy.taken_le (Nat.le_of_eq horigin) hunits.start
        hunits.stop
    have hunnamed (hname : ¬ units.isName = true) : (⟨.scanUnitsNotName, units.start.shift u.origin,
        units.stop.shift u.origin⟩ : Report).Unnamed words := by
      rw [hshared]
      exact hunits.unnamed hs.tidy.rest_eq (Nat.le_of_eq horigin) (Bool.eq_false_iff.2 hname)
    obtain ⟨-, ht, hstays'⟩ := stands_unlessBetween hu' rfl hplace hunnamed hcheck
    exact ⟨ht, fun _ => hstays.trans hstays'⟩
  · obtain ⟨-, rfl⟩ := run_pure_iff.1 hcheck
    exact ⟨hu', fun _ => hstays⟩

/-- The name after the word that ends a loop is one word of its line. -/
theorem keeps_closingVariable (name? : Option (List Char)) :
    Keeps words fuel true .inner (.live true b) (closingVariable name?) (.live false b) := by
  have hlines : LineRules fun st m x m' => Keeps words fuel true st m x m' := keeps_lines
  refine hlines.ifOnLine ?_ (hlines.post .quiet (hlines.pure ()))
  refine keeps_measured fun s a t hrun horigin hs => ?_
  have hname : Keeps words fuel true .measured (.seeing true b .ident) nameReference
      (.live false b) :=
    hlines.measured_of_inner (walk_nameReference hlines (hlines.take_seeing (.inr rfl)))
  obtain ⟨w, ws, hrest, -⟩ := exists_rest_of_onLine hs.sees
  have hlt := hs.tidy.taken_lt hrest
  rw [text, run_ask_bind] at hrun
  obtain ⟨_, u, hu, hcheck⟩ := run_bind_iff.1 hrun
  obtain ⟨hu', hstays⟩ := hname s () u hu hs
  have hshared : u.origin = s.origin := congrArg (List.headD · 0) (Sketch.goesOn_of_run hu).origins
  cases name? with
  | none =>
    obtain ⟨-, rfl⟩ := run_pure_iff.1 hcheck
    exact ⟨hu', hstays⟩
  | some name =>
    have hplace : (⟨.loopVariableMismatch name s.text, Edge.shift u.origin (.startAfter 0),
        Edge.shift u.origin (.endOf 1)⟩ : Report).OneLine words := by
      rw [hshared, horigin]
      exact .inr ⟨s.taken + 1, hlt, rfl, Word.onLine_of_le (Nat.le_refl _)⟩
    change (if _ then pure () else report _ _).run _ _ u = _ at hcheck
    rw [← bind_pure (report _ _)] at hcheck
    obtain ⟨-, ht, hstays'⟩ := stands_unlessBetween hu' rfl hplace (fun _ hcause => by cases hcause) hcheck
    exact ⟨ht, fun hline => (hstays hline).trans hstays'⟩

end Reports

end Grammar

end CRBasic
