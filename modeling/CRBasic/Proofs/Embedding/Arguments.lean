import CRBasic.Proofs.Embedding.Lines
import CRBasic.Proofs.Grammar.Edges

/-!
# Problems between edges

The edges of an argument list and of its arguments lie at words of the text, so a problem that is
reported between them has the same place in a larger text (`alike_scanArguments` and so on).
-/

namespace CRBasic

namespace Parsing

/-- The words in front of a measured stretch, and those of the whole text. -/
structure Sketch.Measures (origin total : Nat) (s : Sketch) : Prop where
  origin_eq : s.origin = origin
  le_taken : origin ≤ s.taken
  taken_pos : 0 < s.taken
  count : s.taken + s.rest.length = total

end Parsing

namespace Grammar

open Parsing Parsing.Script

/-- An edge counted from an origin lies at a word of the text. -/
def Fits (origin total : Nat) (e : Edge) : Prop := (e.shift origin).Inside total

structure Argument.Fits (origin total : Nat) (a : Argument) : Prop where
  start : Grammar.Fits origin total a.start
  stop : Grammar.Fits origin total a.stop

structure Arguments.Fits (origin total : Nat) (args : Arguments) : Prop where
  start : Grammar.Fits origin total args.start
  stop : Grammar.Fits origin total args.stop
  items : ∀ a ∈ args.items, a.Fits origin total

section Edges

variable {origin total fuel : Nat} {s t : Sketch} {call : Rule → Sketch → Option Sketch}

theorem measures_of_goesOn (h : s.Measures origin total) (hst : s.toReading.GoesOn t.toReading) :
    t.Measures origin total := by
  refine ⟨?_, Nat.le_trans h.le_taken hst.taken_le, Nat.lt_of_lt_of_le h.taken_pos hst.taken_le,
    hst.taken.trans h.count⟩
  rw [Reading.origin, hst.origins]
  exact h.origin_eq

theorem fits_endOf (h : s.Measures origin total) : Fits origin total (.endOf s.measuredWords) := by
  have := h.le_taken
  have := h.taken_pos
  have := h.count
  have hshift : (Edge.endOf s.measuredWords).shift origin = .endOf s.taken := by
    rw [Edge.shift, Reading.measuredWords, h.origin_eq, Nat.add_sub_of_le h.le_taken]
  rw [Fits, hshift]
  exact ⟨by omega, by omega⟩

theorem fits_here (h : s.Measures origin total) : Fits origin total (s.answer Query.here) := by
  change Fits origin total (if s.onLine.isSome then _ else _)
  split
  · next honLine =>
    obtain ⟨k, hk⟩ := Option.isSome_iff_exists.1 honLine
    have hpos := List.length_pos_iff.2 (Reading.ne_nil_of_onLine hk)
    have hshift : (Edge.startAfter s.measuredWords).shift origin = .startAfter s.taken := by
      rw [Edge.shift, Reading.measuredWords, h.origin_eq, Nat.add_sub_of_le h.le_taken]
    have := h.count
    rw [Fits, hshift]
    change s.taken < total
    omega
  · exact fits_endOf h

theorem fits_start (h : s.Measures origin total) {e : Edge}
    (he : Asked s.toReading t.toReading .here e) : Fits origin total e := by
  obtain ⟨u, hu, -, rfl⟩ := he
  exact fits_here (s := ⟨u, []⟩) (measures_of_goesOn h hu)

theorem fits_stop (h : s.Measures origin total) {e : Edge}
    (he : Asked s.toReading t.toReading .behind e) : Fits origin total e := by
  obtain ⟨u, hu, -, rfl⟩ := he
  exact fits_endOf (s := ⟨u, []⟩) (measures_of_goesOn h hu)

theorem fits_argumentList (h : s.Measures origin total) {args : Arguments}
    (hrun : argumentList.run (runRule script fuel) fuel s = some (args, t)) :
    args.Fits origin total := by
  have hargs := among_argumentList hrun
  exact ⟨fits_start h hargs.start, fits_stop h hargs.stop, fun a ha =>
    ⟨fits_start h (hargs.items a ha).start, fits_stop h (hargs.items a ha).stop⟩⟩

end Edges

section Reports

variable {c : Setting} {origin total : Nat} {Lost : Sketch → Prop} {fuel : Nat} {m m' : Mode}
  {l b : Bool} {s t u : Sketch} {st : Stage} {before : List (Piece Draft)} {α β : Type}

theorem measures_of_holds (hs : Holds c total .measured m s) (hm : m.isStarted) :
    s.Measures s.origin total :=
  ⟨rfl, (hs.measured rfl).2, hs.started hm, hs.count⟩

/-- A report between edges that fit. -/
theorem steps_reportBetween {start stop : Edge} {cause : Cause} (hlost : Losing c Lost)
    (hs : Holds c total .measured (.live l b) s) (h : s.Measures origin total)
    (hstart : Fits origin total start) (hstop : Fits origin total stop) :
    StepsAlike c total Lost fuel .measured (.live l b) [] s (report (.between start stop) cause) ()
      (s.perform (.report (.between start stop) cause)) := by
  have hmarks : Setting.Marks s (.between start stop) := (hs.measured rfl).1
  by_cases hframes : c.frames = []
  · refine .inr ⟨?_, hs.report hframes (.inl ?_) ⟨rfl, rfl⟩ trivial⟩
    · exact run_act_iff.2 (Setting.report_embed hmarks).symm
    · rw [Reading.edges, h.origin_eq]
      exact ⟨hstart, hstop⟩
  · exact .inl (.inl (hs.lost_report hlost hframes))

/-- A result that may come with a report between edges that fit. -/
theorem steps_unlessBetween {start stop : Edge} {cause : Cause} {p : Prop} [Decidable p] {a : α}
    (hlost : Losing c Lost) (hs : Holds c total .measured (.live l b) s)
    (h : s.Measures origin total) (hstart : Fits origin total start) (hstop : Fits origin total stop)
    (hrun : (if p then pure a else report (.between start stop) cause >>= fun _ => pure a).run
      (runRule script fuel) fuel s = some (a, t)) :
    StepsAlike c total Lost fuel .measured (.live l b) [] s
      (if p then pure a else report (.between start stop) cause >>= fun _ => pure a) a t := by
  by_cases hp : p
  · rw [if_pos hp] at hrun ⊢
    obtain ⟨-, rfl⟩ := run_pure_iff.1 hrun
    exact steps_pure _ hs
  · rw [if_neg hp] at hrun ⊢
    obtain ⟨_, u, hu, hpure⟩ := run_bind_iff.1 hrun
    obtain rfl := run_act_iff.1 hu
    obtain ⟨-, rfl⟩ := run_pure_iff.1 hpure
    have hreport : StepsAlike c total Lost fuel .measured (.live l b) [] s
        (report (.between start stop) cause) () (s.perform (.report (.between start stop) cause)) :=
      steps_reportBetween hlost hs h hstart hstop
    exact steps_bind (m := .live l b) hlost nofun hpure hreport (steps_pure _)

theorem result_unlessBetween {start stop : Edge} {cause : Cause} {p : Prop} [Decidable p] {a a' : α}
    (hrun : (if p then pure a else report (.between start stop) cause >>= fun _ => pure a).run
      (runRule script fuel) fuel s = some (a', t)) : a' = a := by
  split at hrun
  · exact (run_pure_iff.1 hrun).1
  · obtain ⟨_, u, -, hpure⟩ := run_bind_iff.1 hrun
    exact (run_pure_iff.1 hpure).1

variable (hlost : Losing c Lost)
include hlost

theorem steps_instructionArguments {instruction : TokenKind} {least most : Nat}
    {items : List Argument} (hs : Holds c total .measured (.live true b) s)
    (h : s.Measures origin total)
    (hrun : (instructionArguments instruction least most).run (runRule script fuel) fuel s =
      some (items, t)) :
    StepsAlike c total Lost fuel .measured (.live false b) [] s
        (instructionArguments instruction least most) items t ∧
      ∀ a ∈ items, a.Fits origin total := by
  have hlines : LineRules fun st m x m' => Alike c total Lost fuel st m x m' := alike_lines hlost
  rw [instructionArguments, onLine, run_ask_bind, answer_onLine] at hrun
  by_cases hparen : (s.onLine == some .lParen) = true
  · rw [if_pos hparen] at hrun
    have hseen : Holds c total .measured (.seeing true b .lParen) s :=
      { hs with sees := by simpa [Mode.Sees] using hparen }
    obtain ⟨args, u, hargs, hrun⟩ := run_bind_iff.1 hrun
    have hu := measures_of_goesOn h (Sketch.goesOn_of_run hargs)
    have hfits := fits_argumentList h hargs
    have hlist := (walk_argumentList hlines).steps (fun _ => rfl) hseen hargs
    obtain rfl := result_unlessBetween hrun
    refine ⟨steps_onLine ?_, hfits.items⟩
    rw [if_pos hparen]
    refine steps_bind (m := .live false b) hlost Mode.live_ne_body hrun hlist fun hs => ?_
    exact steps_unlessBetween hlost hs hu hfits.start hfits.stop hrun
  · rw [if_neg hparen] at hrun
    obtain ⟨v, u, hu, hpure⟩ := run_bind_iff.1 hrun
    have hreport := Alike.steps (hlines.report_live rfl) (fun _ => rfl) hs hu
    obtain ⟨rfl, rfl⟩ := run_pure_iff.1 hpure
    refine ⟨steps_onLine ?_, by simp⟩
    rw [if_neg hparen]
    refine steps_bind (m := .live true true) hlost Mode.live_ne_body hpure hreport fun hs => ?_
    exact steps_pure _ (hs.weaken (.live Bool.noConfusion fun _ => rfl))

/-- The arguments of an instruction are alike, with what is made of them. -/
theorem alike_instructionArguments {instruction : TokenKind} {least most : Nat}
    {f : List Argument → Script Unit}
    (hf : ∀ {origin : Nat} {items : List Argument} {s t : Sketch} {v : Unit},
      Holds c total .measured (.live false b) s → s.Measures origin total →
      (∀ a ∈ items, a.Fits origin total) →
      (f items).run (runRule script fuel) fuel s = some (v, t) →
      StepsAlike c total Lost fuel .measured (.live false b) [] s (f items) v t) :
    Alike c total Lost fuel .inner (.live true b)
      (within .measured (instructionArguments instruction least most >>= f)) (.live false b) := by
  refine alike_measured hlost fun before s v t hbefore hrun => ?_
  obtain rfl := hbefore nofun
  refine ⟨fun hs => .inl (hlost.kept hrun (hs.lost nofun)), fun hs => ?_⟩
  have hmeasures := measures_of_holds hs rfl
  obtain ⟨items, u, hu, hrest⟩ := run_bind_iff.1 hrun
  obtain ⟨hsteps, hitems⟩ := steps_instructionArguments hlost hs hmeasures hu
  refine steps_bind (m := .live false b) hlost nofun hrest hsteps fun hs => ?_
  exact hf hs (measures_of_goesOn hmeasures (Sketch.goesOn_of_run hu)) hitems hrest

theorem alike_tableArguments (instruction : TokenKind) (least most : Nat) :
    Alike c total Lost fuel .inner (.live true b)
      (within .measured do let _ ← instructionArguments instruction least most) (.live false b) := by
  refine alike_instructionArguments hlost fun hs _ _ hrun => ?_
  obtain ⟨rfl, rfl⟩ := run_pure_iff.1 hrun
  exact steps_pure _ hs

theorem alike_scanArguments (instruction : TokenKind) (least most : Nat) :
    Alike c total Lost fuel .inner (.live true b) (scanArguments instruction least most)
      (.live false b) := by
  refine alike_instructionArguments hlost fun {origin items s t v} hs h hitems hrun => ?_
  unfold checkScanUnits at hrun ⊢
  split at hrun
  · next units _ =>
    have hunits := hitems units (by simp)
    rw [← bind_pure (report _ _)] at hrun ⊢
    exact steps_unlessBetween hlost hs h hunits.start hunits.stop hrun
  · obtain ⟨rfl, rfl⟩ := run_pure_iff.1 hrun
    exact steps_pure _ hs

theorem alike_closingVariable (name? : Option (List Char)) :
    Alike c total Lost fuel .inner (.live true b) (closingVariable name?) (.live false b) := by
  have hlines : LineRules fun st m x m' => Alike c total Lost fuel st m x m' := alike_lines hlost
  refine hlines.ifOnLine (hlines.measured ((alike_texts hlost).text fun closing => ?_))
    (hlines.post .quiet (hlines.pure ()))
  have hname : Alike c total Lost fuel .measured (.seeing true b .ident) nameReference
      (.live false b) :=
    hlines.measured_of_inner (walk_nameReference hlines (hlines.take_seeing (.inr rfl)))
  intro before s v t hbefore hrun
  obtain rfl := hbefore nofun
  refine ⟨fun hs => .inl (hlost.kept hrun (hs.lost nofun)), fun hs => ?_⟩
  obtain ⟨_, u, hu, hcheck⟩ := run_bind_iff.1 hrun
  refine steps_bind (m := .live false b) hlost nofun hcheck
    (hname.steps (fun _ => rfl) hs hu) fun hu' => ?_
  have hmeasures := measures_of_holds hs rfl
  have hum := measures_of_goesOn hmeasures (Sketch.goesOn_of_run hu)
  have horigin : s.origin < total := by
    have := List.length_pos_iff.2 (Reading.ne_nil_of_onLine hs.sees)
    have := hmeasures.le_taken
    have := hmeasures.count
    omega
  split at hcheck
  · obtain ⟨rfl, rfl⟩ := run_pure_iff.1 hcheck
    exact steps_pure _ hu'
  · rw [← bind_pure (report _ _)] at hcheck ⊢
    refine steps_unlessBetween hlost hu' hum ?_ ?_ hcheck
    · exact horigin
    · exact ⟨Nat.succ_pos _, horigin⟩

end Reports

end Grammar

end CRBasic
