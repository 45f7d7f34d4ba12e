import CRBasic.Proofs.Roles.References

/-!
# The parts of a loop

The script of a loop puts its opener and its variable, its bounds, its body and its end, in this order
(`looped_of_fills`).  The name behind `Next` is compared with the variable by the first words of the two
(`parts_closingVariable`).
-/

namespace CRBasic

open Parsing

namespace Draft

/-- What stands in the header of a loop behind its variable: bounds, or words that fit nowhere. -/
inductive Bounds : List (Piece Draft) → Prop where
  | written {w : Word} {ps : List (Piece Draft)} (hw : w.kind = .eq)
    (hwords : ∀ w, .word w ∈ ps → w.kind.isTerminator = false) (hbody : NoBody ps) : Bounds (.word w :: ps)
  | missing {ps : List (Piece Draft)} (h : OnlyErrors ps) : Bounds ps

/-- The first word of a reference behind `n` words is compared with a name: if the two differ, that is
reported, unless words inside the reference fit nowhere. -/
def Compared (problems : List Report) (n : Nat) (name? : Option (List Char)) (y : Word) (d : Draft) : Prop :=
  ∀ x ∈ name?, Grammar.sameName x y.text = false → HasError [.node d] ∨
    ⟨.loopVariableMismatch x y.text, .startAfter n, .endOf (n + 1)⟩ ∈ problems

theorem Compared.mono {problems problems' : List Report} {n : Nat} {name? : Option (List Char)} {y : Word}
    {d : Draft} (h : Compared problems n name? y d) (hsub : problems <+: problems') :
    Compared problems' n name? y d :=
  fun x hx hdiffer => (h x hx hdiffer).imp_right hsub.mem

/-- What stands behind the body of a loop and behind `n` words. -/
inductive Ending (problems : List Report) (n : Nat) (name? : Option (List Char)) :
    List (Piece Draft) → Prop where
  | missing : Ending problems n name? []
  | next {w : Word} {closing? : Option Draft} {errors : List (Piece Draft)} (hw : w.kind = .kwNext)
    (hclosing : ∀ d ∈ closing?, ∃ y, d.Refers y ∧ Compared problems (n + 1) name? y d)
    (herrors : OnlyErrors errors) :
    Ending problems n name? (.word w :: (closing?.toList.map .node ++ errors))

/-- The parts of a loop up to its body.  The name is that of its variable, if it has one. -/
inductive Opened (name? : Option (List Char)) : List (Piece Draft) → Prop where
  | intro {opener : Word} {named? : Option Draft} {bounds : List (Piece Draft)}
    (hopener : opener.kind = .kwFor)
    (hvariable : ∀ d ∈ named?, ∃ x, d.Refers x ∧ name? = some x.text) (hbounds : Bounds bounds) :
    Opened name? (.word opener :: (named?.toList.map .node ++ bounds))

/-- The parts of a loop behind `n` words. -/
inductive Looped (problems : List Report) (n : Nat) : List (Piece Draft) → Prop where
  | intro {name? : Option (List Char)} {opening ending : List (Piece Draft)} {body : Draft}
    (hopening : Opened name? opening) (hbody : body.kind = .stmtList)
    (hending : Ending problems (n + (wordsOfAll (opening ++ [.node body])).length) name? ending) :
    Looped problems n (opening ++ .node body :: ending)

end Draft

namespace Grammar

open Script Draft

variable {words : List Word} {fuel n : Nat} {problems : List Report} {s t u : Sketch} {v : Unit}
  {name? : Option (List Char)} {ps : List (Piece Draft)}

/-! ### Steps of a loop -/

theorem run_expect {k : TokenKind} {c : Bool}
    (hrun : (expect k).run (runRule script fuel) fuel s = some (c, t)) :
    (c = true ∧ s.onLine = some k ∧ t = s.take) ∨
      (c = false ∧ s.onLine ≠ some k ∧ t = s.perform (.report .here (.missing k))) := by
  rw [expect, eat, LawfulMonad.bind_assoc, onLine, run_ask_bind, answer_onLine] at hrun
  split at hrun
  · next hk =>
    obtain ⟨rfl, rfl⟩ := run_pure_iff.1 hrun
    exact .inl ⟨rfl, by simpa using hk, rfl⟩
  · next hk =>
    obtain ⟨rfl, rfl⟩ := run_pure_iff.1 hrun
    exact .inr ⟨rfl, by simpa using hk, rfl⟩

theorem parts_loopVariable
    (hrun : loopVariable.run (runRule script fuel) fuel s = some (name?, t)) :
    ∃ named? : Option Draft, t.parts = named?.toList.map .node ++ s.parts ∧
      ∀ d ∈ named?, ∃ x, d.Refers x ∧ name? = some x.text := by
  rw [loopVariable, onLine, run_ask_bind, answer_onLine] at hrun
  split at hrun
  · next hk =>
    have hk : s.onLine = some .ident := by simpa using hk
    rw [text, run_ask_bind] at hrun
    obtain ⟨_, u, hu, hrun⟩ := run_bind_iff.1 hrun
    obtain ⟨rfl, rfl⟩ := run_pure_iff.1 hrun
    obtain ⟨x, d, hd, htext, hparts⟩ := exists_refers hk hu
    refine ⟨some d, hparts, ?_⟩
    rintro _ ⟨⟩
    exact ⟨x, hd, congrArg some htext⟩
  · obtain ⟨_, u, hu, hrun⟩ := run_bind_iff.1 hrun
    obtain rfl := run_act_iff.1 hu
    obtain ⟨-, rfl⟩ := run_pure_iff.1 hrun
    exact ⟨none, rfl, by simp⟩

/-- What stands on a line behind a word ends no block and holds no body. -/
theorem parts_line {α : Type} {x : Script α} {a : α} {w : Word} {before : List (Piece Draft)}
    (hx : x.Lineal false) (hlays : Lays fuel .forLoop true none x Free)
    (hs : s.parts = .word w :: before) (hrun : x.run (runRule script fuel) fuel s = some (a, t)) :
    ∃ ps, t.parts = ps.reverse ++ s.parts ∧ (∀ w, .word w ∈ ps → w.kind.isTerminator = false) ∧
      NoBody ps := by
  have hstart : Behind False s.parts s.parts := hs ▸ behind_word False w before
  obtain ⟨-, new, hnew, hlineal, -⟩ := behind_of_run hx (by simp) hrun False.elim False.elim hstart
  obtain ⟨ps, hps, -⟩ := hlays s a t hrun (by simp [Knows])
  obtain rfl : new = ps.reverse := List.append_cancel_right (hnew.symm.trans hps.parts)
  refine ⟨ps, hps.parts, hps.bare, fun d hd hkind => ?_⟩
  have hline := (Draft.lineal_iff.1 (hlineal d (List.mem_reverse.2 hd))).1.1
  rw [hkind] at hline
  cases hline

/-- What follows the `=` of a loop. -/
def loopRange : Script Unit := do
  expression
  if ← expect .kwTo then
    expression
    if ← eat .kwStep then expression

theorem loopBounds_eq : loopBounds = (do if ← expect .eq then loopRange) := rfl

theorem lineal_loopRange : loopRange.Lineal false :=
  lineal_expression.bind fun _ => lineal_expectThen
    (lineal_expression.bind fun _ => lineal_eatThen lineal_expression trivial) trivial

theorem lays_loopRange : Lays fuel .forLoop true none loopRange Free :=
  lays_seq lays_expression fun _ => lays_expectThen rfl
    (lays_seq lays_expression fun _ => lays_eatThen rfl lays_expression.free (lays_pure trivial))
    (lays_pure trivial)

theorem parts_loopBounds
    (hrun : (do loopBounds; lineEnd : Script Unit).run (runRule script fuel) fuel s = some (v, t)) :
    ∃ bounds, t.parts = bounds.reverse ++ s.parts ∧ Bounds bounds := by
  rw [loopBounds_eq, LawfulMonad.bind_assoc] at hrun
  obtain ⟨c, u, hu, hrun⟩ := run_bind_iff.1 hrun
  rcases run_expect hu with ⟨rfl, hk, rfl⟩ | ⟨rfl, -, rfl⟩
  · obtain ⟨w, ws, hrest, hw⟩ := rest_of_onLine hk
    have htake : s.take.parts = .word w :: s.parts := by rw [Sketch.take_eq hrest]
    have hlineal : (do loopRange; lineEnd : Script Unit).Lineal false :=
      lineal_loopRange.bind fun _ => lineal_lineEnd
    obtain ⟨ps, hps, hwords, hbody⟩ := parts_line hlineal (lays_seq lays_loopRange fun _ => lays_lineEnd)
      htake hrun
    exact ⟨.word w :: ps, by simp [hps, htake], .written hw hwords hbody⟩
  · obtain ⟨errors, herrors, honly⟩ := parts_lineEnd (s := s.perform (.report .here (.missing .eq))) hrun
    refine ⟨errors.reverse, by rw [List.reverse_reverse]; exact herrors, .missing fun p hp => ?_⟩
    exact honly p (List.mem_reverse.1 hp)

/-- The name behind `Next` should be that of the variable. -/
def compareNames (name? : Option (List Char)) (closing : List Char) : Script Unit :=
  match name? with
  | none => pure ()
  | some name =>
    unless sameName name closing do
      report (.between (.startAfter 0) (.endOf 1)) (.loopVariableMismatch name closing)

theorem closingVariable_eq (name? : Option (List Char)) : closingVariable name? = (do
    if (← onLine) == some .ident then
      within .measured do
        let closing ← text
        nameReference
        compareNames name? closing) := rfl

theorem parts_compareNames {y : List Char}
    (hrun : (compareNames name? y).run (runRule script fuel) fuel s = some (v, t)) :
    t.parts = s.parts := by
  unfold compareNames at hrun
  split at hrun
  · rw [(run_pure_iff.1 hrun).2]
  · split at hrun
    · rw [(run_pure_iff.1 hrun).2]
    · rw [run_act_iff.1 hrun]
      rfl

/-- Where problems are not passed over, names that differ are reported at the first word that is measured. -/
theorem report_of_compareNames {x y : List Char} (hname : x ∈ name?) (hdiffer : sameName x y = false)
    (hloud : s.silenced = false)
    (hrun : (compareNames name? y).run (runRule script fuel) fuel s = some (v, t)) :
    ⟨.loopVariableMismatch x y, .startAfter s.origin, .endOf (s.origin + 1)⟩ ∈ t.reports.toList := by
  obtain rfl : name? = some x := hname
  rw [compareNames, hdiffer] at hrun
  obtain rfl : t = s.perform (.report (.between (.startAfter 0) (.endOf 1)) (.loopVariableMismatch x y)) :=
    run_act_iff.1 hrun
  show _ ∈ (s.toReading.report _ _).reports.toList
  simp [Reading.report, hloud, Reading.edges, Edge.shift]

/-- The reference behind `Next`, and what is reported of it. -/
theorem parts_closingVariable {w : Word} {before : List (Piece Draft)} (hs : s.parts = .word w :: before)
    (hloud : s.silenced = false)
    (hrun : (closingVariable name?).run (runRule script fuel) fuel s = some (v, t)) :
    ∃ closing? : Option Draft, t.parts = closing?.toList.map .node ++ s.parts ∧
      ∀ d ∈ closing?, ∃ y, d.Refers y ∧ Compared t.reports.toList s.taken name? y d := by
  rw [closingVariable_eq, onLine, run_ask_bind, answer_onLine] at hrun
  split at hrun
  · next hk =>
    have hk : s.onLine = some .ident := by simpa using hk
    obtain ⟨t, ht, rfl⟩ := run_within_iff.1 hrun
    rw [text, run_ask_bind] at ht
    obtain ⟨_, u, hu, ht⟩ := run_bind_iff.1 ht
    obtain ⟨y, d, hd, htext, hparts⟩ := exists_refers (s := s.measured) hk hu
    have hanswer : Machine.answer (Machine.begin s .measured).2 Query.text = y.text := htext
    rw [hanswer] at ht
    have horigin : u.origin = s.taken := congrArg (·.headD 0) (Sketch.goesOn_of_run hu).origins
    refine ⟨some d, ?_, ?_⟩
    · have hsame : t.parts = u.parts := parts_compareNames ht
      exact hsame.trans hparts
    · rintro _ ⟨⟩
      refine ⟨y, hd, fun x hx hdiffer => ?_⟩
      -- Only what has been put for the reference tells where problems begin to be passed over.
      have hword : ∀ d more, s.parts ≠ .node d :: more := by simp [hs]
      obtain ⟨r, hr, hur⟩ := Sketch.exists_run_fresh (s := s.measured) hword hu
      have hnew : r.parts = [.node d] := by
        rw [hur] at hparts
        exact List.append_cancel_right hparts
      have hreveals := lineal_nameReference.reveals tells_hasError hr
      by_cases hsilenced : r.silenced = true
      · have hstart : s.measured.fresh.silenced = false := hloud
        have herror : HasError r.parts :=
          (hreveals hsilenced).resolve_left (Bool.eq_false_iff.1 hstart)
        rw [hnew] at herror
        exact .inl herror
      · have hquiet : u.silenced = false := by
          rw [hur]
          exact Bool.eq_false_iff.2 hsilenced
        have hreport := report_of_compareNames (t := t) hx hdiffer hquiet ht
        rw [horigin] at hreport
        exact .inr hreport
  · obtain ⟨-, rfl⟩ := run_pure_iff.1 hrun
    exact ⟨none, rfl, by simp⟩

/-! ### All parts of a loop -/

/-- A run takes as many words as it puts. -/
theorem taken_of_run {α : Type} {x : Script α} {a : α}
    (hrun : x.run (runRule script fuel) fuel s = some (a, t)) :
    t.taken + (wordsOfAll s.parts.reverse).length = s.taken + (wordsOfAll t.parts.reverse).length := by
  have hkept : Sketch.HasWords (wordsOfAll s.parts.reverse ++ s.rest) t :=
    Sketch.kept_hasWords.run (s := s) rfl hrun Sketch.kept_hasWords.runRule
  have hlength := congrArg List.length hkept
  rw [List.length_append, List.length_append] at hlength
  have htaken := (Sketch.goesOn_of_run hrun).taken
  omega

/-- What a loop puts behind its body. -/
theorem parts_ending {k : Nat} (hs : Heard words.length .inner .body s) (htaken : s.taken = k)
    (hreports : t.reports.toList <+: problems)
    (hrun : (do if ← terminator .kwNext .kwFor then
                  closingVariable name?
                  lineEnd : Script Unit).run (runRule script fuel) fuel s = some (v, t)) :
    ∃ ending, t.parts = ending.reverse ++ s.parts ∧ Ending problems k name? ending := by
  obtain ⟨c, u, hu, hrun⟩ := run_bind_iff.1 hrun
  by_cases hk : s.current = some .kwNext
  · rw [run_terminator_of_eq hk] at hu
    cases hu
    obtain ⟨w, ws, hrest, hw⟩ := Reading.exists_rest hk
    have htake := Sketch.take_eq hrest
    have hloud : s.take.silenced = false := by
      rw [htake]
      exact hs.loud rfl
    have hword : s.take.taken = k + 1 := by rw [htake, htaken]
    have hbefore : s.take.parts = .word w :: s.parts := by rw [htake]
    obtain ⟨_, r, hr, hrun⟩ := run_bind_iff.1 hrun
    obtain ⟨closing?, hclosing, hcompared⟩ := parts_closingVariable hbefore hloud hr
    obtain ⟨errors, herrors, honly⟩ := parts_lineEnd hrun
    rw [hword] at hcompared
    have hfirst : r.reports.toList <+: problems := (Sketch.goesOn_of_run hrun).reports.trans hreports
    refine ⟨.word w :: (closing?.toList.map .node ++ errors.reverse), ?_, .next hw ?_ ?_⟩
    · rw [herrors, hclosing, hbefore]
      cases closing? <;> simp
    · intro d hd
      obtain ⟨y, hy, h⟩ := hcompared d hd
      exact ⟨y, hy, h.mono hfirst⟩
    · exact fun p hp => honly p (List.mem_reverse.1 hp)
  · rw [run_terminator_of_ne hk] at hu
    cases hu
    obtain ⟨-, rfl⟩ := run_pure_iff.1 hrun
    exact ⟨[], rfl, .missing⟩

/-- The first word, the variable and the bounds of a loop. -/
def loopHead : Script (Option (List Char)) := do
  take
  let name? ← loopVariable
  loopBounds
  lineEnd
  return name?

/-- The first line of a loop, its body and its end. -/
theorem loopParts_eq : loopParts = (do
    let name? ← loopHead
    blockBody [.kwNext]
    if ← terminator .kwNext .kwFor then
      closingVariable name?
      lineEnd) := by
  simp only [loopParts, loopHead, LawfulMonad.bind_assoc, LawfulMonad.pure_bind]

theorem hears_loopHead {started blamed : Bool} :
    Hears fuel words.length .inner (.word started blamed .kwFor) loopHead (.live true false) := by
  refine hears.bind hears.take_word fun _ =>
    hears.bind (walk_loopVariable (alike_texts losing_alone.toLosing)) fun _ => ?_
  refine hears.bind (walk_loopBounds hears.toLineRules) fun _ => ?_
  exact hears.bind (walk_finish hears.toLineRules) fun _ => hears.pure _

theorem parts_loopHead (hk : s.current = some .kwFor)
    (hrun : loopHead.run (runRule script fuel) fuel s.fresh = some (name?, t)) :
    ∃ opening, t.parts = opening.reverse ∧ Opened name? opening := by
  obtain ⟨_, a, ha, hrun⟩ := run_bind_iff.1 hrun
  obtain ⟨_, b, hb, hrun⟩ := run_bind_iff.1 hrun
  rw [← LawfulMonad.bind_assoc] at hrun
  obtain ⟨_, c, hc, hrun⟩ := run_bind_iff.1 hrun
  obtain ⟨rfl, rfl⟩ := run_pure_iff.1 hrun
  obtain ⟨opener, ws, hrest, hopener⟩ := Reading.exists_rest hk
  have htake : a.parts = [.word opener] := by
    rw [run_act_iff.1 ha]
    exact congrArg Sketch.parts (Sketch.take_eq (s := s.fresh) hrest)
  obtain ⟨named?, hvariable, hrefers⟩ := parts_loopVariable hb
  obtain ⟨bounds, hbounds, hbound⟩ := parts_loopBounds hc
  refine ⟨.word opener :: (named?.toList.map .node ++ bounds), ?_, .intro hopener hrefers hbound⟩
  rw [hbounds, hvariable, htake]
  cases named? <;> simp

/-- What the script of a loop puts. -/
theorem looped_of_fills {started blamed : Bool}
    (h : Fills words problems n .outer (.word started blamed .kwFor) loopParts ps) :
    Looped problems n ps := by
  obtain ⟨hs, htaken, -, hrun, hreports⟩ := h
  rename_i fuel s u
  rw [loopParts_eq] at hrun
  obtain ⟨name?, a, ha, hrun⟩ := run_bind_iff.1 hrun
  obtain ⟨_, b, hb, hrun⟩ := run_bind_iff.1 hrun
  have hbody : Heard words.length .inner .body b :=
    Heard.of_run (hears.blockBody (by decide)) hb (Heard.of_run hears_loopHead ha hs.fresh)
  obtain ⟨opening, hopening, hopened⟩ := parts_loopHead hs.sees ha
  obtain ⟨parts, hparts⟩ := Sketch.parts_node hb
  have hbefore : b.parts.reverse = opening ++ [.node (.node .stmtList parts)] := by
    rw [hparts, hopening, List.reverse_cons, List.reverse_reverse]
  have hwords : b.taken = n + (wordsOfAll b.parts.reverse).length := by
    have hhead := taken_of_run ha
    have hlist := taken_of_run hb
    have hfresh : (wordsOfAll s.fresh.parts.reverse).length = 0 := rfl
    have hstart : s.fresh.taken = n := htaken
    omega
  obtain ⟨ending, hend, hending⟩ := parts_ending hbody hwords hreports hrun
  rw [hbefore] at hending
  rw [hend, List.reverse_append, List.reverse_reverse, hbefore, List.append_assoc]
  exact .intro hopened rfl hending

end Grammar

end CRBasic
