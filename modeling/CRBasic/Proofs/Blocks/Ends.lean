import CRBasic.Proofs.Blocks.Heads
import CRBasic.Proofs.Blocks.Heard
import CRBasic.Proofs.Grammar.Lineal
import CRBasic.Proofs.Parsing.Termination

/-!
# Ends of blocks

A block that has ended holds one word that ends it, and one that has not holds none and is reported
(`filled_of_terminator`).  An `If` on one line needs no such word; what follows its head shows that it is
one (`onOneLine_eq`).
-/

namespace CRBasic

namespace Parsing

open Draft

variable {K kind : NodeKind} {s t u : Sketch} {ps qs hs : List (Piece Draft)} {w : Word}
  {ws : List Word} {k opener : TokenKind}

/-! ### The words of a block -/

theorem isTerminator_of_ends? (h : kind.ends? = some (k, opener)) : k.isTerminator := by
  cases kind <;> cases h <;> rfl

/-- Parts without a word that ends a block. -/
def Bare (ps : List (Piece Draft)) : Prop := ∀ w : Word, .word w ∈ ps → w.kind.isTerminator = false

theorem Bare.countP (h : Bare ps) : (ownWords ps).countP (·.kind.isTerminator) = 0 :=
  List.countP_eq_zero.2 fun w hw => by simp [h w (mem_ownWords.1 hw)]

/-- A block with the word that ends it. -/
theorem placed_closed (hends : kind.ends? = some (w.kind, opener)) (hps : Bare ps) (hqs : Bare qs) :
    (Draft.node kind (ps ++ .word w :: qs)).Placed := by
  have hwords : ownWords (ps ++ .word w :: qs) = ownWords ps ++ w :: ownWords qs :=
    ownWords_append _ _
  refine ⟨.inr ⟨fun v hv hend => ?_, ?_⟩, trivial⟩
  · rw [pieces, hwords, List.mem_append, List.mem_cons] at hv
    rcases hv with hv | rfl | hv
    · rw [hps v (mem_ownWords.1 hv)] at hend
      cases hend
    · exact ⟨opener, hends⟩
    · rw [hqs v (mem_ownWords.1 hv)] at hend
      cases hend
  · rw [pieces, hwords, List.countP_append, List.countP_cons, hps.countP, hqs.countP]
    split <;> decide

theorem ownUnclosed_closed {inBranch : Bool} (hends : kind.ends? = some (w.kind, opener)) :
    ownUnclosed kind inBranch (ps ++ .word w :: qs) = [] := by
  have hany : (ownWords (ps ++ .word w :: qs)).any (fun v => kind.ends?.any (·.1 == v.kind)) = true := by
    refine List.any_eq_true.2 ⟨w, mem_ownWords.2 ?_, by simp [hends]⟩
    exact List.mem_append_right _ List.mem_cons_self
  rw [ownUnclosed, if_pos hany]
  split <;> rfl

theorem ownUnclosed_of_bare {inBranch : Bool} (hends : kind.ends? = some (k, opener)) (hps : Bare ps)
    (hline : kind = .ifStmt → onOneLine inBranch ps = false) :
    ownUnclosed kind inBranch ps = [.unclosedBlock k opener] := by
  have hopen : (kind.ends?.isNone || (kind == .ifStmt && onOneLine inBranch ps)) = false := by
    rw [hends]
    by_cases hkind : kind = .ifStmt
    · simp [hline hkind]
    · simp [hkind]
  have hany : ¬ (ownWords ps).any (fun v => kind.ends?.any (·.1 == v.kind)) = true := by
    rw [List.any_eq_true]
    rintro ⟨v, hv, hkind⟩
    have hbare := hps v (mem_ownWords.1 hv)
    rw [hends, Option.any_some, beq_iff_eq] at hkind
    rw [← hkind, isTerminator_of_ends? hends] at hbare
    cases hbare
  rw [ownUnclosed, if_neg (by rw [hopen]; decide), if_neg hany, hends]
  rfl

/-! ### The end of a block -/

namespace Reading

/-- The report of a problem at the next word. -/
def reportAtWord (s : Reading) (cause : Cause) : Report :=
  ⟨cause, .startAfter s.taken, .endOf (s.taken + 1)⟩

theorem report_word {s : Reading} (hs : s.silenced = false) (cause : Cause) :
    s.report .word cause = { s with reports := s.reports.push (s.reportAtWord cause) } := by
  rw [report, hs]
  rfl

end Reading

namespace Laid

/-- A block with the word that ends it. -/
theorem closed (h : Laid kind false s.fresh t ps) (hrest : t.rest = w :: ws)
    (hends : kind.ends? = some (w.kind, opener)) (h' : Laid kind false t.take u qs)
    (hfits : Clean s.toReading u.toReading → kind.Fits (ps ++ .word w :: qs)) :
    Filled kind s.inBranch false s u (ps ++ .word w :: qs) ∧
      u.parts = (ps ++ .word w :: qs).reverse := by
  have hgoes : t.toReading.GoesOn t.take.toReading := Sketch.goesOn_take (.refl _)
  have htake := Sketch.take_eq hrest
  refine ⟨⟨h.goes_of_fresh.trans (hgoes.trans h'.goes), ?_, ?_, ?_, ?_⟩, ?_⟩
  · have hwords : s.rest = wordsOfAll ps ++ t.rest := h.words
    have hwords' : ws = wordsOfAll qs ++ u.rest := by
      rw [← h'.words, htake]
    rw [hwords, hrest, hwords', wordsOfAll_append, wordsOfAll, List.append_assoc, List.cons_append]
  · refine all_iff.2 ⟨placed_closed hends h.bare h'.bare, fun d hd => ?_⟩
    have hd : .node d ∈ ps ∨ .node d ∈ qs := by simpa [pieces] using hd
    exact hd.elim (h.placed d) (h'.placed d)
  · obtain ⟨rs, hrs, hmarks, hcauses⟩ := h.unclosed
    obtain ⟨rs', hrs', hmarks', hcauses'⟩ := h'.unclosed
    have hsame : t.take.unclosed = t.unclosed := by rw [htake]; rfl
    have hbranch : t.take.inBranch = s.inBranch := inBranch_of_goesOn (h.goes_of_fresh.trans hgoes)
    refine ⟨rs ++ rs', ?_, ?_, ?_⟩
    · rw [hrs', hsame, hrs, List.append_assoc]
      rfl
    · exact hmarks.append (hmarks'.mono hgoes.taken_le (Nat.le_refl _)) h.goes_of_fresh.taken_le
        (Nat.le_trans hgoes.taken_le h'.goes.taken_le)
    · rw [List.map_append, hcauses, hcauses', hbranch, Draft.unclosed, ownUnclosed_closed hends,
        List.append_nil, unclosedOfAll_append]
      rfl
  · intro _ hclean
    have hclean' : Clean s.fresh.toReading u.toReading := ⟨hclean.heard, hclean.reports, hclean.words⟩
    have hfirst := hclean'.first (hgoes.trans h'.goes)
    obtain ⟨ht, hps⟩ := h.fits rfl hfirst
    have hheard : t.take.silenced = false := by rw [htake]; exact ht
    have hsecond := hclean'.second (h.goes.trans hgoes) hheard
    obtain ⟨hu, hqs⟩ := h'.fits rfl hsecond
    refine ⟨hu, all_iff.2 ⟨hfits hclean, fun d hd => ?_⟩⟩
    have hd : .node d ∈ ps ∨ .node d ∈ qs := by simpa [pieces] using hd
    exact hd.elim (hps d) (hqs d)
  · rw [h'.parts, htake, h.parts_of_fresh]
    simp

/-- A block without the word that ends it is reported. -/
theorem unended (h : Laid kind false s.fresh t ps) (hends : kind.ends? = some (k, opener))
    (hheard : t.silenced = false) (hline : kind = .ifStmt → onOneLine s.inBranch ps = false) :
    Filled kind s.inBranch false s (t.perform (.report .word (.unclosedBlock k opener))) ps := by
  have hreport := Reading.report_word hheard (.unclosedBlock k opener)
  change Filled kind s.inBranch false s
    { t with toReading := t.toReading.report .word (.unclosedBlock k opener) } ps
  have hgoes := h.goes_of_fresh.report .word (.unclosedBlock k opener)
  rw [hreport] at hgoes ⊢
  refine ⟨hgoes, h.words, all_iff.2 ⟨placed_of_bare h.bare trivial, h.placed⟩, ?_, fun _ hclean => ?_⟩
  · obtain ⟨rs, hrs, hmarks, hcauses⟩ := h.unclosed
    have hrs : t.unclosed = s.unclosed ++ rs := hrs
    refine ⟨rs ++ [t.reportAtWord (.unclosedBlock k opener)], ?_, ?_, ?_⟩
    · rw [← List.append_assoc, ← hrs]
      simp [Reading.unclosed, Reading.reportAtWord, Cause.isUnclosed]
    · refine hmarks.append ⟨[t.taken], rfl, List.pairwise_singleton _ _, ?_⟩
        h.goes_of_fresh.taken_le (Nat.le_refl _)
      simp
    · rw [List.map_append, hcauses, Draft.unclosed, ownUnclosed_of_bare hends h.bare hline]
      rfl
  · have hreports := hclean.reports
    simp at hreports

/-- An `If` on one line. -/
theorem oneLine (h : Laid .ifStmt false s.fresh t ps) (hline : onOneLine s.inBranch ps = true)
    (hfits : Clean s.toReading t.toReading → NodeKind.ifStmt.Fits ps) :
    Filled .ifStmt s.inBranch false s t ps := by
  refine h.filled ?_ fun _ => hfits
  rw [ownUnclosed, hline]
  rfl

end Laid

end Parsing

namespace Grammar

open Parsing Parsing.Script Draft

variable {K kind : NodeKind} {fuel total : Nat} {s t u : Sketch} {ps hs qs : List (Piece Draft)}
  {k opener : TokenKind} {stops : List TokenKind} {α : Type}

/-- The end of a block: it has ended, or is reported. -/
theorem filled_of_terminator {y : Script Unit} (h : Laid kind false s.fresh t ps)
    (hends : kind.ends? = some (k, opener)) (hheard : t.silenced = false)
    (hline : kind = .ifStmt → onOneLine s.inBranch ps = false)
    (hy : Lays fuel kind false none y Free)
    (hfits : Clean s.toReading t.toReading → ∀ qs, kind.Fits (ps ++ qs))
    (hrun : (do if ← terminator k opener then y).run (runRule script fuel) fuel t = some ((), u)) :
    ∃ qs, Filled kind s.inBranch false s u qs ∧ u.parts = qs.reverse := by
  obtain ⟨c, v, hv, hrun⟩ := run_bind_iff.1 hrun
  by_cases hk : t.current = some k
  · obtain ⟨w, ws, hrest, rfl⟩ := Reading.exists_rest hk
    rw [run_terminator_of_eq hk] at hv
    cases hv
    obtain ⟨qs, hqs, -⟩ := hy t.take () u hrun (knows_none _)
    refine ⟨_, h.closed hrest hends hqs fun hclean => hfits ⟨hclean.heard, ?_, hclean.words⟩ _⟩
    exact ((Sketch.goesOn_take (.refl _)).trans hqs.goes).reports_eq_nil hclean.reports
  · rw [run_terminator_of_ne hk] at hv
    cases hv
    obtain ⟨-, rfl⟩ := run_pure_iff.1 hrun
    exact ⟨ps, h.unended hends hheard hline, h.parts_of_fresh⟩

/-! ### Statements take words -/

/-- The state of which a sketch shows the parts. -/
def stateOf (s : Sketch) : State :=
  { s with
    events := (eventsOfAll s.parts.reverse).toArray
    latest := Sketch.latestOf 0 s.parts }

theorem depicts_stateOf (s : Sketch) : Sketch.Depicts [] (stateOf s) s := ⟨rfl, rfl, rfl⟩

/-- A statement at a word takes that word. -/
theorem length_lt_of_statement (hs : s.rest ≠ [])
    (hrun : statement.run (runRule script fuel) fuel s = some ((), t)) :
    t.rest.length < s.rest.length := by
  obtain ⟨v, ws, hws, hne, hv, -⟩ := statement_takes (s := stateOf s) hs
  obtain ⟨u, hu, hvu⟩ := Sketch.simulation.runRule (depicts_stateOf s) (hv _ (Nat.le_refl _))
  have ht : Yields script statement s () t := ⟨fuel, hrun⟩
  have hu : Yields script statement s () u := ⟨_, run_call_iff.2 hu⟩
  obtain ⟨-, rfl⟩ := ht.unique hu
  have hrest : t.rest = v.rest := by rw [hvu.reading]
  have hlength : s.rest.length = (ws ++ v.rest).length := congrArg List.length hws
  rw [hlength, hrest, List.length_append]
  have := List.length_pos_iff.2 hne
  omega

/-! ### One line and more -/

/-- Where the head of an `If` ends, its form can be told. -/
theorem onOneLine_eq {body : Draft} {inBranch : Bool} (hhead : NoBody hs)
    (hbody : body.kind = .stmtList) : onOneLine inBranch (hs ++ .node body :: qs) =
      match wordsOfAll (.node body :: qs) with
      | [] => false
      | w :: _ => !(wordsOfAll hs).isEmpty && !w.startsLine &&
          (!body.words.isEmpty || (!inBranch && w.kind == .kwElse)) := by
  have hhs : ∀ p ∈ hs, (!Draft.isBody p) = true := by
    intro p hp
    cases p with
    | word w => rfl
    | node d => simpa [Draft.isBody] using hhead d hp
  have hfirst : ¬ (!Draft.isBody (.node body)) = true := by simp [Draft.isBody, hbody]
  rw [onOneLine, List.dropWhile_append_of_pos hhs, List.takeWhile_append_of_pos hhs,
    List.dropWhile_cons_of_neg (p := (!Draft.isBody ·)) hfirst,
    List.takeWhile_cons_of_neg (p := (!Draft.isBody ·)) hfirst, List.append_nil, wordsOfAll_append,
    List.drop_left]
  cases wordsOfAll (.node body :: qs) <;> rfl

theorem atEnd_of_lineEnd {v : Unit} (hrun : lineEnd.run (runRule script fuel) fuel s = some (v, t)) :
    AtEnd t := by
  have hlisten {s t : Sketch} (hs : AtEnd s) (hrun : listen.run (runRule script fuel) fuel s = some (v, t)) :
      AtEnd t := by
    obtain rfl := run_act_iff.1 hrun
    exact hs
  have htake {s t : Sketch} (hrun : (do node .errorNode takeLine; listen).run (runRule script fuel) fuel s =
      some (v, t)) : AtEnd t := by
    obtain ⟨_, u, hu, hrun⟩ := run_bind_iff.1 hrun
    obtain ⟨w, hw, rfl⟩ := run_within_iff.1 hu
    refine hlisten ?_ hrun
    exact (takeLine_embed (c := .alone) rfl [] hw).2.1
  by_cases hend : AtEnd s
  · rw [lineEnd, run_statementEnds_of_atEnd hend] at hrun
    exact hlisten hend hrun
  · rw [lineEnd, run_statementEnds_of_not hend] at hrun
    obtain ⟨o, u, hu, hrun⟩ := run_bind_iff.1 hrun
    split at hrun
    · exact htake hrun
    · exact htake hrun
    · obtain ⟨_, v, -, hrun⟩ := run_bind_iff.1 hrun
      exact htake hrun

end Grammar

end CRBasic
