import CRBasic.Proofs.Embedding.Texts
import CRBasic.Proofs.Tree.Nodes

/-!
# A text as the body of a block

A text without a problem is read in the body of a block as it is read alone (`ReadsAs.blockBody`).  In
the branch of an `If` this holds of a text without a bare one-line `If`: its `Else` would end the branch.
-/

namespace CRBasic

namespace Draft

/-- A one-line `If` without a statement before its `Else` is among some parts, or inside one. -/
def HasBare (ps : List (Piece Draft)) : Prop :=
  ∃ d e : Draft, .node e ∈ ps ∧ d.Inside e ∧ d.IsBare

variable {ps qs inner outer : List (Piece Draft)} {kind : NodeKind} {d : Draft}

theorem HasBare.mono (h : HasBare ps) (hsub : ∀ p ∈ ps, p ∈ qs) : HasBare qs := by
  obtain ⟨d, e, he, hinside, hbare⟩ := h
  exact ⟨d, e, hsub _ he, hinside, hbare⟩

theorem HasBare.cons (h : HasBare ps) (p : Piece Draft) : HasBare (p :: ps) :=
  h.mono fun _ hq => List.mem_cons_of_mem p hq

theorem HasBare.inNode (h : HasBare inner) : HasBare (.node (.node kind inner.reverse) :: outer) := by
  obtain ⟨d, e, he, hinside, hbare⟩ := h
  exact ⟨d, _, List.mem_cons_self, .node (List.mem_reverse.2 he) hinside, hbare⟩

theorem HasBare.inAround (h : HasBare inner) :
    HasBare (.node (.around kind d inner.reverse) :: outer) := by
  obtain ⟨d, e, he, hinside, hbare⟩ := h
  exact ⟨d, _, List.mem_cons_self, .around (List.mem_reverse.2 he) hinside, hbare⟩

end Draft

/-- The options with which a text is read in the body of a block as with the given ones alone. -/
def ParseOptions.deeper (options : ParseOptions) : ParseOptions :=
  { options with maxDepth := options.maxDepth + 1 }

namespace Parsing

open Draft Grammar Script

namespace Sketch

variable {ps inner outer : List (Piece Draft)} {kind : NodeKind} {s t : Sketch}

theorem hasBare_putAround (h : HasBare outer) : HasBare (putAround kind inner outer) := by
  unfold putAround
  split
  · next d before =>
    obtain ⟨b, e, he, hinside, hbare⟩ := h
    rcases List.mem_cons.1 he with heq | he
    · obtain rfl := Piece.node.inj heq
      exact ⟨b, _, List.mem_cons_self, .first hinside, hbare⟩
    · exact ⟨b, e, List.mem_cons_of_mem _ he, hinside, hbare⟩
  · exact h.cons _

theorem hasBare_leave {scope : Scope} (h : HasBare t.parts) :
    HasBare (Machine.leave t (Machine.begin s scope).1 scope).parts := by
  cases scope with
  | node kind => exact h.inNode
  | wrap kind =>
    change HasBare (putAround kind t.parts s.parts)
    unfold putAround
    split
    · exact h.inAround
    · exact h.inNode
  | stopAt kinds => exact h
  | nested => exact h
  | measured => exact h

/-- A bare `If` that has been read stays. -/
theorem kept_hasBare : Kept fun (p : Prop) (s : Sketch) => p → HasBare s.parts where
  perform {p s} a h hp := by
    cases a with
    | take =>
      change HasBare s.take.parts
      rw [take]
      split
      · exact h hp
      · exact (h hp).cons _
    | report place cause => exact h hp
    | silence => exact h hp
    | listen => exact h hp
  stretch {p s} scope h := by
    cases scope with
    | node kind => exact ⟨False, False.elim, fun _ _ hp => (h hp).cons _⟩
    | wrap kind => exact ⟨False, False.elim, fun _ _ hp => hasBare_putAround (h hp)⟩
    | stopAt kinds => exact ⟨p, h, fun _ ht => ht⟩
    | nested => exact ⟨p, h, fun _ ht => ht⟩
    | measured => exact ⟨p, h, fun _ ht => ht⟩

end Sketch

/-- What is lost in the body of a block: a problem, or a bare `If` in a branch. -/
def Spoiled (c : Setting) (s : Sketch) : Prop :=
  s.reports ≠ #[] ∨ (c.ends .kwElse ∧ HasBare s.parts)

theorem losing_spoiled (c : Setting) : LosingBlocks c (Spoiled c) where
  kept {_ _ _ s t _} hrun hs := by
    rcases hs with hs | ⟨hends, hs⟩
    · exact .inl fun ht => hs ((Sketch.goesOn_of_run hrun).reports_eq_nil ht)
    · exact .inr ⟨hends, Sketch.kept_hasBare.run (fun _ => hs) hrun Sketch.kept_hasBare.runRule trivial⟩
  leave {s t scope} ht := by
    refine ht.imp (fun ht => ?_) fun ht => ⟨ht.1, Sketch.hasBare_leave ht.2⟩
    rwa [(leave_same t _ scope).2.2.2]
  report _ hs := .inl hs
  unclosed _ hr _ := .inl fun hnil => by simp [hnil] at hr
  bare hends hd hbare := .inr ⟨hends, _, _, hd, .refl _, hbare⟩

/-- The setting of a text that is the body of a block. -/
def Setting.body (stops : List TokenKind) (taken : Nat) (w : Word) (ws : List Word)
    (hw : w.startsLine) (hstops : ∀ k ∈ stops, k.closes) : Setting where
  post := w :: ws
  frames := [stops]
  depth := 1
  taken := taken
  startsLine := by
    rintro _ ⟨⟩
    exact hw
  closes := by
    rintro _ hks
    rwa [List.mem_singleton.1 hks]

/-- The setting of a text that is the body of a block with no words after it. -/
def Setting.openBody (stops : List TokenKind) (taken : Nat) (hstops : ∀ k ∈ stops, k.closes) :
    Setting where
  frames := [stops]
  depth := 1
  taken := taken
  startsLine := by rintro _ ⟨⟩
  closes := by
    rintro _ hks
    rwa [List.mem_singleton.1 hks]

/-- The sketch among the statements of a text in which no problem has been found. -/
def Sketch.amid (options : ParseOptions) (taken : Nat) (rest : List Word)
    (parts : List (Piece Draft)) : Sketch where
  options := options
  rest := rest
  taken := taken
  parts := parts

/-- A body starts a line, and so does the end of an empty one. -/
theorem startsLine_of_body {body : List Word} {w : Word} (hline : ∀ v ∈ body.head?, v.startsLine)
    (hw : w.startsLine) : ∀ v ∈ (body ++ [w]).head?, v.startsLine := by
  cases body with
  | nil => rintro _ ⟨⟩; exact hw
  | cons v vs => exact hline

section

variable {options : ParseOptions} {words : List Word} {parts : List (Piece Draft)}
  (h : ReadsAs options words parts []) (hwords : ∀ w ∈ words, w.kind ≠ .error)
  {stops : List TokenKind} (hstops : ∀ k ∈ stops, k.closes) (taken : Nat)
  (before : List (Piece Draft))
include h hwords

/-- A text without a problem is the body of a block where the body ends with the text. -/
theorem ReadsAs.yields_blockBody {c : Setting} (hframes : c.frames = [stops]) (hdepth : c.depth = 1)
    (hreports : c.reports = #[]) (hbare : .kwElse ∈ stops → ¬ HasBare parts)
    (hend : ∀ w ∈ c.post.head?, w.kind ∈ stops) :
    Yields Grammar.script (Grammar.blockBody stops)
      (Sketch.amid options.deeper c.taken (words ++ c.post) before) ()
      (Sketch.amid options.deeper (c.taken + words.length) c.post
        (.node (.node .stmtList parts) :: before)) := by
  have hends (k : TokenKind) : c.ends k = stops.contains k := by simp [Setting.ends, hframes]
  have hnot : ¬ Spoiled c (Sketch.after options words parts []) := by
    rintro (hreports | ⟨helse, hhas⟩)
    · exact hreports rfl
    · rw [hends, List.contains_iff_mem] at helse
      exact hbare helse (hhas.mono fun p => List.mem_reverse.1)
  have hloop : Yields Grammar.script (whileM continuesBody statement)
      (c.embed [] (Sketch.initial options words)) ()
      (c.embed [] (Sketch.after options words parts [])) := by
    refine h.embed (losing_spoiled c) (fun s hrest hframes hnone => ⟨0, ?_⟩) (fun _ => hwords) hnot ?_
    · have hsome : s.current.isSome := by
        rwa [Option.isSome_iff_ne_none, ne_eq, Reading.current_eq_none]
      have hstop : s.atStop = false := by
        rw [Reading.atStop]
        cases s.current <;> simp [Reading.isStop, hframes]
      rw [run_continuesBody, Setting.current_embed hrest, Setting.atStop_embed hrest, hnone, hsome,
        hstop]
      rfl
    · refine yields_whileM_nil ⟨0, ?_⟩
      have hcurrent : (c.embed [] (Sketch.after options words parts [])).current =
          c.post.head?.map (·.kind) := rfl
      have hstop : ((c.embed [] (Sketch.after options words parts [])).current.isSome &&
          !(c.embed [] (Sketch.after options words parts [])).atStop) = false := by
        rw [Reading.atStop, hcurrent]
        cases hpost : c.post.head? with
        | none => rfl
        | some w =>
          rw [Option.map_some, Option.any_some, Setting.isStop_embed, hends,
            List.contains_iff_mem.2 (hend w hpost), Bool.or_true]
          rfl
      rw [run_continuesBody, hstop]
  have hstart : c.embed [] (Sketch.initial options words) = (Machine.begin (Machine.begin
      (Machine.begin (Sketch.amid options.deeper c.taken (words ++ c.post) before)
        (.node .stmtList)).2 (.stopAt stops)).2 .nested).2 := by
    simp [Setting.embed, Setting.read, Sketch.initial, Machine.begin, Sketch.begin, Reading.enter,
      Sketch.amid, ParseOptions.deeper, hframes, hdepth, hreports]
  rw [hstart] at hloop
  have hend : Machine.leave (Machine.leave (Machine.leave
      (c.embed [] (Sketch.after options words parts [])) [] .nested) [] (.stopAt stops)) before
        (.node .stmtList) = Sketch.amid options.deeper (c.taken + words.length) c.post
          (.node (.node .stmtList parts) :: before) := by
    simp [Setting.embed, Setting.read, Sketch.after, Machine.leave, Sketch.leave, Reading.leave,
      Sketch.amid, ParseOptions.deeper, hframes, hdepth, hreports]
  rw [← hend]
  change Yields _ (within (.node .stmtList) (within (.stopAt stops) (within .nested _))) _ _ _
  exact hloop.within.within.within

include hstops

/-- A text without a problem, which ends at a word that ends a block, is the body of the block. -/
theorem ReadsAs.blockBody (hbare : .kwElse ∈ stops → ¬ HasBare parts) {w : Word}
    (hline : w.startsLine) (hw : w.kind ∈ stops) (ws : List Word) :
    Yields Grammar.script (Grammar.blockBody stops)
      (Sketch.amid options.deeper taken (words ++ w :: ws) before) ()
      (Sketch.amid options.deeper (taken + words.length) (w :: ws)
        (.node (.node .stmtList parts) :: before)) := by
  have hend : ∀ v ∈ (Setting.body stops taken w ws hline hstops).post.head?, v.kind ∈ stops := by
    rintro _ ⟨⟩
    exact hw
  exact h.yields_blockBody hwords before (c := .body stops taken w ws hline hstops) rfl rfl rfl hbare
    hend

/-- A text without a problem, which ends with the text that the block stands in, is the body of the
block. -/
theorem ReadsAs.blockBody_atEnd (hbare : .kwElse ∈ stops → ¬ HasBare parts) :
    Yields Grammar.script (Grammar.blockBody stops)
      (Sketch.amid options.deeper taken words before) ()
      (Sketch.amid options.deeper (taken + words.length) []
        (.node (.node .stmtList parts) :: before)) := by
  have hbody := h.yields_blockBody hwords before (c := .openBody stops taken hstops) rfl rfl rfl hbare
    nofun
  simpa [Setting.openBody] using hbody

end

end Parsing

end CRBasic
