import CRBasic.Proofs.Grammar.Modes
import CRBasic.Proofs.Parsing.Putting
import CRBasic.Proofs.Parsing.Runs

/-!
# A text in a larger one

A `Setting` is what surrounds a text that is part of a larger one: the words after it, and what has
been read before it.  `Setting.embed` turns a sketch of the text into one of the larger text.  Steps
on the two agree as long as a word of the text is next (`perform_take`, `leave_stopAt` and so on);
what is asked about the line has the same answer even at the end of the text, because the words after
it start a line (`onLine_embed`).
-/

namespace CRBasic

theorem Edge.shift_shift (m n : Nat) (e : Edge) : (e.shift m).shift n = e.shift (n + m) := by
  cases e <;> simp [shift, Nat.add_assoc]

/-- The same report in a count that starts `n` words earlier. -/
def Report.shift (n : Nat) (r : Report) : Report := ⟨r.cause, r.start.shift n, r.stop.shift n⟩

theorem Report.shift_zero (r : Report) : r.shift 0 = r := by
  obtain ⟨_, start, stop⟩ := r
  cases start <;> cases stop <;> simp [shift, Edge.shift]

namespace Parsing

/-- What surrounds a text in a larger one. -/
structure Setting where
  /-- The words after the text. -/
  post : List Word := []
  /-- The kinds that end the blocks around the text. -/
  frames : List (List TokenKind) := []
  /-- The number of blocks around the text. -/
  depth : Nat := 0
  /-- The number of words before the text. -/
  taken : Nat := 0
  /-- The problems found before the text. -/
  reports : Array Report := #[]
  startsLine : ∀ w ∈ post.head?, w.startsLine
  closes : ∀ ks ∈ frames, ∀ k ∈ ks, k.closes

namespace Setting

variable (c : Setting)

/-- What a parse of the larger text has read and found, from what a parse of the text has. -/
def read (s : Reading) : Reading where
  options := { s.options with maxDepth := s.options.maxDepth + c.depth }
  rest := s.rest ++ c.post
  taken := c.taken + s.taken
  reports := c.reports ++ s.reports.map (·.shift c.taken)
  frames := s.frames ++ c.frames
  depth := s.depth + c.depth
  silenced := s.silenced
  origins := s.origins.map (c.taken + ·)

/-- The sketch of the larger text, where the open node had some parts before the text. -/
def embed (before : List (Piece Draft)) (s : Sketch) : Sketch where
  toReading := c.read s.toReading
  parts := s.parts ++ before

/-- Whether a kind ends the statements of a block around the text. -/
def ends (k : TokenKind) : Bool := c.frames.any (·.contains k)

variable {c} {before : List (Piece Draft)} {s : Sketch} {k : TokenKind} {w : Word} {ws : List Word}

theorem closes_of_ends (h : c.ends k) : k.closes := by
  obtain ⟨ks, hks, hk⟩ := List.any_eq_true.1 h
  exact c.closes ks hks k (List.contains_iff_mem.1 hk)

theorem frames_ne_nil_of_ends (h : c.ends k) : c.frames ≠ [] := by
  intro hframes
  rw [ends, hframes] at h
  cases h

/-! ### Answers -/

@[simp] theorem onLine_embed : (c.embed before s).onLine = s.onLine := by
  change (c.read s.toReading).onLine = s.onLine
  unfold Reading.onLine read
  cases hrest : s.rest with
  | nil =>
    cases hpost : c.post with
    | nil => rfl
    | cons w ws =>
      have hw := c.startsLine w (by rw [hpost]; rfl)
      simp [hw]
  | cons w ws => rfl

theorem rest_embed (h : s.rest = w :: ws) : (c.embed before s).rest = w :: (ws ++ c.post) := by
  change s.rest ++ c.post = _
  rw [h, List.cons_append]

theorem current_embed (h : s.rest ≠ []) : (c.embed before s).current = s.current := by
  obtain ⟨w, ws, hrest⟩ := List.exists_cons_of_ne_nil h
  rw [Reading.current, Reading.current, rest_embed hrest, hrest]
  rfl

theorem text_embed (h : s.rest ≠ []) : (c.embed before s).text = s.text := by
  obtain ⟨w, ws, hrest⟩ := List.exists_cons_of_ne_nil h
  rw [Reading.text, Reading.text, rest_embed hrest, hrest]
  rfl

theorem secondOnLine_embed (h : s.rest ≠ []) :
    (c.embed before s).secondOnLine = s.secondOnLine := by
  obtain ⟨w, ws, hrest⟩ := List.exists_cons_of_ne_nil h
  have hnext (v : Word) (vs : List Word) (t : Reading) (ht : t.rest = v :: vs) :
      t.secondOnLine = { t with rest := vs }.onLine := by
    unfold Reading.secondOnLine Reading.onLine
    rw [ht]
    cases vs <;> rfl
  have honLine : (c.embed before { s with rest := ws }).onLine = { s with rest := ws }.onLine :=
    onLine_embed
  rw [hnext _ _ _ hrest, hnext _ _ _ (rest_embed hrest)]
  exact honLine

theorem isStop_embed : (c.embed before s).isStop k = (s.isStop k || c.ends k) :=
  List.any_append

theorem atStop_embed (h : s.rest ≠ []) :
    (c.embed before s).atStop = (s.atStop || s.current.any c.ends) := by
  rw [Reading.atStop, current_embed h, Reading.atStop]
  cases s.current with
  | none => rfl
  | some k => exact isStop_embed

/-- Where no block is open around the text, the same words end statements. -/
theorem atStop_embed_of_nil (hframes : c.frames = []) (h : s.rest ≠ []) :
    (c.embed before s).atStop = s.atStop := by
  have hends (k : TokenKind) : c.ends k = false := by rw [ends, hframes]; rfl
  rw [atStop_embed h]
  cases s.current <;> simp [hends]

theorem line_embed (h : s.rest ≠ []) : Word.line (c.embed before s).rest = Word.line s.rest := by
  obtain ⟨w, ws, hrest⟩ := List.exists_cons_of_ne_nil h
  rw [rest_embed hrest, hrest, Word.line, Word.line]
  congr 1
  have hpost : c.post.takeWhile (!·.startsLine) = [] := by
    cases hpost : c.post with
    | nil => rfl
    | cons v vs =>
      have hv := c.startsLine v (by rw [hpost]; rfl)
      simp [hv]
  clear hrest
  induction ws with
  | nil => exact hpost
  | cons v vs ih =>
    rw [List.cons_append, List.takeWhile_cons, List.takeWhile_cons]
    split
    · rw [ih]
    · rfl

theorem tooDeep_embed : (c.embed before s).tooDeep = s.tooDeep := by
  simp [Reading.tooDeep, embed, read]

theorem measuredWords_embed (h : s.origins ≠ []) :
    (c.embed before s).measuredWords = s.measuredWords := by
  obtain ⟨o, os, horigins⟩ := List.exists_cons_of_ne_nil h
  simp [Reading.measuredWords, Reading.origin, embed, read, horigins, Nat.add_sub_add_left]

/-! ### Steps -/

theorem take_embed (h : s.rest ≠ []) : (c.embed before s).take = c.embed before s.take := by
  obtain ⟨w, ws, hrest⟩ := List.exists_cons_of_ne_nil h
  rw [Sketch.take_eq hrest, Sketch.take_eq (rest_embed hrest)]
  rfl

/-- The place of a report means the same in the larger text. -/
def Marks (s : Sketch) : Place → Prop
  | .between _ _ => s.origins ≠ []
  | .here | .word => True

theorem edges_embed {place : Place} (h : Marks s place) :
    (c.embed before s).edges place =
      (((s.edges place).1).shift c.taken, ((s.edges place).2).shift c.taken) := by
  cases place with
  | here =>
    simp only [Reading.edges, onLine_embed]
    split <;> rfl
  | word => rfl
  | between start stop =>
    obtain ⟨o, os, horigins⟩ := List.exists_cons_of_ne_nil h
    simp [Reading.edges, Reading.origin, embed, read, horigins, Edge.shift_shift]

theorem report_embed {place : Place} {cause : Cause} (h : Marks s place) :
    (c.embed before s).perform (.report place cause) =
      c.embed before (s.perform (.report place cause)) := by
  have hedges : (c.embed before s).edges place = _ := edges_embed h
  change (c.read s.toReading).edges place = _ at hedges
  have hreport : (c.read s.toReading).report place cause =
      c.read (s.toReading.report place cause) := by
    rw [Reading.report, Reading.report, hedges]
    change (if s.silenced then _ else _) = _
    split
    · rfl
    · simp [read, Report.shift]
  change { c.embed before s with toReading := (c.read s.toReading).report place cause } = _
  rw [hreport]
  rfl

theorem wrap_embed {kind : NodeKind} {u : Sketch}
    (h : before = [] ∨ ∃ d ps, s.parts = .node d :: ps) :
    (c.embed [] u).leave (c.embed before s).parts (.wrap kind) =
      c.embed before (u.leave s.parts (.wrap kind)) := by
  have hparts : Sketch.putAround kind (u.parts ++ []) (s.parts ++ before) =
      Sketch.putAround kind u.parts s.parts ++ before := by
    rw [List.append_nil]
    rcases h with rfl | ⟨d, ps, hs⟩
    · simp only [List.append_nil]
    · rw [hs]
      rfl
  change { c.embed [] u with parts := Sketch.putAround kind (u.parts ++ []) (s.parts ++ before) } = _
  rw [hparts]
  rfl

theorem node_embed {kind : NodeKind} {u : Sketch} :
    (c.embed [] u).leave (c.embed before s).parts (.node kind) =
      c.embed before (u.leave s.parts (.node kind)) := by
  simp [Sketch.leave, embed, read]

theorem leave_stopAt {kinds : List TokenKind} {u : Sketch} {mark mark' : List (Piece Draft)}
    (h : u.frames ≠ []) :
    (c.embed before u).leave mark (.stopAt kinds) = c.embed before (u.leave mark' (.stopAt kinds)) := by
  simp [Sketch.leave, Reading.leave, embed, read, List.tail_append_of_ne_nil h]

theorem leave_nested {u : Sketch} {mark mark' : List (Piece Draft)} (h : 0 < u.depth) :
    (c.embed before u).leave mark .nested = c.embed before (u.leave mark' .nested) := by
  simp [Sketch.leave, Reading.leave, embed, read, Nat.sub_add_comm h]

theorem leave_measured {u : Sketch} {mark mark' : List (Piece Draft)} :
    (c.embed before u).leave mark .measured = c.embed before (u.leave mark' .measured) := by
  simp [Sketch.leave, Reading.leave, embed, read, List.map_tail]

end Setting

end Parsing

end CRBasic
