import CRBasic.Proofs.Blocks.Draft
import CRBasic.Proofs.Grammar.Edges
import CRBasic.Proofs.Parsing.Putting
import CRBasic.Proofs.Parsing.Runs

/-!
# Words on one line

Some words of a text lie on one line if none of them starts a line.  A sketch is `Tidy` if the nodes of
the kinds that stand on one line do so in its parts, and if the place of each of its reports is within a
line.  What a run takes lies between two counts of words (`Tidy.words_of_run`).
-/

namespace CRBasic

/-- Kinds of node that stand on one line. -/
def NodeKind.isLine : NodeKind → Bool
  | .assignment | .functionCall | .callStmt | .variableDecl | .declarator | .dimensionList
  | .constDecl | .aliasDecl | .unitsDecl | .typeRef | .paramList | .param | .argList | .returnStmt
  | .exitStmt | .menuItem | .callTableStmt | .preprocessorUndef | .includeDirective | .binaryExpr
  | .unaryExpr | .parenExpr | .identifier | .numberLiteral | .stringLiteral | .booleanLiteral
  | .errorNode => true
  | _ => false

/-! ### Words -/

namespace Word

variable {words : List Word} {l m n m' n' : Nat}

/-- None of the words after the first `m` and among the first `n` starts a line. -/
def OnLine (words : List Word) (m n : Nat) : Prop :=
  ∀ i w, m ≤ i → i < n → words[i]? = some w → w.startsLine = false

theorem onLine_of_le (h : n ≤ m) : OnLine words m n := fun _ _ _ _ => by omega

theorem OnLine.trans (h : OnLine words l m) (h' : OnLine words m n) : OnLine words l n := by
  intro i w hl hn hw
  rcases Nat.lt_or_ge i m with hm | hm
  · exact h i w hl hm hw
  · exact h' i w hm hn hw

theorem OnLine.mono (h : OnLine words m n) (hm : m ≤ m') (hn : n' ≤ n) : OnLine words m' n' :=
  fun i w hmi hin => h i w (Nat.le_trans hm hmi) (Nat.lt_of_lt_of_le hin hn)

/-- The words after the first `m`, among the first `n`. -/
def between (words : List Word) (m n : Nat) : List Word := (words.drop m).take (n - m)

theorem between_self (words : List Word) (n : Nat) : between words n n = [] := by
  simp [between]

theorem getElem?_between (words : List Word) (m n i : Nat) :
    (between words m n)[i]? = if i < n - m then words[m + i]? else none := by
  simp [between, List.getElem?_take]

theorem OnLine.of_mem_between (h : OnLine words m n) {w : Word} (hw : w ∈ between words m n) :
    w.startsLine = false := by
  obtain ⟨i, hi⟩ := List.mem_iff_getElem?.1 hw
  rw [getElem?_between] at hi
  split at hi
  · exact h (m + i) w (by omega) (by omega) hi
  · cases hi

/-- Only the first of some words may start a line. -/
def OneLine (ws : List Word) : Prop := ∀ w ∈ ws.tail, w.startsLine = false

theorem OnLine.oneLine_between (h : OnLine words (m + 1) n) : OneLine (between words m n) := by
  intro w hw
  obtain ⟨i, hi⟩ := List.mem_iff_getElem?.1 hw
  rw [List.getElem?_tail, getElem?_between] at hi
  split at hi
  · exact h (m + (i + 1)) w (by omega) (by omega) hi
  · cases hi

theorem OneLine.onLine (h : OneLine words) : OnLine words 1 n := by
  intro i w hi _ hw
  refine h w (List.mem_iff_getElem?.2 ⟨i - 1, ?_⟩)
  rwa [List.getElem?_tail, Nat.sub_add_cancel hi]

theorem OneLine.append {us vs : List Word} (hus : OneLine us) (hvs : ∀ w ∈ vs, w.startsLine = false) :
    OneLine (us ++ vs) := by
  intro w hw
  cases us with
  | nil => exact hvs w (List.mem_of_mem_tail hw)
  | cons u us =>
    rcases List.mem_append.1 hw with hw | hw
    · exact hus w hw
    · exact hvs w hw

end Word

/-! ### Drafts -/

namespace Draft

/-- In a draft, all nodes of the kinds that stand on one line do so. -/
def Lined (d : Draft) : Prop := d.All fun e => e.kind.isLine → Word.OneLine e.words

theorem lined_iff {d : Draft} :
    d.Lined ↔ (d.kind.isLine → Word.OneLine d.words) ∧ ∀ e, .node e ∈ d.pieces → e.Lined := all_iff

end Draft

/-! ### Reports -/

/-- The number of words that start at an edge or before it. -/
def Edge.begun : Edge → Nat
  | .startAfter n => n + 1
  | .endOf n => n

/-- The place of a report is within a line: it is the end of the text, or no word in it other than the
one at its start starts a line. -/
def Report.OneLine (words : List Word) (r : Report) : Prop :=
  (∃ n, words.length ≤ n ∧ r.start = .startAfter n) ∨
    ∃ n, n ≤ words.length ∧ r.stop = .endOf n ∧ Word.OnLine words r.start.begun n

/-- The number of words in front of an edge. -/
def Edge.count : Edge → Nat
  | .startAfter n => n
  | .endOf n => n

/-- Where it is reported that the units of a scan are no name, there is none that a comma or a closing
parenthesis follows on its line. -/
def Report.Unnamed (words : List Word) (r : Report) : Prop :=
  r.cause = .scanUnitsNotName → Word.closedName (words.drop r.start.count) = false

namespace Parsing

/-! ### Sketches -/

/-- What is kept along the parse of a text of the given words. -/
structure Sketch.Tidy (words : List Word) (s : Sketch) : Prop where
  rest_eq : s.rest = words.drop s.taken
  taken_le : s.taken ≤ words.length
  parts : ∀ d, .node d ∈ s.parts → d.Lined
  reports : ∀ r ∈ s.reports, r.cause.kind = .grammatical ∧ r.OneLine words ∧ r.Unnamed words

namespace Sketch.Tidy

variable {words : List Word} {s t u : Sketch} (h : s.Tidy words)
include h

theorem getElem?_taken {w : Word} {ws : List Word} (hrest : s.rest = w :: ws) :
    words[s.taken]? = some w := by
  have hdrop := h.rest_eq
  rw [hrest] at hdrop
  have hhead : (words.drop s.taken).head? = some w := by rw [← hdrop]; rfl
  rwa [List.head?_drop] at hhead

theorem taken_lt {w : Word} {ws : List Word} (hrest : s.rest = w :: ws) :
    s.taken < words.length :=
  (List.getElem?_eq_some_iff.1 (h.getElem?_taken hrest)).1

theorem take : s.take.Tidy words := by
  cases hrest : s.rest with
  | nil =>
    rw [Sketch.take, hrest]
    exact h
  | cons w ws =>
    have hdrop := h.rest_eq
    rw [hrest] at hdrop
    rw [take_eq hrest]
    refine ⟨?_, h.taken_lt hrest, by simpa using h.parts, h.reports⟩
    rw [← List.drop_drop, ← hdrop]
    rfl

/-- The place of a word, or of a gap behind one, is within a line. -/
theorem oneLine_edges {place : Place} (hplace : place = .here ∨ place = .word) (cause : Cause) :
    (⟨cause, (s.edges place).1, (s.edges place).2⟩ : Report).OneLine words := by
  have hword : (⟨cause, .startAfter s.taken, .endOf (s.taken + 1)⟩ : Report).OneLine words := by
    rcases Nat.lt_or_ge s.taken words.length with hlt | hle
    · exact .inr ⟨s.taken + 1, hlt, rfl, Word.onLine_of_le (Nat.le_refl _)⟩
    · exact .inl ⟨s.taken, hle, rfl⟩
  rcases hplace with rfl | rfl
  · rw [Reading.edges]
    split
    · exact hword
    · exact .inr ⟨s.taken, h.taken_le, rfl, Word.onLine_of_le (Nat.le_refl _)⟩
  · exact hword

theorem report {place : Place} {cause : Cause} (hcause : cause.kind = .grammatical)
    (hplace : (⟨cause, (s.edges place).1, (s.edges place).2⟩ : Report).OneLine words)
    (hunits : (⟨cause, (s.edges place).1, (s.edges place).2⟩ : Report).Unnamed words) :
    (s.perform (.report place cause)).Tidy words := by
  change Tidy words { s with toReading := s.toReading.report place cause }
  rw [Reading.report]
  split
  · exact h
  · refine ⟨h.rest_eq, h.taken_le, h.parts, fun r hr => ?_⟩
    rcases Array.mem_push.1 hr with hr | rfl
    · exact h.reports r hr
    · exact ⟨hcause, hplace, hunits⟩

/-- Nothing else of a sketch makes a difference. -/
theorem transfer (hrest : t.rest = s.rest) (htaken : t.taken = s.taken) (hparts : t.parts = s.parts)
    (hreports : t.reports = s.reports) : t.Tidy words :=
  ⟨hrest.trans (htaken ▸ h.rest_eq), htaken ▸ h.taken_le, hparts ▸ h.parts, hreports ▸ h.reports⟩

theorem listen : (s.perform .listen).Tidy words := ⟨h.rest_eq, h.taken_le, h.parts, h.reports⟩

theorem silence : (s.perform .silence).Tidy words := ⟨h.rest_eq, h.taken_le, h.parts, h.reports⟩

theorem fresh : s.fresh.Tidy words :=
  ⟨h.rest_eq, h.taken_le, fun _ hd => absurd hd List.not_mem_nil, h.reports⟩

/-- The words that a run takes into the open node. -/
theorem words_of_run {fuel : Nat} {script : Rule → Script Unit} {α : Type} {x : Script α} {a : α}
    (hrun : x.run (Script.runRule script fuel) fuel s = some (a, t)) (ht : t.Tidy words) :
    Draft.wordsOfAll t.parts.reverse =
      Draft.wordsOfAll s.parts.reverse ++ Word.between words s.taken t.taken := by
  have hwords : HasWords (Draft.wordsOfAll s.parts.reverse ++ s.rest) t :=
    kept_hasWords.run (i := Draft.wordsOfAll s.parts.reverse ++ s.rest) (s := s) rfl hrun
      kept_hasWords.runRule
  have hle := (goesOn_of_run hrun).taken_le
  have hsplit : words.drop s.taken = Word.between words s.taken t.taken ++ words.drop t.taken := by
    have hdrop : words.drop t.taken = (words.drop s.taken).drop (t.taken - s.taken) := by
      rw [List.drop_drop, Nat.add_sub_of_le hle]
    rw [Word.between, hdrop, List.take_append_drop]
  rw [HasWords, ht.rest_eq, h.rest_eq, hsplit, ← List.append_assoc] at hwords
  exact List.append_cancel_right hwords

end Sketch.Tidy

end Parsing

end CRBasic
