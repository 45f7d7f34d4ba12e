import CRBasic.Proofs.Parsing.Sketch
import CRBasic.Proofs.Tree.Steps

/-!
# One word written as two

A word `ElseIf` at the start of a line may be written as the two words `Else` and `If`.  What two parses
have before them where some words are written so is related word by word (`Word.Respelled`), and so are
the parts of the open node (`Piece.Respelled`) and the steps that build the tree
(`BuildStep.Respelled`).  In the steps the word stands first in its clause.
-/

namespace CRBasic

/-! ### Words -/

namespace Word

/-- A word `ElseIf` at the start of a line, and the two words that it may be written as. -/
structure TwoWords (w first second : Word) : Prop where
  kind : w.kind = .kwElseIf
  startsLine : w.startsLine
  first_kind : first.kind = .kwElse
  first_startsLine : first.startsLine
  second_kind : second.kind = .kwIf
  second_startsLine : second.startsLine = false

/-- Words, and the same words with some `ElseIf` written as two words. -/
inductive Respelled : List Word → List Word → Prop where
  | nil : Respelled [] []
  | same (w : Word) {ws ws' : List Word} (h : Respelled ws ws') : Respelled (w :: ws) (w :: ws')
  | split {w first second : Word} {ws ws' : List Word} (hw : TwoWords w first second)
      (h : Respelled ws ws') : Respelled (w :: ws) (first :: second :: ws')

namespace Respelled

variable {w : Word} {ws ws' vs : List Word}

theorem refl : ∀ ws : List Word, Respelled ws ws
  | [] => .nil
  | w :: ws => .same w (refl ws)

/-- Written in two words in one place. -/
theorem middle {first second : Word} (hw : TwoWords w first second) (ws vs : List Word) :
    Respelled (ws ++ w :: vs) (ws ++ first :: second :: vs) := by
  induction ws with
  | nil => exact .split hw (refl vs)
  | cons v ws ih => exact .same v ih

/-- Where the next word is the same, so are the words after it but for their spelling. -/
theorem tail_of_head? (h : Respelled (w :: ws) vs) (hhead : vs.head? = some w) :
    ∃ ws', vs = w :: ws' ∧ Respelled ws ws' := by
  cases h with
  | same _ h => exact ⟨_, rfl, h⟩
  | split hw _ =>
    obtain rfl := Option.some.inj hhead
    have hkind := hw.first_kind
    rw [hw.kind] at hkind
    cases hkind


/-- A word that does not start a line is written the same. -/
theorem head?_eq_of_onLine (h : Respelled (w :: ws) ws') (hw : w.startsLine = false) :
    ws'.head? = some w := by
  cases h with
  | same _ _ => rfl
  | split htwo _ =>
    have hstarts := htwo.startsLine
    rw [hw] at hstarts
    cases hstarts

/-- The words up to the next one that starts a line are the same. -/
theorem takeWhile_eq (h : Respelled ws ws') :
    ws'.takeWhile (!·.startsLine) = ws.takeWhile (!·.startsLine) := by
  induction h with
  | nil => rfl
  | same w _ ih => rw [List.takeWhile_cons, List.takeWhile_cons, ih]
  | split hw _ _ =>
    rw [List.takeWhile_cons_of_neg (by simp [hw.first_startsLine]),
      List.takeWhile_cons_of_neg (by simp [hw.startsLine])]

/-- No word of the two is in error. -/
theorem sound (h : Respelled ws ws') (hsound : ∀ w ∈ ws, w.kind ≠ .error) :
    ∀ w ∈ ws', w.kind ≠ .error := by
  induction h with
  | nil => exact hsound
  | same w _ ih =>
    obtain ⟨hw, hws⟩ := List.forall_mem_cons.1 hsound
    exact List.forall_mem_cons.2 ⟨hw, ih hws⟩
  | split hw _ ih =>
    obtain ⟨-, hws⟩ := List.forall_mem_cons.1 hsound
    refine List.forall_mem_cons.2 ⟨?_, List.forall_mem_cons.2 ⟨?_, ih hws⟩⟩
    · rw [hw.first_kind]
      exact TokenKind.noConfusion
    · rw [hw.second_kind]
      exact TokenKind.noConfusion

theorem eq_nil_iff (h : Respelled ws ws') : ws' = [] ↔ ws = [] := by
  cases h <;> simp

end Respelled

end Word

/-! ### Steps -/

/-- Steps, and the same steps with some `ElseIf` that stands first in a clause written as two words. -/
inductive BuildStep.Respelled : List BuildStep → List BuildStep → Prop where
  | nil : Respelled [] []
  | same (step : BuildStep) {steps steps' : List BuildStep} (h : Respelled steps steps') :
      Respelled (step :: steps) (step :: steps')
  | clause (around : List NodeKind) {steps steps' : List BuildStep} (h : Respelled steps steps') :
      Respelled (.openNodes (around ++ [.elseIfClause]) :: .token .kwElseIf :: steps)
        (.openNodes (around ++ [.elseIfClause]) :: .token .kwElse :: .token .kwIf :: steps')

namespace BuildStep.Respelled

variable {steps steps' later later' : List BuildStep}

theorem append (h : Respelled steps steps') (hlater : Respelled later later') :
    Respelled (steps ++ later) (steps' ++ later') := by
  induction h with
  | nil => exact hlater
  | same step _ ih => exact .same step ih
  | clause around _ ih => exact .clause around ih

/-- A node that starts around others leaves the head of their clause as it is written. -/
theorem around {kinds kinds' : List NodeKind}
    (h : Respelled (.openNodes kinds :: steps) (.openNodes kinds' :: steps')) (kind : NodeKind) :
    Respelled (.openNodes (kind :: kinds) :: steps) (.openNodes (kind :: kinds') :: steps') := by
  cases h with
  | same _ h => exact .same _ h
  | clause around h => exact .clause (kind :: around) h

end BuildStep.Respelled

/-! ### Parts -/

namespace Draft

/-- The steps of a draft. -/
def steps (d : Draft) : List BuildStep := .openNodes d.spine :: d.inside

/-- A draft, and the same draft with some `ElseIf` written as two words. -/
def Respelled (d d' : Draft) : Prop := BuildStep.Respelled d.steps d'.steps

theorem stepsOfAll_append (ps qs : List (Piece Draft)) :
    stepsOfAll (ps ++ qs) = stepsOfAll ps ++ stepsOfAll qs := by
  induction ps with
  | nil => simp [stepsOfAll]
  | cons p ps ih => cases p <;> simp [stepsOfAll, ih]

end Draft

/-- The parts of an open node, the last one first, and the same parts with some `ElseIf` written as two
words.  The flag tells whether the first part is such a word; others are the first parts of nodes. -/
inductive Piece.Respelled : Bool → List (Piece Draft) → List (Piece Draft) → Prop where
  | nil : Respelled false [] []
  | head {w first second : Word} (hw : Word.TwoWords w first second) :
      Respelled true [.word w] [.word second, .word first]
  | word {b : Bool} (w : Word) {ps ps' : List (Piece Draft)} (h : Respelled b ps ps') :
      Respelled b (.word w :: ps) (.word w :: ps')
  | node {b : Bool} {d d' : Draft} {ps ps' : List (Piece Draft)} (hd : d.Respelled d')
      (h : Respelled b ps ps') : Respelled b (.node d :: ps) (.node d' :: ps')

namespace Piece.Respelled

open Draft

variable {b : Bool} {ps ps' qs qs' : List (Piece Draft)} {d d' : Draft} {kind : NodeKind}

/-- Where the first part is written as two words, no other part is. -/
theorem exists_head (h : Respelled true ps ps') : ∃ qs qs' w first second,
    Word.TwoWords w first second ∧ ps = qs ++ [.word w] ∧
      ps' = qs' ++ [.word second, .word first] ∧ Respelled false qs qs' := by
  generalize hb : true = b at h
  induction h with
  | nil => cases hb
  | head hw => exact ⟨[], [], _, _, _, hw, rfl, rfl, .nil⟩
  | word v _ ih =>
    obtain ⟨qs, qs', w, first, second, hw, rfl, rfl, h⟩ := ih hb
    exact ⟨_, _, w, first, second, hw, rfl, rfl, .word v h⟩
  | node hd _ ih =>
    obtain ⟨qs, qs', w, first, second, hw, rfl, rfl, h⟩ := ih hb
    exact ⟨_, _, w, first, second, hw, rfl, rfl, .node hd h⟩

theorem stepsOfAll_reverse (h : Respelled false ps ps') :
    BuildStep.Respelled (stepsOfAll ps.reverse) (stepsOfAll ps'.reverse) := by
  generalize hb : false = b at h
  induction h with
  | nil => exact .nil
  | head _ => cases hb
  | word w _ ih =>
    rw [List.reverse_cons, List.reverse_cons, stepsOfAll_append, stepsOfAll_append]
    exact (ih hb).append (.same _ .nil)
  | @node _ d d' _ _ hd _ ih =>
    have hsteps (e : Draft) : stepsOfAll [.node e] = e.steps := by
      simp [stepsOfAll, steps]
    rw [List.reverse_cons, List.reverse_cons, stepsOfAll_append, stepsOfAll_append, hsteps, hsteps]
    exact (ih hb).append hd

/-- A node ends.  Only a clause may have a first part that is written as two words. -/
theorem draft_node (h : Respelled b ps ps') (hb : b → kind = .elseIfClause) :
    (Draft.node kind ps.reverse).Respelled (.node kind ps'.reverse) := by
  have hend : BuildStep.Respelled [.closeNode] [.closeNode] := .same _ .nil
  change BuildStep.Respelled (.openNodes [kind] :: _) (.openNodes [kind] :: _)
  simp only [inside]
  cases b with
  | false => exact .same _ (h.stepsOfAll_reverse.append hend)
  | true =>
    obtain ⟨qs, qs', w, first, second, hw, rfl, rfl, hqs⟩ := h.exists_head
    rw [hb rfl]
    simp only [List.reverse_append, List.reverse_cons, List.reverse_nil, List.nil_append,
      List.cons_append, stepsOfAll, hw.kind, hw.first_kind, hw.second_kind]
    exact .clause [] (hqs.stepsOfAll_reverse.append hend)

/-- A node ends that has started around another one. -/
theorem draft_around (hd : d.Respelled d') (h : Respelled false ps ps') :
    (Draft.around kind d ps.reverse).Respelled (.around kind d' ps'.reverse) := by
  have hparts : BuildStep.Respelled (stepsOfAll ps.reverse ++ [.closeNode])
      (stepsOfAll ps'.reverse ++ [.closeNode]) := h.stepsOfAll_reverse.append (.same _ .nil)
  have h := (hd.append hparts).around kind
  rwa [Draft.Respelled, steps, steps, spine, spine, inside, inside]

open Parsing in
theorem putAround (h : Respelled b ps ps') (hqs : Respelled false qs qs') (kind : NodeKind) :
    Respelled b (Sketch.putAround kind qs ps) (Sketch.putAround kind qs' ps') := by
  have hnode : (Draft.node kind qs.reverse).Respelled (.node kind qs'.reverse) :=
    hqs.draft_node Bool.noConfusion
  cases h with
  | nil => exact .node hnode .nil
  | head hw => exact .node hnode (.head hw)
  | word w h => exact .node hnode (.word w h)
  | node hd h => exact .node (draft_around hd hqs) h

end Piece.Respelled

end CRBasic
