import CRBasic.Proofs.Expression.Parsing
import CRBasic.Proofs.Parsing.Text

/-!
# Assignments of terms

A text of one assignment of a term is parsed without a problem, and its draft has the draft of the
term after the operator (`finalState_assignment`), if the nesting leaves the room that reading the term
takes.
-/

namespace CRBasic

namespace Grammar

open Parsing Parsing.Script

variable {s t : Sketch} {w : Word} {post : List Word} {ps : List (Piece Draft)} {α : Type}

/-- The draft of an assignment of a term to a name. -/
def assignmentDraft (w : Word) (e : Term) : Draft :=
  .node .assignment
    [.node (.node .identifier [.word w]), .word TokenKind.eq.lexeme.word, .node e.draft]

/-- The words of an assignment of a term to a name. -/
def assignmentWords (w : Word) (e : Term) : List Word :=
  w :: TokenKind.eq.lexeme.word :: e.lexemes.map Lexeme.word

variable {e : Term} {level room : Nat}

theorem yields_target (hrest : s.rest = w :: TokenKind.eq.lexeme.word :: post) :
    Yields script nameReference s () (s.put (TokenKind.eq.lexeme.word :: post)
      [.node (.node .identifier [.word w])]) := by
  have hidentifier : Yields script identifier s () (s.put (TokenKind.eq.lexeme.word :: post)
      [.node (.node .identifier [.word w])]) := by
    refine yields_node .identifier fun u hu => ?_
    refine (yields_take (hu.rest.trans hrest)).andThen fun v hv => ?_
    have hdot : v.onLine ≠ some .dot := by
      rw [onLine_cons hv.rest rfl]
      nofun
    rw [← hv.rest, Sketch.put_nil]
    exact Yields.bind (yields_collect_nil ((yields_eat_none hdot).bind (yields_pure none)))
      (yields_pure ())
  exact hidentifier.bind (yields_onLine (onLine_cons rfl rfl) (yields_pure ()))

section

variable (he : BodyReads level e.lexemes e.draft room)
include he

/-- The value of an assignment takes all words that are left. -/
theorem yields_value (hrest : s.rest = e.lexemes.map Lexeme.word)
    (hroom : s.depth + (room + 1) ≤ s.options.maxDepth) :
    Yields script expression s () (s.put [] [.node e.draft]) := by
  refine he.yields_expression (Nat.zero_le _)
    (by rw [hrest, List.append_nil]) (follows_nil _) (fun u hu => ?_) hroom
  refine yields_operators_nil fun k l r hk _ => ?_
  rw [onLine_nil hu] at hk
  cases hk

theorem yields_assignmentStatement (hrest : s.rest = assignmentWords w e)
    (hroom : s.depth + (room + 1) ≤ s.options.maxDepth) (hsilenced : s.silenced = false) :
    Yields script assignmentStatement s () (s.put [] [.node (assignmentDraft w e)]) := by
  refine yields_node .assignment fun u hu => ?_
  refine (yields_target (hu.rest.trans hrest)).andThen fun v hv => ?_
  refine yields_onLine (onLine_cons hv.rest rfl) ?_
  refine (yields_take hv.rest).andThen fun v' hv' => ?_
  have hroom := hv'.room (hv.room (hu.room hroom))
  have hsilenced : v'.silenced = false :=
    hv'.silenced.trans (hv.silenced.trans (hu.silenced.trans hsilenced))
  have hvalue := yields_value he hv'.rest hroom
  exact hvalue.bind (yields_lineEnd rfl hsilenced)

theorem yields_statement (hrest : s.rest = assignmentWords w e) (hw : w.kind = .ident)
    (hroom : s.depth + (room + 1) ≤ s.options.maxDepth) (hsilenced : s.silenced = false)
    (hframes : s.frames = []) :
    Yields script statement s () (s.put [] [.node (assignmentDraft w e)]) := by
  refine Yields.call ((yields_listen hsilenced).bind ?_)
  have hdeep : s.tooDeep = false := by
    rw [Reading.tooDeep, decide_eq_false_iff_not]
    omega
  have hcurrent : s.current = some .ident := by
    rw [Reading.current, hrest, assignmentWords, List.head?_cons, Option.map_some, hw]
  have hassignment : s.atAssignment = true := by
    have hstop : s.isStop .ident = false := by
      rw [Reading.isStop, hframes]
      rfl
    rw [Reading.atAssignment, hrest, assignmentWords]
    simp [Word.line, Word.assignsBefore, hw, hstop, TokenKind.lexeme, Lexeme.word,
      TokenKind.isAssignment]
  rw [tooDeep, yields_ask, answer_tooDeep, hdeep, if_neg Bool.false_ne_true, current, yields_ask,
    answer_current, hcurrent]
  change Yields script (atAssignment >>= fun found => if found then assignmentStatement
    else instruction) s () _
  rw [atAssignment, yields_ask, answer_atAssignment, hassignment, if_pos rfl]
  exact yields_assignmentStatement he hrest hroom hsilenced

/-- A text of one assignment of a term yields the draft of the assignment. -/
theorem yields_sourceFile {options : ParseOptions} (hw : w.kind = .ident)
    (hroom : room + 1 ≤ options.maxDepth) :
    Yields script sourceFile (Sketch.initial options (assignmentWords w e)) ()
      ((Sketch.initial options (assignmentWords w e)).put []
        [.node (.node .sourceFile [.node (assignmentDraft w e)])]) := by
  refine yields_node .sourceFile fun u hu => ?_
  have hroom' : u.depth + (room + 1) ≤ u.options.maxDepth := by
    rw [hu.depth, hu.options]
    exact (Nat.zero_add _).symm ▸ hroom
  have hstatement := yields_statement he hu.rest hw hroom' hu.silenced hu.frames
  refine yields_whileM_cons ?_ hstatement (yields_whileM_nil ?_)
  · rw [current, yields_ask, answer_current, Reading.current, hu.rest]
    exact yields_pure true
  · rw [current, yields_ask, answer_current, Reading.current]
    exact yields_pure false

/-- The final state of a text of one assignment of a term has no problem and the events of the draft
of the assignment, which has the words of the text. -/
theorem finalState_assignment {options : ParseOptions} (hw : w.kind = .ident)
    (hroom : room + 1 ≤ options.maxDepth) :
    (finalState options (assignmentWords w e)).reports = #[] ∧
      (finalState options (assignmentWords w e)).events.toList =
        (Draft.node .sourceFile [.node (assignmentDraft w e)]).events false ∧
      Draft.wordsOfAll [.node (assignmentDraft w e)] = assignmentWords w e := by
  obtain ⟨t, ht, hfinal⟩ := exists_sketch options (assignmentWords w e)
  obtain ⟨-, rfl⟩ := ht.unique (yields_sourceFile he hw hroom)
  refine ⟨?_, ?_, ?_⟩
  · rw [← hfinal.reading]
    rfl
  · rw [hfinal.events]
    simp [Sketch.put, Sketch.initial, Draft.eventsOfAll]
  · have hwords := hasWords_of_yields options (assignmentWords w e) ht
    simpa [Sketch.HasWords, Sketch.put, Sketch.initial, Draft.wordsOfAll, Draft.words] using hwords

end

end Grammar

end CRBasic
