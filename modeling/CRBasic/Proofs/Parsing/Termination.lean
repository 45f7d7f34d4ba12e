import CRBasic.Proofs.Parsing.Text

/-!
# Parsing ends

Every word of a text becomes one event, in order; every statement takes a word; and every loop of the
grammar ends, whatever the state that it starts in (`events_of_words`).
-/

namespace CRBasic

/-- The kind of the word that an event adds. -/
def Event.token? : Event → Option TokenKind
  | .token kind => some kind
  | _ => none

namespace Draft

theorem filterMap_block (kind : NodeKind) (parent? : Option Nat) (es : List Event) :
    (.start kind parent? :: (es ++ [.finish])).filterMap Event.token? =
      es.filterMap Event.token? := by
  rw [List.filterMap_cons_none rfl, List.filterMap_append, List.filterMap_cons_none rfl]
  exact List.append_nil _

mutual

/-- The words of a draft are its word events. -/
theorem filterMap_events (linked : Bool) : ∀ d : Draft,
    (d.events linked).filterMap Event.token? = d.words.map (·.kind)
  | node kind parts => by rw [events, filterMap_block, filterMap_eventsOfAll parts, words]
  | around kind first parts => by
    rw [events, List.filterMap_append, filterMap_block, filterMap_events true first,
      filterMap_eventsOfAll parts, words, List.map_append]

theorem filterMap_eventsOfAll : ∀ parts : List (Piece Draft),
    (eventsOfAll parts).filterMap Event.token? = (wordsOfAll parts).map (·.kind)
  | [] => rfl
  | .word w :: ps => by
    have hword : Event.token? (.token w.kind) = some w.kind := rfl
    rw [eventsOfAll, wordsOfAll, List.filterMap_cons_some hword, filterMap_eventsOfAll ps,
      List.map_cons]
  | .node d :: ps => by
    rw [eventsOfAll, wordsOfAll, List.filterMap_append, List.map_append, filterMap_events false d,
      filterMap_eventsOfAll ps]

end

end Draft

theorem map_kind_ofLexemes (startsLine : Bool) (offset : Nat) (xs : List Lexeme) :
    (Word.ofLexemes startsLine xs).map (·.kind) =
      ((Lexeme.tokens offset xs).filter fun t => !t.kind.isTrivia).map (·.kind) := by
  induction xs generalizing startsLine offset with
  | nil => rfl
  | cons x xs ih =>
    by_cases hx : x.kind.isTrivia
    · simpa [Word.ofLexemes, Lexeme.tokens, Lexeme.token, hx] using ih _ _
    · simpa [Word.ofLexemes, Lexeme.tokens, Lexeme.token, hx] using ih false _

namespace Parsing

open Script Grammar

/-! ### Words are taken from the front -/

/-- The words that are left end the given ones. -/
def LeavesOf (ws : List Word) (s : State) : Prop := s.rest <:+ ws

theorem kept_leavesOf : Kept LeavesOf where
  perform {ws s} a h := by
    change (s.perform a).rest <:+ ws
    by_cases ha : a = .take
    · subst ha
      simp only [State.perform, State.take]
      split
      · exact h
      · next w rest hrest => exact (hrest ▸ List.suffix_cons w rest).trans h
    · rw [rest_perform ha]
      exact h
  stretch {ws s} scope h := by
    refine ⟨ws, ?_, fun t ht => ?_⟩
    · change (Machine.begin s scope).2.rest <:+ ws
      rw [rest_begin]
      exact h
    · change (Machine.leave t _ scope).rest <:+ ws
      rw [rest_leave]
      exact ht

/-! ### Scripts that end -/

/-- From every state (with a word left, if `word` holds) and on the fuel that its words ask for, the
run of a script ends, and takes words from the front of the rest only. -/
def Halts {α : Type} (word : Bool) (x : Script α) : Prop :=
  ∀ (s : State) (fuel : Nat), (word → s.rest ≠ []) → s.rest.length + 2 ≤ fuel →
    ∃ a t, x.run (runRule script fuel) fuel s = some (a, t) ∧ t.rest <:+ s.rest

theorem halts_of_advances {α : Type} {word : Bool} {m : α → Nat} {x : Script α}
    (h : ∀ fuel, Advances (runRule script fuel) fuel word 1 m x) : Halts word x := by
  intro s fuel hs hfuel
  obtain ⟨a, t, hrun, -⟩ := h fuel s hs (by omega)
  have hstart : LeavesOf s.rest s := List.suffix_refl _
  exact ⟨a, t, hrun, kept_leavesOf.run hstart hrun kept_leavesOf.runRule⟩

/-- A statement that starts at a word takes that word: on the fuel that its words ask for it ends,
and on any fuel it ends in the same state or not at all. -/
theorem statement_takes {s : State} (hs : s.rest ≠ []) :
    ∃ t ws, s.rest = ws ++ t.rest ∧ ws ≠ [] ∧
      (∀ fuel, s.rest.length + 2 ≤ fuel → runRule script fuel .statement s = some t) ∧
      ∀ fuel u, runRule script fuel .statement s = some u → u = t := by
  have hadvances : Advances (runRule script (s.rest.length + 2)) (s.rest.length + 2) true (0 + 1)
      (fun _ => 1) statement :=
    (rulesAdvance _).statement
  obtain ⟨u, t, hrun, hlt⟩ := hadvances s (fun _ => hs) (by omega)
  simp only [statement, run] at hrun
  split at hrun
  · cases hrun
  · next v hv =>
    cases hrun
    have hstart : LeavesOf s.rest s := List.suffix_refl _
    obtain ⟨ws, hws⟩ := kept_leavesOf.runRule hstart hv
    refine ⟨t, ws, hws.symm, ?_, fun fuel hfuel => runRule_mono hfuel hv, fun fuel w hw => ?_⟩
    · rintro rfl
      rw [List.nil_append] at hws
      rw [hws] at hlt
      exact absurd hlt (by simp)
    · have hw' := runRule_mono (Nat.le_max_left fuel (s.rest.length + 2)) hw
      have hv' := runRule_mono (Nat.le_max_right fuel (s.rest.length + 2)) hv
      exact Option.some.inj (hw'.symm.trans hv')

/-! ### The loops of the grammar -/

/-- Every loop of the grammar ends, whatever the state that it starts in. -/
structure LoopsHalt : Prop where
  root : Halts false sourceFile
  statements (stops : List TokenKind) : Halts false (blockBody stops)
  elseIfBranches : Halts false (collect elseIfBranch)
  directiveElseIfs : Halts false (collect directiveElseIf)
  caseClauses : Halts false (collect caseOrSkipped)
  caseValues : Halts false (separated caseValue)
  arguments : Halts false (separated argument)
  bounds : Halts false (separated expression)
  declarators : Halts false (separated declarator)
  parameters : Halts false (separated parameter)
  names : Halts true identifier
  operators (power : Nat) : Halts false (operators power)
  restOfLine : Halts false takeLine
  skippedWords : Halts true skipWords

theorem halts_separated {α : Type} {item : Script α}
    (h : ∀ fuel word, Advances (runRule script fuel) fuel word 1 (fun _ => 0) item) :
    Halts false (separated item) :=
  halts_of_advances fun fuel => advances_separated (n := fun _ => 0) (fun _ => rfl) fun {word} =>
    h fuel word

theorem halts_sourceFile : Halts false sourceFile := by
  intro s fuel _ hfuel
  obtain ⟨a, t, hrun, -⟩ := ends_sourceFile (show s.rest.length + 1 < fuel by omega)
  have hstart : LeavesOf s.rest s := List.suffix_refl _
  exact ⟨a, t, hrun, kept_leavesOf.run hstart hrun kept_leavesOf.runRule⟩

theorem loopsHalt : LoopsHalt where
  root := halts_sourceFile
  statements stops := halts_of_advances fun fuel => advances_blockBody (rulesAdvance fuel) stops
  elseIfBranches := halts_of_advances fun fuel =>
    advances_collect (advances_elseIfBranch (rulesAdvance fuel))
  directiveElseIfs := halts_of_advances fun fuel =>
    advances_collect (advances_directiveElseIf (rulesAdvance fuel))
  caseClauses := halts_of_advances fun fuel =>
    advances_collect (advances_caseOrSkipped (rulesAdvance fuel))
  caseValues := halts_separated fun fuel _ => advances_caseValue (rulesAdvance fuel)
  arguments := halts_separated fun fuel _ => advances_argument (rulesAdvance fuel)
  bounds := halts_separated fun fuel _ => advances_expression (rulesAdvance fuel)
  declarators := halts_separated fun fuel _ => advances_declarator (rulesAdvance fuel)
  parameters := halts_separated fun fuel _ => advances_parameter (rulesAdvance fuel)
  names := halts_of_advances fun _ => advances_identifier
  operators power := halts_of_advances fun fuel => advances_operators (rulesAdvance fuel) power
  restOfLine := halts_of_advances fun _ => advances_takeLine
  skippedWords := halts_of_advances fun _ => advances_skipWords

/-- Parsing ends on the fuel that a text asks for, and more fuel changes nothing.  All words have then
been taken: their kinds are those of the word events, in order.  Every statement takes a word, every
loop ends, and what the root takes when it ends is blanks and comments. -/
theorem parsing_ends (options : ParseOptions) (source : List Char) :
    let words := Word.ofLexemes true (lexemes source)
    (∀ fuel, fuelFor words ≤ fuel →
      sourceFile.run (runRule script fuel) fuel (State.initial options words) =
        some ((), finalState options words)) ∧
    (finalState options words).rest = [] ∧
    (events options words).filterMap Event.token? =
      ((lex source).filter fun t => !t.kind.isTrivia).map (·.kind) ∧
    (∀ s : State, s.rest ≠ [] → ∃ t ws, s.rest = ws ++ t.rest ∧ ws ≠ [] ∧
      (∀ fuel, s.rest.length + 2 ≤ fuel → runRule script fuel .statement s = some t) ∧
      ∀ fuel u, runRule script fuel .statement s = some u → u = t) ∧
    LoopsHalt ∧
    ∃ steps, BuildStep.ofEvents [] (events options words) = steps ++ [.closeNode] ∧
      ∀ x ∈ (steps.foldl Builder.step { rest := lexemes source }).rest, x.kind.isTrivia := by
  intro words
  obtain ⟨parts, hevents, hwords⟩ := exists_draft options words
  obtain ⟨ts, -, -, hrest⟩ := Draft.foldl_root .sourceFile (words_lexemes hwords)
  refine ⟨fun fuel hfuel => (run_sourceFile options words hfuel).1,
    (run_sourceFile options words (Nat.le_refl _)).2, ?_, fun s hs => statement_takes hs,
    loopsHalt, _, ?_, hrest⟩
  · rw [hevents, Draft.filterMap_events, Draft.words, hwords]
    exact map_kind_ofLexemes true 0 _
  · rw [hevents, Draft.steps_root]

end Parsing

end CRBasic
