import CRBasic.Proofs.Grammar.Silence
import CRBasic.Proofs.Roles.Operands

/-!
# References

A reference to a variable is a name, or a name with an argument list around it (`exists_refers`).  Its first
word is where the node starts (`Refers.exists_nameWord`).  Problems are passed over behind it only if words
inside it fit nowhere (`tells_hasError`).
-/

namespace CRBasic

open Parsing

namespace Draft

/-- A node among some parts, or inside one of them, holds words that fit nowhere. -/
def HasError (ps : List (Piece Draft)) : Prop :=
  ∃ d, .node d ∈ ps ∧ ∃ e : Draft, e.Inside d ∧ e.kind = .errorNode

variable {p : Piece Draft} {ps inner : List (Piece Draft)} {kind : NodeKind} {d : Draft} {w : Word}

theorem HasError.cons (h : HasError ps) (p : Piece Draft) : HasError (p :: ps) := by
  obtain ⟨d, hd, herror⟩ := h
  exact ⟨d, List.mem_cons_of_mem _ hd, herror⟩

theorem hasError_errorNode (parts : List (Piece Draft)) :
    HasError (.node (.node .errorNode parts) :: ps) :=
  ⟨_, List.mem_cons_self, _, .refl _, rfl⟩

theorem HasError.node (h : HasError inner) : HasError (.node (.node kind inner.reverse) :: ps) := by
  obtain ⟨d, hd, e, he, herror⟩ := h
  exact ⟨_, List.mem_cons_self, e, .node (List.mem_reverse.2 hd) he, herror⟩

theorem HasError.putAround (h : HasError ps) : HasError (Sketch.putAround kind inner ps) := by
  unfold Sketch.putAround
  split
  · obtain ⟨e, he, herror⟩ := h
    rcases List.mem_cons.1 he with heq | he
    · obtain ⟨c, hc, hkind⟩ := herror
      exact ⟨_, List.mem_cons_self, c, .first (Piece.node.inj heq ▸ hc), hkind⟩
    · exact ⟨e, List.mem_cons_of_mem _ he, herror⟩
  · exact h.cons _

theorem HasError.inside (h : HasError inner) : HasError (Sketch.putAround kind inner ps) := by
  unfold Sketch.putAround
  split
  · obtain ⟨d, hd, e, he, herror⟩ := h
    exact ⟨_, List.mem_cons_self, e, .around (List.mem_reverse.2 hd) he, herror⟩
  · exact h.node

theorem HasError.of_pieces (h : HasError d.pieces) : HasError [.node d] := by
  obtain ⟨e, he, c, hc, herror⟩ := h
  refine ⟨d, List.mem_singleton_self _, c, ?_, herror⟩
  cases d with
  | node kind parts => exact .node he hc
  | around kind first parts =>
    rcases List.mem_cons.1 he with heq | he
    · cases heq
      exact .first hc
    · exact .around he hc

/-- Nodes of words that fit nowhere. -/
def OnlyErrors (ps : List (Piece Draft)) : Prop := ∀ p ∈ ps, ∃ d, p = .node d ∧ d.kind = .errorNode

theorem OnlyErrors.kind_eq (h : OnlyErrors ps) (hd : .node d ∈ ps) :
    d.kind = .errorNode := by
  obtain ⟨d', hd', hkind⟩ := h _ hd
  cases hd'
  exact hkind

theorem OnlyErrors.word_notMem (h : OnlyErrors ps) : .word w ∉ ps := by
  intro hw
  obtain ⟨d, hd, -⟩ := h _ hw
  cases hd

theorem OnlyErrors.eq_nil (h : OnlyErrors ps) (hfit : ¬ HasError (ps ++ inner)) : ps = [] := by
  cases ps with
  | nil => rfl
  | cons p ps =>
    obtain ⟨d, rfl, hkind⟩ := h p List.mem_cons_self
    exact absurd ⟨d, List.mem_cons_self, d, .refl d, hkind⟩ hfit

end Draft

open Draft

/-! ### Problems that are passed over -/

namespace Parsing

/-- A node that holds words that fit nowhere stays among the parts. -/
theorem Sketch.kept_hasError : Kept fun (h : Prop) (s : Sketch) => h → HasError s.parts where
  perform {_ s} a h := by
    cases a with
    | take =>
      intro hs
      change HasError s.take.parts
      rw [take]
      split
      · exact h hs
      · exact (h hs).cons _
    | report place cause => exact h
    | silence => exact h
    | listen => exact h
  stretch {P s} scope h := by
    cases scope with
    | node kind => exact ⟨False, False.elim, fun _ _ hs => (h hs).cons _⟩
    | wrap kind => exact ⟨False, False.elim, fun _ _ hs => (h hs).putAround⟩
    | stopAt kinds => exact ⟨P, h, fun _ => id⟩
    | nested => exact ⟨P, h, fun _ => id⟩
    | measured => exact ⟨P, h, fun _ => id⟩

variable {α : Type} {fuel : Nat} {x : Script α} {s t : Sketch} {a : α}

theorem Sketch.hasError_of_run (hrun : x.run (Script.runRule Grammar.script fuel) fuel s = some (a, t))
    (hs : HasError s.parts) : HasError t.parts :=
  kept_hasError.run (i := True) (fun _ => hs) hrun kept_hasError.runRule trivial

end Parsing

/-- An expression that is too deep is put into an error node. -/
theorem Grammar.hasError_skipDeepExpression {fuel : Nat} {s t : Sketch} {v : Unit}
    (hrun : skipDeepExpression.run (Script.runRule script fuel) fuel s = some (v, t)) :
    HasError t.parts := by
  obtain ⟨_, u, -, hrun⟩ := Script.run_bind_iff.1 hrun
  obtain ⟨parts, hparts⟩ := Sketch.parts_node hrun
  rw [hparts]
  exact hasError_errorNode parts

/-- Where problems begin to be passed over on a line, words inside what has been put fit nowhere. -/
theorem Parsing.tells_hasError : Tells fun _ t => HasError t.parts where
  before _ h := h
  behind := Sketch.hasError_of_run
  within {scope _ _} h := by
    cases scope with
    | node kind => exact h.node
    | wrap kind => exact h.inside
    | stopAt kinds => exact h
    | nested => exact h
    | measured => exact h
  deep _ := Grammar.hasError_skipDeepExpression

/-! ### Parts before -/

/-- The parts before, if they do not end in a node, make no difference. -/
theorem Parsing.Sketch.simulation_fresh : Simulation fun (before : List (Piece Draft)) (s t : Sketch) =>
    s = { t with parts := t.parts ++ before } ∧ ∀ d more, before ≠ .node d :: more where
  answer q h := by
    obtain ⟨rfl, -⟩ := h
    rfl
  perform {before _ t} a h := by
    obtain ⟨rfl, hbefore⟩ := h
    refine ⟨?_, hbefore⟩
    cases a with
    | take =>
      show Sketch.take _ = { t.take with parts := t.take.parts ++ before }
      cases hrest : t.rest with
      | nil => simp only [Sketch.take, hrest]
      | cons w ws => simp only [Sketch.take, hrest, List.cons_append]
    | report place cause => rfl
    | silence => rfl
    | listen => rfl
  stretch {before _ t} scope h := by
    obtain ⟨rfl, hbefore⟩ := h
    cases scope with
    | node kind =>
      refine ⟨[], ⟨rfl, by simp⟩, ?_⟩
      rintro u v ⟨rfl, -⟩
      exact ⟨by simp [Machine.leave, Machine.begin, Sketch.leave, Sketch.begin], hbefore⟩
    | wrap kind =>
      refine ⟨[], ⟨rfl, by simp⟩, ?_⟩
      rintro u v ⟨rfl, -⟩
      refine ⟨?_, hbefore⟩
      have hparts : Sketch.putAround kind (v.parts ++ []) (t.parts ++ before) =
          Sketch.putAround kind v.parts t.parts ++ before := by
        rw [List.append_nil]
        rcases hnil : t.parts with - | ⟨w | d, more⟩
        · unfold Sketch.putAround
          split
          · next d more hmore => exact absurd hmore (hbefore d more)
          · rfl
        · rfl
        · rfl
      show { v with parts := Sketch.putAround kind (v.parts ++ []) (t.parts ++ before) } = _
      rw [hparts]
      rfl
    | stopAt kinds => exact ⟨before, ⟨rfl, hbefore⟩, fun u v h => ⟨by rw [h.1]; rfl, hbefore⟩⟩
    | nested => exact ⟨before, ⟨rfl, hbefore⟩, fun u v h => ⟨by rw [h.1]; rfl, hbefore⟩⟩
    | measured => exact ⟨before, ⟨rfl, hbefore⟩, fun u v h => ⟨by rw [h.1]; rfl, hbefore⟩⟩

/-- A run behind a word puts what it puts where nothing is before. -/
theorem Parsing.Sketch.exists_run_fresh {α : Type} {x : Script α} {fuel : Nat} {s t : Sketch} {a : α}
    (hbefore : ∀ d more, s.parts ≠ .node d :: more)
    (hrun : x.run (Script.runRule Grammar.script fuel) fuel s = some (a, t)) :
    ∃ u, x.run (Script.runRule Grammar.script fuel) fuel s.fresh = some (a, u) ∧
      t = { u with parts := u.parts ++ s.parts } := by
  obtain ⟨u, hu, ht, -⟩ := simulation_fresh.run (i := s.parts) (s := s) (t := s.fresh) ⟨rfl, hbefore⟩ hrun
    simulation_fresh.runRule
  exact ⟨u, hu, ht⟩

/-! ### Names and what they call -/

/-- The first word of a reference. -/
inductive Draft.Refers (w : Word) : Draft → Prop where
  | name (parts : List (Piece Draft)) : Refers w (.node .identifier (.word w :: parts))
  | call (parts inner : List (Piece Draft)) :
    Refers w (.around .functionCall (.node .identifier (.word w :: parts)) inner)

theorem Draft.Refers.exists_words {w : Word} {d : Draft} (h : d.Refers w) :
    ∃ ws, d.words = w :: ws := by
  cases h with
  | name parts => exact ⟨_, rfl⟩
  | call parts inner => exact ⟨_, rfl⟩

namespace Grammar

open Script

variable {fuel : Nat} {s t : Sketch} {v : Unit}

/-- A name that is next is put as one node that starts with a word. -/
theorem exists_identifier (hk : s.onLine = some .ident)
    (hrun : identifier.run (runRule script fuel) fuel s = some (v, t)) : ∃ w parts,
      t.parts = .node (.node .identifier (.word w :: parts)) :: s.parts := by
  have hknows : Knows (some .ident) s.toReading := by
    rintro k ⟨⟩
    exact Reading.current_of_onLine hk
  obtain ⟨u, hu, rfl⟩ := run_within_iff.1 hrun
  obtain ⟨w, before, hw⟩ := (takesFirst_take .ident).bind s.fresh v u hu hknows
  refine ⟨w, before.reverse, ?_⟩
  show Piece.node (.node .identifier u.parts.reverse) :: s.parts = _
  rw [← hw]
  simp [Sketch.fresh]

/-- A name that is next is put as a reference, which starts with it. -/
theorem exists_refers (hk : s.onLine = some .ident)
    (hrun : nameReference.run (runRule script fuel) fuel s = some (v, t)) :
    ∃ w d, d.Refers w ∧ s.text = w.text ∧ t.parts = .node d :: s.parts := by
  have hput : ∃ w d, d.Refers w ∧ t.parts = .node d :: s.parts := by
    obtain ⟨_, u, hu, hrun⟩ := run_bind_iff.1 hrun
    obtain ⟨w, parts, hparts⟩ := exists_identifier hk hu
    rw [onLine, run_ask_bind] at hrun
    split at hrun
    · obtain ⟨inner, -, rfl⟩ := run_within_iff.1 hrun
      refine ⟨w, _, .call parts inner.parts.reverse, ?_⟩
      show Sketch.putAround .functionCall inner.parts u.parts = _
      rw [hparts, Sketch.putAround]
    · obtain ⟨-, rfl⟩ := run_pure_iff.1 hrun
      exact ⟨w, _, .name parts, hparts⟩
  obtain ⟨w, d, hd, hparts⟩ := hput
  refine ⟨w, d, hd, ?_, hparts⟩
  obtain ⟨ws, hwords⟩ := hd.exists_words
  have hrest : s.rest = w :: (ws ++ t.rest) := by
    have hall : s.rest = wordsOfAll [.node d] ++ t.rest := words_of_run hrun hparts
    rw [hall]
    simp [wordsOfAll, hwords]
  rw [Reading.text, hrest]
  rfl

/-! ### The rest of a line -/

/-- What is left of a line is put into at most one node. -/
theorem parts_lineEnd (hrun : lineEnd.run (runRule script fuel) fuel s = some (v, t)) :
    ∃ errors, t.parts = errors ++ s.parts ∧ OnlyErrors errors := by
  have hskip {s t : Sketch} (hrun : (do node .errorNode takeLine; listen : Script Unit).run
      (runRule script fuel) fuel s = some (v, t)) : ∃ errors, t.parts = errors ++ s.parts ∧
        OnlyErrors errors := by
    obtain ⟨_, u, hu, hlisten⟩ := run_bind_iff.1 hrun
    obtain rfl := run_act_iff.1 hlisten
    obtain ⟨parts, hparts⟩ := Sketch.parts_node hu
    refine ⟨[.node (.node .errorNode parts)], hparts, fun p hp => ?_⟩
    exact ⟨_, List.mem_singleton.1 hp, rfl⟩
  by_cases hend : AtEnd s
  · rw [lineEnd, run_statementEnds_of_atEnd hend] at hrun
    obtain rfl := run_act_iff.1 hrun
    exact ⟨[], rfl, by simp [OnlyErrors]⟩
  · rw [lineEnd, run_statementEnds_of_not hend] at hrun
    have hrun : (current >>= _).run (runRule script fuel) fuel s = some (v, t) := hrun
    rw [current, run_ask_bind] at hrun
    split at hrun
    · exact hskip hrun
    · exact hskip hrun
    · obtain ⟨_, u, hu, hrun⟩ := run_bind_iff.1 hrun
      obtain rfl := run_act_iff.1 hu
      exact hskip (s := s.perform (.report .here (.trailing _))) hrun

end Grammar

/-! ### References in trees -/

/-- Words that fit nowhere inside a draft are in an error node inside its node. -/
theorem Draft.HasError.exists_errorNode {n : Node} {d : Draft} (h : HasError [.node d])
    (hn : (Tree.node n.kind n.children).Shows d) :
    ∃ m ∈ (Tree.node n.kind n.children).nodes n.start, m.kind = .errorNode := by
  obtain ⟨d', hd, e, he, hkind⟩ := h
  cases List.mem_singleton.1 hd
  obtain ⟨m, hm, hshape⟩ := Tree.exists_mem_nodes he hn.shape n.start
  exact ⟨m, hm, (Node.kind_eq_of_shape hshape).trans hkind⟩

namespace Node.Stands

variable {n : Node} {start : Nat} {xs front : List Lexeme} {d : Draft} {w : Word}
  {parts inner : List (Piece Draft)}

end Node.Stands

end CRBasic
