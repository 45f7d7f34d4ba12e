import CRBasic.Grammar.Line
import CRBasic.Proofs.Parsing.Fuel
import CRBasic.Proofs.Parsing.Sketch

/-!
# Putting parts

A script that succeeds takes words from the front of the rest and puts parts behind those of the open
node (`Sketch.put`).  What it yields is built up from what its steps yield, part by part.
-/

namespace CRBasic

namespace Parsing

namespace Sketch

/-- The sketch after some parts, with the given words left. -/
def put (s : Sketch) (post : List Word) (ps : List (Piece Draft)) : Sketch :=
  { s with
    rest := post
    taken := s.taken + (Draft.wordsOfAll ps).length
    parts := ps.reverse ++ s.parts }

/-- The sketch inside a new node. -/
def fresh (s : Sketch) : Sketch := { s with parts := [] }

/-- The sketch inside a nested stretch. -/
def deeper (s : Sketch) : Sketch := { s with depth := s.depth + 1 }

/-- The sketch inside a measured stretch. -/
def measured (s : Sketch) : Sketch := { s with origins := s.taken :: s.origins }

variable {s : Sketch} {post post' : List Word} {ps qs : List (Piece Draft)}

theorem put_put : (s.put post ps).put post' qs = s.put post' (ps ++ qs) := by
  simp [put, Nat.add_assoc]

/-- A sketch in the same surroundings, before the given words. -/
structure Before (s : Sketch) (post : List Word) (u : Sketch) : Prop where
  rest : u.rest = post
  depth : u.depth = s.depth
  options : u.options = s.options
  frames : u.frames = s.frames
  silenced : u.silenced = s.silenced

theorem before_put : Before s post (s.put post ps) := ⟨rfl, rfl, rfl, rfl, rfl⟩

theorem Before.room {u : Sketch} {n : Nat} (h : s.Before post u)
    (hroom : s.depth + n ≤ s.options.maxDepth) : u.depth + n ≤ u.options.maxDepth := by
  rwa [h.depth, h.options]

theorem put_nil : s.put s.rest [] = s := rfl

end Sketch

namespace Script

variable {script : Rule → Script Unit} {α β : Type} {s t : Sketch} {post post' : List Word}
  {ps qs : List (Piece Draft)} {x : Script α} {f : α → Script β} {a : α} {b : β} {w : Word}

/-- Scripts after one another put their parts after one another. -/
theorem Yields.andThen (hx : Yields script x s a (s.put post ps))
    (hf : ∀ u, s.Before post u → Yields script (f a) u b (u.put post' qs)) :
    Yields script (x >>= f) s b (s.put post' (ps ++ qs)) := by
  have hb := hf (s.put post ps) Sketch.before_put
  rw [Sketch.put_put] at hb
  exact hx.bind hb

theorem Yields.thenPure (hx : Yields script x s a (s.put post ps)) (b : β) :
    Yields script (x >>= fun _ => pure b) s b (s.put post ps) :=
  hx.bind (yields_pure b)

/-- A script, run from a state on some fuel, ends in a state, with whatever result. -/
def Leads (script : Rule → Script Unit) (x : Script α) (s t : Sketch) : Prop :=
  ∃ a, Yields script x s a t

theorem Yields.leads (h : Yields script x s a t) : Leads script x s t := ⟨a, h⟩

theorem Leads.yields {x : Script Unit} (h : Leads script x s t) : Yields script x s () t := by
  obtain ⟨u, h⟩ := h
  exact h

theorem leads_pure (a : α) : Leads script (pure a) s s := ⟨a, yields_pure a⟩

theorem leads_ask {q : Query β} {f : β → Script α}
    (h : Leads script (f (Machine.answer s q)) s t) : Leads script (.ask q .done >>= f) s t := h

theorem Leads.bind {u : Sketch} (hx : Leads script x s t)
    (hf : ∀ a, Leads script (f a) t u) : Leads script (x >>= f) s u := by
  obtain ⟨a, ha⟩ := hx
  obtain ⟨b, hb⟩ := hf a
  exact ⟨b, ha.bind hb⟩

theorem Leads.andThen (hx : Leads script x s (s.put post ps))
    (hf : ∀ a u, s.Before post u → Leads script (f a) u (u.put post' qs)) :
    Leads script (x >>= f) s (s.put post' (ps ++ qs)) := by
  rw [← Sketch.put_put]
  exact hx.bind fun a => hf a _ Sketch.before_put

/-- Items after one another put their parts after one another. -/
theorem Leads.collect_cons {item : Script (Option β)}
    (h : ∃ b, Yields script item s (some b) (s.put post ps))
    (hmore : ∀ u, s.Before post u → Leads script (collect item) u (u.put post' qs)) :
    Leads script (collect item) s (s.put post' (ps ++ qs)) := by
  obtain ⟨b, hb⟩ := h
  obtain ⟨bs, hbs⟩ := hmore (s.put post ps) Sketch.before_put
  rw [Sketch.put_put] at hbs
  exact ⟨b :: bs, yields_collect_cons hb hbs⟩

end Script

end Parsing

namespace Grammar

open Parsing Parsing.Script

variable {script : Rule → Script Unit} {s t : Sketch} {w : Word} {post post' : List Word} {ps qs : List (Piece Draft)}
  {α β : Type}

/-! ### Answers -/

theorem answer_onLine (s : Sketch) : Machine.answer s Query.onLine = s.onLine := rfl

theorem answer_tooDeep (s : Sketch) : Machine.answer s Query.tooDeep = s.tooDeep := rfl

theorem answer_current (s : Sketch) : Machine.answer s Query.current = s.current := rfl

theorem answer_atAssignment (s : Sketch) :
    Machine.answer s Query.atAssignment = s.atAssignment := rfl

/-! ### Single words -/

theorem onLine_nil (h : s.rest = []) : s.onLine = none := by
  rw [Reading.onLine, h]

theorem onLine_cons (h : s.rest = w :: post) (hw : w.startsLine = false) :
    s.onLine = some w.kind := by
  rw [Reading.onLine, h]
  simp [hw]

theorem rest_of_onLine {k : TokenKind} (h : s.onLine = some k) :
    ∃ w ws, s.rest = w :: ws ∧ w.kind = k := by
  rw [Reading.onLine] at h
  split at h
  · cases h
  · next w ws hrest =>
    split at h
    · cases h
    · exact ⟨w, ws, hrest, Option.some.inj h⟩

theorem yields_onLine {f : Option TokenKind → Script α} {a : α} {k : TokenKind}
    (h : s.onLine = some k) (hf : Yields script (f (some k)) s a t) :
    Yields script (onLine >>= f) s a t := by
  rwa [onLine, yields_ask, answer_onLine, h]

theorem leads_onLine {f : Option TokenKind → Script α} {k : TokenKind} (h : s.onLine = some k)
    (hf : Leads script (f (some k)) s t) : Leads script (onLine >>= f) s t := by
  obtain ⟨a, ha⟩ := hf
  exact ⟨a, yields_onLine h ha⟩

theorem yields_take (h : s.rest = w :: post) :
    Yields script take s () (s.put post [.word w]) := by
  refine ⟨0, ?_⟩
  change some ((), s.take) = _
  rw [Sketch.take, h]
  rfl

theorem leads_node {x : Script α} (kind : NodeKind)
    (hx : ∀ u, s.Before s.rest u → Leads script x u (u.put post ps)) :
    Leads script (node kind x) s (s.put post [.node (.node kind ps)]) := by
  have hleave : Sketch.leave (s.fresh.put post ps) s.parts (.node kind) =
      s.put post [.node (.node kind ps)] := by
    simp [Sketch.leave, Sketch.put, Sketch.fresh, Draft.wordsOfAll, Draft.words]
  rw [← hleave, node]
  obtain ⟨a, ha⟩ := hx s.fresh ⟨rfl, rfl, rfl, rfl, rfl⟩
  exact ⟨a, Yields.within ha⟩

theorem yields_node {x : Script Unit} (kind : NodeKind)
    (hx : ∀ u, s.Before s.rest u → Yields script x u () (u.put post ps)) :
    Yields script (node kind x) s () (s.put post [.node (.node kind ps)]) :=
  (leads_node kind fun u hu => (hx u hu).leads).yields

theorem yields_wrap {x : Script Unit} {d : Draft} (kind : NodeKind)
    (hx : ∀ u, s.Before post u → Yields script x u () (u.put post' ps)) :
    Yields script (wrap kind x) (s.put post [.node d]) ()
      (s.put post' [.node (.around kind d ps)]) := by
  have hleave : Sketch.leave ((s.put post [.node d]).fresh.put post' ps)
      (s.put post [.node d]).parts (.wrap kind) = s.put post' [.node (.around kind d ps)] := by
    simp [Sketch.leave, Sketch.putAround, Sketch.put, Sketch.fresh, Draft.wordsOfAll, Draft.words,
      Nat.add_assoc]
  rw [← hleave, wrap]
  exact Yields.within (hx (s.put post [.node d]).fresh ⟨rfl, rfl, rfl, rfl, rfl⟩)

theorem leads_measured {x : Script α}
    (hx : ∀ u, s.Before s.rest u → Leads script x u (u.put post ps)) :
    Leads script (within .measured x) s (s.put post ps) := by
  have hleave : Sketch.leave (s.measured.put post ps) s.parts .measured = s.put post ps := rfl
  rw [← hleave]
  obtain ⟨a, ha⟩ := hx s.measured ⟨rfl, rfl, rfl, rfl, rfl⟩
  exact ⟨a, Yields.within ha⟩

theorem yields_nested {x : Script α} {a : α}
    (h : Yields script x s.deeper a (s.deeper.put post ps)) :
    Yields script (within .nested x) s a (s.put post ps) := by
  have hleave : Sketch.leave (s.deeper.put post ps) s.parts .nested = s.put post ps := rfl
  rw [← hleave]
  exact Yields.within h

theorem yields_oneWord (kind : NodeKind) (h : s.rest = w :: post) :
    Yields script (oneWord kind) s () (s.put post [.node (.node kind [.word w])]) :=
  yields_node kind fun _ hu => yields_take (hu.rest.trans h)

theorem yields_eat {kind : TokenKind} (h : s.rest = w :: post) (hw : w.startsLine = false)
    (hkind : w.kind = kind) : Yields script (eat kind) s true (s.put post [.word w]) := by
  refine yields_onLine (onLine_cons h hw) ?_
  rw [hkind, beq_self_eq_true, if_pos rfl]
  exact (yields_take h).thenPure true

theorem yields_eat_none {kind : TokenKind} (h : s.onLine ≠ some kind) :
    Yields script (eat kind) s false s := by
  have hbeq : (s.onLine == some kind) = false := by simpa using h
  rw [eat, onLine, yields_ask, answer_onLine, hbeq]
  exact yields_pure false

theorem yields_want {kind : TokenKind} (h : s.rest = w :: post) (hw : w.startsLine = false)
    (hkind : w.kind = kind) : Yields script (want kind) s () (s.put post [.word w]) := by
  refine Yields.thenPure (a := true) ?_ ()
  exact (yields_eat h hw hkind).bind (yields_pure true)

/-! ### Ends of lines -/

theorem yields_listen (h : s.silenced = false) : Yields script listen s () s := by
  have hperform : s.perform .listen = s := by
    change { s with silenced := false } = s
    rw [← h]
  refine ⟨0, ?_⟩
  change some ((), s.perform .listen) = _
  rw [hperform]

theorem yields_lineEnd (hrest : s.rest = []) (hsilenced : s.silenced = false) :
    Yields script lineEnd s () s := by
  have hends : Yields script statementEnds s true s := by
    rw [statementEnds, onLine, yields_ask, answer_onLine, onLine_nil hrest]
    exact yields_pure true
  exact hends.bind (yields_listen hsilenced)

end Grammar

end CRBasic
