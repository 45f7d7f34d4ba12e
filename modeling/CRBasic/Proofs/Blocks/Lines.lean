import CRBasic.Proofs.Blocks.Rules
import CRBasic.Proofs.Grammar.Walk

/-!
# Lines lay down no blocks

What stands on one line lays down no block (`lays_expression` and so on): it takes no word that ends one,
other than words that fit nowhere, and without a problem its nodes have the parts that they need.
-/

namespace CRBasic

namespace Grammar

open Parsing Parsing.Script Draft

variable {fuel : Nat} {K kind : NodeKind} {blamed : Bool} {α β : Type} {o : Option TokenKind}
  {k : TokenKind} {s t u : Sketch} {a : α} {ps : List (Piece Draft)}

/-- One part, which is an expression. -/
def IsExpression (ps : List (Piece Draft)) : Prop := ∃ d, ps = [.node d] ∧ Expr.isForm d.kind

/-- The last part is a closing parenthesis. -/
def EndsInParen (ps : List (Piece Draft)) : Prop :=
  ∃ qs closing, ps = qs ++ [.word closing] ∧ closing.kind = .rParen

theorem EndsInParen.prepend (ps : List (Piece Draft)) {qs : List (Piece Draft)} (h : EndsInParen qs) :
    EndsInParen (ps ++ qs) := by
  obtain ⟨qs, w, rfl, hw⟩ := h
  exact ⟨ps ++ qs, w, by rw [List.append_assoc], hw⟩

/-- The parts of the second step end in a parenthesis, and so do those of both. -/
theorem lays_thenParen {x : Script α} {f : α → Script β} {P : α → List (Piece Draft) → Prop}
    (hx : Lays fuel K blamed o x P)
    (hf : ∀ a, Lays fuel K blamed none (f a) fun _ ps => EndsInParen ps) :
    Lays fuel K blamed o (x >>= f) fun _ ps => EndsInParen ps :=
  lays_bind hx fun a => (hf a).mono fun _ _ h ps _ => h.prepend ps

/-! ### Single words -/

theorem lays_eat (hk : k.isTerminator = false) : Lays fuel K blamed o (eat k) fun c ps =>
    (c = true ∧ ∃ w, ps = [.word w] ∧ w.kind = k) ∨ (c = false ∧ ps = []) := by
  refine lays_ifOnLine (lays_bind (lays_take hk) fun _ => lays_pure fun ps hps => ?_)
    (lays_pure (.inr ⟨rfl, rfl⟩))
  exact .inl ⟨rfl, by rwa [List.append_nil]⟩

theorem lays_expect (hk : k.isTerminator = false) : Lays fuel K blamed o (expect k) fun c ps =>
    c = true ∧ ∃ w, ps = [.word w] ∧ w.kind = k := by
  refine lays_bind (lays_eat hk) fun c => ?_
  cases c with
  | true => exact lays_pure fun ps hps => ⟨rfl, by simpa using hps⟩
  | false => exact lays_report_bind rfl (lays_pure trivial)

theorem lays_want (hk : k.isTerminator = false) : Lays fuel K blamed o (want k) fun _ ps =>
    ∃ w, ps = [.word w] ∧ w.kind = k :=
  lays_bind (lays_expect hk) fun _ => lays_pure fun ps hps => by rw [List.append_nil]; exact hps.2

theorem lays_named {part : Part} {body : Script Unit} {Q : Unit → List (Piece Draft) → Prop}
    (h : Lays fuel K blamed (some .ident) body Q) : Lays fuel K blamed o (named part body) Q :=
  lays_ifOnLine h (lays_report rfl)

theorem lays_separated {item : Script α} (h : Lays fuel K blamed none item Free) :
    Lays fuel K blamed o (separated item) Free := by
  refine lays_seq h.forget fun _ => lays_seq (lays_collect ?_) fun _ => lays_pure trivial
  refine lays_seq (lays_eat rfl) fun c => ?_
  split
  · exact lays_seq h fun _ => lays_pure trivial
  · exact lays_pure trivial

theorem lays_wantParen : Lays fuel K blamed o (want .rParen) fun _ ps => EndsInParen ps :=
  (lays_want rfl).mono fun _ _ ⟨w, hps, hw⟩ => ⟨[], w, hps, hw⟩

/-! ### Ends of lines -/

theorem lays_statementEnds {f : Bool → Script β} {R : β → List (Piece Draft) → Prop}
    (hend : Lays fuel K blamed none (f true) R)
    (hmore : ∀ k, Lays fuel K blamed (some k) (f false) R) :
    Lays fuel K blamed o (statementEnds >>= f) R := by
  rw [statementEnds, LawfulMonad.bind_assoc]
  refine lays_onLine fun o => ?_
  cases o with
  | none => exact hend
  | some k =>
    refine lays_ask fun c => ?_
    cases c with
    | true => exact hend.forget
    | false => exact hmore k

theorem lays_lineEnd : Lays fuel K blamed o lineEnd Free := by
  have hskip {o : Option TokenKind} {b : Bool} (h : b = true ∨ o = some .error) :
      Lays fuel K b o (do node .errorNode takeLine; listen) Free :=
    lays_seq (lays_errorNode (Q := Free) skips_takeLine h) fun _ => lays_listen
  refine lays_statementEnds lays_listen fun k => lays_current ?_
  split
  · next hk => cases hk
  · next hk => exact hskip (.inr hk)
  · exact lays_report_bind rfl (hskip (.inl rfl))

theorem lays_skipDeepExpression {Q : Unit → List (Piece Draft) → Prop} :
    Lays fuel K blamed o skipDeepExpression Q :=
  lays_report_bind rfl
    (lays_errorNode (skips_bind skips_silence fun _ => skips_takeLine) (.inl rfl))

theorem skips_startsAnotherStatement : Skips fuel startsAnotherStatement := by
  refine skips_ask fun o => ?_
  split <;> exact skips_pure _

theorem lays_skipWords (h : blamed = true ∨ o = some .error) :
    Lays fuel K blamed o skipWords Free := by
  refine lays_errorNode (skips_bind skips_take fun _ => skips_whileM ?_ skips_take) h
  exact skips_bind skips_statementEnds fun _ =>
    skips_bind skips_startsAnotherStatement fun _ => skips_pure _

theorem lays_skipDeepStatement : Lays fuel K blamed o skipDeepStatement Free :=
  lays_report_bind rfl (lays_errorNode (skips_bind skips_take fun _ => skips_takeLine) (.inl rfl))

/-! ### Names and arguments -/

theorem lays_identifier : Lays fuel K blamed (some .ident) identifier Free := by
  have hname : Lays fuel .identifier blamed none (do
      if ← eat .dot then
        if ← eat .ident then return some ()
        else
          report .here (.missingPart .nameAfterDot)
          return none
      else return none) Free := by
    refine lays_seq (lays_eat rfl) fun c => ?_
    split
    · refine lays_seq (lays_eat rfl) fun c => ?_
      split
      · exact lays_pure trivial
      · exact lays_report_bind rfl (lays_pure trivial)
    · exact lays_pure trivial
  exact lays_node rfl nofun (lays_seq (lays_take rfl) fun _ =>
    lays_seq (lays_collect hname) fun _ => lays_pure trivial) fun _ _ _ => trivial

/-! ### Operands -/

/-- Where the next word is as given, every run of a script takes a word before it puts anything else. -/
def TakesFirst (fuel : Nat) {α : Type} (o : Option TokenKind) (x : Script α) : Prop :=
  ∀ (s : Sketch) (a : α) (t : Sketch), x.run (runRule script fuel) fuel s = some (a, t) →
    Knows o s.toReading → ∃ w, .word w :: s.parts <:+ t.parts

theorem takesFirst_take (k : TokenKind) : TakesFirst fuel (some k) take := by
  intro s _ t hrun ho
  obtain rfl : t = s.take := run_act_iff.1 hrun
  obtain ⟨w, ws, hrest, -⟩ := Reading.exists_rest (ho k rfl)
  have hparts : s.take.parts = .word w :: s.parts := by rw [Sketch.take_eq hrest]
  exact ⟨w, hparts ▸ List.suffix_refl _⟩

theorem TakesFirst.bind {x : Script α} {f : α → Script β} (h : TakesFirst fuel o x) :
    TakesFirst fuel o (x >>= f) := by
  intro s b u hrun ho
  obtain ⟨a, t, ht, hu⟩ := run_bind_iff.1 hrun
  obtain ⟨w, hw⟩ := h s a t ht ho
  have hkept := Sketch.kept_parts.run (i := .word w :: s.parts) (s := t) ⟨hw, nofun⟩ hu
    Sketch.kept_parts.runRule
  exact ⟨w, hkept.1⟩

/-- One part has been put, which starts with a word and is no statement list, and without a problem an
expression. -/
def LaidOperand (K : NodeKind) (blamed : Bool) (s t : Sketch) : Prop :=
  ∃ d, Laid K blamed s t [.node d] ∧ d.StartsWithWord ∧ d.kind ≠ .stmtList ∧
    (blamed = false → Clean s.toReading t.toReading → Expr.isForm d.kind)

/-- Every run of a script puts one part like an operand. -/
def LaysOperand (fuel : Nat) (K : NodeKind) (blamed : Bool) {α : Type} (o : Option TokenKind)
    (x : Script α) : Prop :=
  ∀ (s : Sketch) (a : α) (t : Sketch), x.run (runRule script fuel) fuel s = some (a, t) →
    Knows o s.toReading → LaidOperand K blamed s t

theorem LaysOperand.lays {x : Script α} (h : LaysOperand fuel K blamed o x) :
    Lays fuel K blamed o x fun _ ps => IsExpression ps := by
  intro s a t hrun ho
  obtain ⟨d, hd, -, -, hform⟩ := h s a t hrun ho
  exact ⟨_, hd, fun hblamed hclean => ⟨d, rfl, hform hblamed hclean⟩⟩

theorem eq_singleton_of_laid {p : Piece Draft} (h : Laid K blamed s t ps)
    (ht : t.parts = p :: s.parts) : ps = [p] := by
  have hparts : ps.reverse ++ s.parts = [p] ++ s.parts := h.parts.symm.trans ht
  rw [← List.reverse_reverse ps, List.append_cancel_right hparts]
  rfl

/-- A node that takes a word first is one part, and starts with that word. -/
theorem laysOperand_node {x : Script α} (kind : NodeKind) (hlist : kind ≠ .stmtList)
    (hfirst : TakesFirst fuel o x) (h : Lays fuel K blamed o (node kind x) fun _ _ => Expr.isForm kind) :
    LaysOperand fuel K blamed o (node kind x) := by
  intro s a t hrun ho
  obtain ⟨ps, hps, hform⟩ := h s a t hrun ho
  obtain ⟨u, hu, rfl⟩ := run_within_iff.1 hrun
  obtain ⟨w, before, hw⟩ := hfirst s.fresh a u hu ho
  have hstarts : (Draft.node kind u.parts.reverse).StartsWithWord :=
    ⟨w, before.reverse, by rw [← hw]; simp [Sketch.fresh]⟩
  obtain rfl := eq_singleton_of_laid (p := .node (.node kind u.parts.reverse)) hps rfl
  exact ⟨_, hps, hstarts, hlist, hform⟩

/-- A node of an expression. -/
theorem laysOperand_form {x : Script α} {Q : α → List (Piece Draft) → Prop} (kind : NodeKind)
    (hends : kind.ends? = none) (hform : Expr.isForm kind) (hfirst : TakesFirst fuel o x)
    (hx : Lays fuel kind blamed o x Q) (hfits : ∀ a ps, Q a ps → kind.Fits ps) :
    LaysOperand fuel K blamed o (node kind x) := by
  have hlist : kind ≠ .stmtList := by
    rintro rfl
    cases hform
  exact laysOperand_node kind hlist hfirst ((lays_node hends hlist hx hfits).mono fun _ _ _ => hform)

/-- An operand after a problem. -/
theorem laidOperand_report {place : Place} {cause : Cause} (hcause : cause.isUnclosed = false)
    (h : LaidOperand K true (s.perform (.report place cause)) t)
    (ht : blamed = false → ¬ Clean s.toReading t.toReading) : LaidOperand K blamed s t := by
  obtain ⟨d, hd, hstarts, hlist, -⟩ := h
  exact ⟨d, laid_report hcause hd, hstarts, hlist, fun hblamed hclean => (ht hblamed hclean).elim⟩

/-- A node put around an operand. -/
theorem laidOperand_wrap {x : Script α} {Q : α → List (Piece Draft) → Prop}
    (hs : LaidOperand K blamed s t) (hx : Lays fuel kind blamed o x Q) (ho : Knows o t.toReading)
    (hrun : (wrap kind x).run (runRule script fuel) fuel t = some (a, u)) (hends : kind.ends? = none)
    (hkind : Expr.isForm kind) (hfits : ∀ a ps d, t.parts = .node d :: s.parts →
      Expr.isForm d.kind → Q a ps → kind.Fits (.node d :: ps)) : LaidOperand K blamed s u := by
  have htu := Sketch.goesOn_of_run hrun
  obtain ⟨d, hd, hstarts, hlist, hform⟩ := hs
  obtain ⟨v, hv, rfl⟩ := run_within_iff.1 hrun
  obtain ⟨ps, hps, hQ⟩ := hx t.fresh a v hv ho
  have hne : kind ≠ .stmtList := by
    rintro rfl
    cases hkind
  refine ⟨.around kind d ps, hd.wrap hps hends hne hlist ⟨hkind, hstarts⟩ fun hblamed hclean => ?_,
    hstarts, hne, fun _ _ => hkind⟩
  have hsecond := hd.second (u := v) htu hblamed hclean
  exact hfits a ps d hd.parts (hform hblamed (hclean.first htu))
    (hQ hblamed ⟨hsecond.heard, hsecond.reports, hsecond.words⟩)

theorem laysOperand_identifier : LaysOperand fuel K blamed (some .ident) identifier :=
  laysOperand_node .identifier nofun (takesFirst_take .ident).bind
    (lays_identifier.mono fun _ _ _ => rfl)

/-- A name with a call around it. -/
theorem laidOperand_call {x : Script α} {c : Unit} {Q : α → List (Piece Draft) → Prop}
    (hs : Knows (some .ident) s.toReading)
    (hname : identifier.run (runRule script fuel) fuel s = some (c, t))
    (hx : Lays fuel .functionCall blamed o x Q) (ho : Knows o t.toReading)
    (hrun : (wrap .functionCall x).run (runRule script fuel) fuel t = some (a, u)) :
    LaidOperand K blamed s u := by
  refine laidOperand_wrap (laysOperand_identifier s c t hname hs) hx ho hrun rfl rfl ?_
  intro _ ps d hd _ _
  obtain ⟨qs, hqs⟩ := Sketch.parts_node hname
  obtain rfl := Piece.node.inj (List.cons.inj (hd.symm.trans hqs)).1
  exact ⟨_, List.mem_cons_self, rfl⟩

/-- Calls of expressions lay down expressions. -/
def Expressions (fuel : Nat) : Prop :=
  ∀ {K : NodeKind} {blamed : Bool} {o : Option TokenKind} (power : Nat),
    Lays fuel K blamed o (expressionFrom power) fun _ ps => IsExpression ps

section Expressions

variable (hcalls : Expressions fuel)
include hcalls

/-! ### Arguments -/

theorem lays_argument : Lays fuel K blamed o argument Free :=
  lays_ask fun _ => lays_ask fun _ => lays_ask fun _ =>
    lays_seq (hcalls 0).forget fun _ => lays_ask fun _ => lays_pure trivial

theorem lays_argumentList : Lays fuel K blamed (some .lParen) argumentList Free := by
  refine lays_node rfl nofun (Q := fun _ ps => EndsInParen ps) ?_ fun _ _ => id
  refine lays_ask fun start => lays_thenParen (lays_take rfl) fun _ => ?_
  have hend (items : List Argument) : Lays fuel .argList blamed none
      (do want .rParen; let stop ← behind; return (⟨start, stop, items⟩ : Arguments))
      fun _ ps => EndsInParen ps :=
    lays_bind lays_wantParen fun _ => lays_ask fun _ => lays_pure fun ps hps => by rwa [List.append_nil]
  refine lays_onLine fun o => ?_
  split
  · exact (hend []).forget
  · exact lays_thenParen (lays_separated (lays_argument hcalls)) fun items => hend items

theorem lays_arguments : Lays fuel K blamed (some .lParen) arguments Free :=
  lays_measured (lays_seq (lays_argumentList hcalls) fun _ => lays_pure trivial)

theorem laysOperand_nameReference : LaysOperand fuel K blamed (some .ident) nameReference := by
  intro s _ u hrun ho
  obtain ⟨_, t, ht, hrun⟩ := run_bind_iff.1 hrun
  rw [onLine, run_ask_bind] at hrun
  split at hrun
  · next honLine =>
    have honLine : Machine.answer t Query.onLine = some .lParen := by simpa using honLine
    have hknows : Knows (some .lParen) t.toReading := honLine ▸ knows_onLine t.toReading
    exact laidOperand_call ho ht (lays_arguments hcalls) hknows hrun
  · obtain ⟨-, rfl⟩ := run_pure_iff.1 hrun
    exact laysOperand_identifier s _ _ ht ho

theorem lays_nameReference : Lays fuel K blamed (some .ident) nameReference fun _ ps =>
    IsExpression ps := (laysOperand_nameReference hcalls).lays

/-! ### Operands and operators -/

/-- An operand has been put, unless there has been a problem. -/
theorem laid_operand {c : Bool} (hrun : operand.run (runRule script fuel) fuel s = some (c, t)) :
    (c = true ∧ LaidOperand K blamed s t) ∨
      (c = false ∧ Laid K blamed s t [] ∧ (blamed = false → ¬ Clean s.toReading t.toReading)) := by
  have hdone {x : Script Unit} {b : Bool} {o : Option TokenKind} {s : Sketch}
      (h : LaysOperand fuel K b o x) (ho : Knows o s.toReading)
      (hrun : (x >>= fun _ => pure true).run (runRule script fuel) fuel s = some (c, t)) :
      c = true ∧ LaidOperand K b s t := by
    obtain ⟨_, u, hu, hrun⟩ := run_bind_iff.1 hrun
    obtain ⟨rfl, rfl⟩ := run_pure_iff.1 hrun
    exact ⟨rfl, h s _ t hu ho⟩
  have hword (kind : NodeKind) (k : TokenKind) (hk : k.isTerminator = false)
      (hends : kind.ends? = none) (hform : Expr.isForm kind)
      (hfits : ∀ w : Word, w.kind = k → kind.Fits [.word w]) :
      LaysOperand fuel K blamed (some k) (oneWord kind) :=
    laysOperand_form kind hends hform (takesFirst_take k) (lays_take hk)
      fun _ _ ⟨w, hps, hw⟩ => hps ▸ hfits w hw
  have hnumber := hword .numberLiteral .number rfl rfl rfl fun w hw => ⟨w, rfl, hw⟩
  have hstring := hword .stringLiteral .quotedString rfl rfl rfl fun w hw => ⟨w, rfl, hw⟩
  have htrue := hword .booleanLiteral .kwTrue rfl rfl rfl fun w hw => ⟨w, rfl, .inl hw⟩
  have hfalse := hword .booleanLiteral .kwFalse rfl rfl rfl fun w hw => ⟨w, rfl, .inr hw⟩
  have herror {b : Bool} {k : TokenKind} (h : b = true ∨ some k = some .error) :
      LaysOperand fuel K b (some k) (oneWord .errorNode) :=
    laysOperand_node .errorNode nofun (takesFirst_take k) (lays_errorNode skips_take h)
  have ho := knows_onLine s.toReading
  rw [operand, onLine, run_ask_bind, answer_onLine] at hrun
  split at hrun
  · next hk => exact .inl (hdone hnumber (hk ▸ ho) hrun)
  · next hk => exact .inl (hdone hstring (hk ▸ ho) hrun)
  · next hk => exact .inl (hdone htrue (hk ▸ ho) hrun)
  · next hk => exact .inl (hdone hfalse (hk ▸ ho) hrun)
  · next hk => exact .inl (hdone (herror (.inr rfl)) (hk ▸ ho) hrun)
  · next hk => exact .inl (hdone (laysOperand_nameReference hcalls) (hk ▸ ho) hrun)
  · next hk =>
    refine .inl (hdone (laysOperand_form .parenExpr rfl rfl (takesFirst_take .lParen).bind
      (Q := fun _ ps => NodeKind.Fits .parenExpr ps) ?_ fun _ _ => id) (hk ▸ ho) hrun)
    refine lays_bind (lays_take rfl) fun _ => lays_bind (hcalls 0) fun _ => (lays_want rfl).mono ?_
    rintro _ _ ⟨closing, rfl, hclosing⟩ _ ⟨d, rfl, hd⟩ _ ⟨opening, rfl, -⟩
    exact ⟨opening, d, closing, rfl, hd, hclosing⟩
  · have hunclean : blamed = false → ¬ Clean s.toReading t.toReading :=
      fun _ hclean => Sketch.reports_ne_nil hclean.heard hrun hclean.reports
    obtain ⟨_, u, hu, hrun⟩ := run_bind_iff.1 hrun
    obtain rfl := run_act_iff.1 hu
    rw [atStop, run_ask_bind] at hrun
    split at hrun
    · obtain ⟨rfl, rfl⟩ := run_pure_iff.1 hrun
      exact .inr ⟨rfl, laid_report rfl (.refl _), hunclean⟩
    · next hstop =>
      -- Where there is no word on the line, the operand is left to what surrounds it.
      obtain ⟨k, hk⟩ : ∃ k, s.onLine = some k := by
        cases hnext : s.onLine with
        | none => simp [hnext, leavesOperand] at hstop
        | some k => exact ⟨k, rfl⟩
      obtain ⟨hc, h⟩ := hdone (herror (k := k) (.inl rfl)) (hk ▸ ho).report hrun
      exact .inl ⟨hc, laidOperand_report rfl h hunclean⟩

/-- An operator word and the expression after it. -/
theorem lays_operation {right : Nat} (hk : k.isTerminator = false) :
    Lays fuel K blamed (some k) (do take; expressionFrom right) fun _ ps =>
      ∃ op d, ps = [.word op, .node d] ∧ Expr.isForm d.kind := by
  refine lays_bind (lays_take hk) fun _ => (hcalls right).mono ?_
  rintro _ _ ⟨d, rfl, hd⟩ _ ⟨op, rfl, -⟩
  exact ⟨op, d, rfl, hd⟩

omit hcalls in
theorem isTerminator_of_infixPower? {powers : Nat × Nat} (h : k.infixPower? = some powers) :
    k.isTerminator = false := by
  cases k <;> first | rfl | cases h

omit hcalls in
theorem isTerminator_of_prefixPower? {power : Nat} (h : k.prefixPower? = some power) :
    k.isTerminator = false := by
  cases k <;> first | rfl | cases h

omit hcalls in
/-- One operator, if one is next, and the operand after it. -/
def operation? (power : Nat) : Script (Option Unit) := do
  match (← onLine).bind (·.infixPower?) with
  | none => return none
  | some (left, right) =>
    if left < power then return none
    else
      wrap .binaryExpr do
        take
        expressionFrom right
      return some ()

theorem laidOperand_operation {power : Nat} {c : Option Unit} (hs : LaidOperand K blamed s t)
    (hrun : (operation? power).run (runRule script fuel) fuel t = some (c, u)) :
    LaidOperand K blamed s u := by
  have ho := knows_onLine t.toReading
  rw [operation?, onLine, run_ask_bind, answer_onLine] at hrun
  split at hrun
  · obtain ⟨-, rfl⟩ := run_pure_iff.1 hrun
    exact hs
  · next left right hop =>
    split at hrun
    · obtain ⟨-, rfl⟩ := run_pure_iff.1 hrun
      exact hs
    · obtain ⟨k, hk, hinfix⟩ := Option.bind_eq_some_iff.1 hop
      obtain ⟨_, w, hw, hrun⟩ := run_bind_iff.1 hrun
      obtain ⟨-, rfl⟩ := run_pure_iff.1 hrun
      refine laidOperand_wrap hs (lays_operation hcalls (isTerminator_of_infixPower? hinfix))
        (hk ▸ ho) hw rfl rfl ?_
      rintro _ _ d - hd ⟨op, e, rfl, he⟩
      exact ⟨d, op, e, rfl, hd, he⟩

/-- Operators leave one operand. -/
theorem laidOperand_operators {power : Nat} (hs : LaidOperand K blamed s t)
    (hrun : (operators power).run (runRule script fuel) fuel t = some ((), u)) :
    LaidOperand K blamed s u := by
  have hrun : (collect (operation? power) >>= fun _ => pure ()).run (runRule script fuel) fuel t =
      some ((), u) := hrun
  obtain ⟨_, v, hv, hrun⟩ := run_bind_iff.1 hrun
  obtain ⟨-, rfl⟩ := run_pure_iff.1 hrun
  rw [run_collect_iff] at hv
  refine repeatStep_induction (P := fun _ t _ u => LaidOperand K blamed s t → LaidOperand K blamed s u)
    ?_ ?_ hv hs
  · exact fun _ t u htu hs => laidOperand_operation hcalls hs htu
  · exact fun _ t b v _ u htv _ ih hs => ih (laidOperand_operation hcalls hs htv)

/-- An expression is laid down as one operand, unless there has been a problem. -/
theorem laid_expressionBody {power : Nat} {v : Unit}
    (hrun : (expressionBody power).run (runRule script fuel) fuel s = some (v, u)) :
    LaidOperand K blamed s u ∨
      (Laid K blamed s u [] ∧ (blamed = false → ¬ Clean s.toReading u.toReading)) := by
  have ho := knows_onLine s.toReading
  rw [expressionBody, onLine, run_ask_bind, answer_onLine] at hrun
  split at hrun
  · next right hop =>
    obtain ⟨k, hk, hprefix⟩ := Option.bind_eq_some_iff.1 hop
    obtain ⟨_, t, ht, hrun⟩ := run_bind_iff.1 hrun
    have hsign : LaysOperand fuel K blamed (some k)
        (node .unaryExpr (do take; expressionFrom right)) :=
      laysOperand_form .unaryExpr rfl rfl (takesFirst_take k).bind
        (lays_operation hcalls (isTerminator_of_prefixPower? hprefix)) fun _ _ => id
    exact .inl (laidOperand_operators hcalls (hsign s _ t ht (hk ▸ ho)) hrun)
  · obtain ⟨c, t, ht, hrun⟩ := run_bind_iff.1 hrun
    have hlaid : (c = true ∧ LaidOperand K blamed s t) ∨ (c = false ∧ Laid K blamed s t [] ∧
        (blamed = false → ¬ Clean s.toReading t.toReading)) := laid_operand hcalls ht
    obtain ⟨rfl, h⟩ | ⟨rfl, h, hunclean⟩ := hlaid
    · exact .inl (laidOperand_operators hcalls h hrun)
    · obtain ⟨-, rfl⟩ := run_pure_iff.1 hrun
      exact .inr ⟨h, hunclean⟩

theorem lays_expressionRule (power : Nat) : Lays fuel K blamed o (expressionRule power) fun _ ps =>
    IsExpression ps := by
  refine lays_ask fun deep => ?_
  split
  · exact lays_skipDeepExpression
  · refine lays_nested fun s _ u hrun _ => ?_
    rcases laid_expressionBody hcalls hrun with ⟨d, hd, -, -, hform⟩ | ⟨h, hunclean⟩
    · exact ⟨_, hd, fun hblamed hclean => ⟨d, rfl, hform hblamed hclean⟩⟩
    · exact ⟨[], h, fun hblamed hclean => (hunclean hblamed hclean).elim⟩

end Expressions

/-- Whatever the fuel, calls of expressions lay down expressions. -/
theorem expressions (fuel : Nat) : Expressions fuel := by
  induction fuel with
  | zero =>
    intro K blamed o power s _ t hrun
    cases run_call_iff.1 hrun
  | succ fuel ih =>
    intro K blamed o power s _ t hrun ho
    exact lays_expressionRule ih power s () t (run_of_runRule (run_call_iff.1 hrun)) ho

end Grammar

end CRBasic
