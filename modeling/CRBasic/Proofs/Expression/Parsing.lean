import CRBasic.Proofs.Expression.Term
import CRBasic.Proofs.Grammar.Walk
import CRBasic.Proofs.Parsing.Putting

/-!
# Parsing terms

The words of a term, read as an expression, become the draft of the term, whatever follows them, as
long as that neither continues a name nor binds more tightly than the term (`bodyReads_term`).
-/

namespace CRBasic

namespace Grammar

open Parsing Parsing.Script

variable {s t : Sketch} {w : Word} {post post' : List Word} {ps qs : List (Piece Draft)}
  {α β : Type}

/-! ### Operators and operands -/

theorem yields_expressionFrom {power : Nat} (hdepth : s.depth < s.options.maxDepth)
    (h : Yields script (expressionBody power) s.deeper () (s.deeper.put post ps)) :
    Yields script (expressionFrom power) s () (s.put post ps) := by
  refine Yields.call ?_
  change Yields script (expressionRule power) s () _
  rw [expressionRule_eq, tooDeep, yields_ask]
  have hdeep : s.tooDeep = false := by
    rw [Reading.tooDeep, decide_eq_false_iff_not]
    omega
  change Yields script (if s.tooDeep then _ else _) s () _
  rw [hdeep]
  exact yields_nested h

theorem yields_body_of_operand {power : Nat} {k : TokenKind} (hk : s.onLine = some k)
    (hsign : k.prefixPower? = none) {u : Sketch} (hoperand : Yields script operand s true u)
    (h : Yields script (operators power) u () t) :
    Yields script (expressionBody power) s () t := by
  refine yields_onLine hk ?_
  rw [Option.bind_some, hsign]
  exact hoperand.bind h

/-- The operators after an operand end where no operator that binds tightly enough follows. -/
theorem yields_operators_nil {power : Nat}
    (h : ∀ k l r, s.onLine = some k → k.infixPower? = some (l, r) → l < power) :
    Yields script (operators power) s () s := by
  refine Yields.bind (yields_collect_nil ?_) (yields_pure ())
  rw [onLine, yields_ask, answer_onLine]
  split
  · exact yields_pure none
  · next l r hlr =>
    obtain ⟨k, hk, hpower⟩ := Option.bind_eq_some_iff.1 hlr
    rw [if_pos (h k l r hk hpower)]
    exact yields_pure none

theorem yields_operators_cons {power l r : Nat} {k : TokenKind} (hk : s.onLine = some k)
    (hl : k.infixPower? = some (l, r)) (hpower : power ≤ l) {u : Sketch}
    (hwrap : Yields script (wrap .binaryExpr (do take; expressionFrom r)) s () u)
    (h : Yields script (operators power) u () t) :
    Yields script (operators power) s () t := by
  obtain ⟨bs, v, hbs, hdone⟩ := h.of_bind
  refine Yields.bind (yields_collect_cons (b := ()) ?_ hbs) hdone
  refine yields_onLine hk ?_
  rw [Option.bind_some, hl]
  dsimp only
  rw [if_neg (by omega)]
  exact hwrap.bind (yields_pure _)

/-! ### What may follow -/

/-- What follows neither continues a name nor binds more tightly than the given power. -/
def Follows (power : Nat) (post : List Word) : Prop :=
  ∀ w ws, post = w :: ws → w.kind ≠ .lParen ∧ w.kind ≠ .dot ∧
    ∀ l r, w.kind.infixPower? = some (l, r) → l ≤ power

theorem follows_nil (power : Nat) : Follows power [] := nofun

theorem Follows.mono {power power' : Nat} (h : Follows power post) (hpower : power ≤ power') :
    Follows power' post := by
  intro w ws hpost
  obtain ⟨hparen, hdot, hoperator⟩ := h w ws hpost
  exact ⟨hparen, hdot, fun l r hl => Nat.le_trans (hoperator l r hl) hpower⟩

/-- No infix operator binds as tightly as a sign. -/
theorem infixPower?_left_lt {k : TokenKind} {l r : Nat} (h : k.infixPower? = some (l, r)) :
    l < 15 := by
  unfold TokenKind.infixPower? at h
  split at h <;> cases h <;> decide

theorem prefixPower?_eq {k : TokenKind} {power : Nat} (h : k.prefixPower? = some power) :
    power = 15 := by
  unfold TokenKind.prefixPower? at h
  split at h <;> cases h <;> rfl

/-- If nothing that follows binds more tightly than a power, operators of more than that power end
there. -/
theorem Follows.yields_operators {power power' : Nat} (h : Follows power s.rest)
    (hpower : power < power') : Yields script (operators power') s () s := by
  refine yields_operators_nil fun k l r hk hoperator => ?_
  obtain ⟨w, ws, hrest, rfl⟩ := rest_of_onLine hk
  obtain ⟨-, -, hle⟩ := h w ws hrest
  exact Nat.lt_of_le_of_lt (hle l r hoperator) hpower

theorem Follows.onLine_ne_lParen {power : Nat} (h : Follows power s.rest) :
    s.onLine ≠ some .lParen := by
  intro hk
  obtain ⟨w, ws, hrest, hw⟩ := rest_of_onLine hk
  exact (h w ws hrest).1 hw

/-- A word that is no operator and continues no name. -/
def Closing (k : TokenKind) : Prop := k ≠ .lParen ∧ k ≠ .dot ∧ k.infixPower? = none

theorem closing_rParen : Closing .rParen := ⟨nofun, nofun, rfl⟩

theorem closing_comma : Closing .comma := ⟨nofun, nofun, rfl⟩

theorem Closing.follows (h : Closing w.kind) (power : Nat) : Follows power (w :: post) := by
  rintro w ws ⟨rfl, rfl⟩
  obtain ⟨hparen, hdot, hoperator⟩ := h
  exact ⟨hparen, hdot, fun l r hl => by simp [hoperator] at hl⟩

theorem Closing.yields_operators (h : Closing w.kind) {power : Nat} (hs : s.rest = w :: post) :
    Yields script (operators power) s () s := by
  refine yields_operators_nil fun k l r hk hoperator => ?_
  obtain ⟨w', ws, hrest, rfl⟩ := rest_of_onLine hk
  rw [hs, List.cons.injEq] at hrest
  rw [← hrest.1, h.2.2] at hoperator
  cases hoperator

/-! ### Reading a draft -/

/-- An expression of at most the given level reads the given words as the draft and then goes on with
the operators that follow, if the nesting leaves enough room. -/
structure BodyReads (level : Nat) (xs : List Lexeme) (d : Draft) (room : Nat) : Prop where
  reads : ∀ {power : Nat} {s t : Sketch} {post : List Word}, power ≤ level →
    s.rest = xs.map Lexeme.word ++ post → Follows level post →
    s.depth + room ≤ s.options.maxDepth →
    Yields script (operators power) (s.put post [.node d]) () t →
    Yields script (expressionBody power) s () t

/-- An operand without a sign reads the given words as the draft. -/
structure OperandReads (xs : List Lexeme) (d : Draft) (room : Nat) : Prop where
  head : ∃ x ys, xs = x :: ys ∧ x.kind.prefixPower? = none
  reads : ∀ {s : Sketch} {post : List Word}, s.rest = xs.map Lexeme.word ++ post → Follows 15 post →
    s.depth + room ≤ s.options.maxDepth → Yields script operand s true (s.put post [.node d])

variable {level room : Nat} {xs : List Lexeme} {x : Lexeme} {d : Draft}

theorem BodyReads.mono {room' : Nat} (h : BodyReads level xs d room) (hroom : room ≤ room') :
    BodyReads level xs d room' :=
  ⟨fun hpower hrest hpost hdepth ht => h.reads hpower hrest hpost (by omega) ht⟩

theorem OperandReads.body (h : OperandReads xs d room) : BodyReads 15 xs d room := by
  refine ⟨fun {power s t post} _ hrest hpost hdepth ht => ?_⟩
  have hoperand := h.reads hrest hpost hdepth
  obtain ⟨x, ys, rfl, hsign⟩ := h.head
  exact yields_body_of_operand (onLine_cons hrest rfl) hsign hoperand ht

/-- An expression reads the words and no more, if no operator that follows binds tightly enough. -/
theorem BodyReads.yields_expression {power : Nat} (h : BodyReads level xs d room) (hlevel : power ≤ level)
    (hrest : s.rest = xs.map Lexeme.word ++ post) (hpost : Follows level post)
    (hstop : ∀ u : Sketch, u.rest = post → Yields script (operators power) u () u)
    (hroom : s.depth + (room + 1) ≤ s.options.maxDepth) :
    Yields script (expressionFrom power) s () (s.put post [.node d]) := by
  refine yields_expressionFrom (by omega) ?_
  have hdeeper : s.deeper.depth + room ≤ s.options.maxDepth := by
    change s.depth + 1 + room ≤ _
    omega
  exact h.reads hlevel hrest hpost hdeeper (hstop _ rfl)

/-- An expression of any operators reads the words up to a closing one. -/
theorem BodyReads.yields_closing (h : BodyReads level xs d room) (hw : Closing w.kind)
    (hrest : s.rest = xs.map Lexeme.word ++ w :: post)
    (hroom : s.depth + (room + 1) ≤ s.options.maxDepth) :
    Yields script expression s () (s.put (w :: post) [.node d]) :=
  h.yields_expression (Nat.zero_le level) hrest (hw.follows level) (fun _ hu => hw.yields_operators hu)
    hroom

/-! ### Literals -/

/-- A literal is one word in a node of its own. -/
theorem operandReads_oneWord {kind : NodeKind} (hsign : x.kind.prefixPower? = none)
    (hoperand : ∀ {s : Sketch} {post : List Word}, s.rest = x.word :: post →
      Yields script operand s true (s.put post [.node (.node kind [.word x.word])])) :
    OperandReads [x] (.node kind [.word x.word]) 0 :=
  ⟨⟨x, [], rfl, hsign⟩, fun hrest _ _ => hoperand hrest⟩

theorem operandReads_number (a : Atom .number) :
    OperandReads [a.lexeme] (.node .numberLiteral [.word a.lexeme.word]) 0 :=
  operandReads_oneWord rfl fun h =>
    yields_onLine (onLine_cons h rfl) ((yields_oneWord .numberLiteral h).thenPure true)

theorem operandReads_string (a : Atom .quotedString) :
    OperandReads [a.lexeme] (.node .stringLiteral [.word a.lexeme.word]) 0 :=
  operandReads_oneWord rfl fun h =>
    yields_onLine (onLine_cons h rfl) ((yields_oneWord .stringLiteral h).thenPure true)

theorem operandReads_boolean (b : Bool) :
    OperandReads [(TokenKind.ofBool b).lexeme]
      (.node .booleanLiteral [.word (TokenKind.ofBool b).lexeme.word]) 0 := by
  cases b with
  | false =>
    exact operandReads_oneWord rfl fun h =>
      yields_onLine (onLine_cons h rfl) ((yields_oneWord .booleanLiteral h).thenPure true)
  | true =>
    exact operandReads_oneWord rfl fun h =>
      yields_onLine (onLine_cons h rfl) ((yields_oneWord .booleanLiteral h).thenPure true)

/-! ### Parentheses, signs and operators -/

theorem operandReads_paren (h : BodyReads level xs d room) :
    OperandReads (Term.enclose true xs) (Term.encloseDraft true d) (room + 1) := by
  refine ⟨⟨_, _, rfl, rfl⟩, fun {s post} hrest _ hdepth => ?_⟩
  have hrest : s.rest = TokenKind.lParen.lexeme.word ::
      (xs.map Lexeme.word ++ TokenKind.rParen.lexeme.word :: post) := by
    simpa [Term.enclose] using hrest
  refine yields_onLine (onLine_cons hrest rfl) ((yields_node .parenExpr fun u hu => ?_).thenPure true)
  refine (yields_take (hu.rest.trans hrest)).andThen fun v hv => ?_
  have hroom := hv.room (hu.room hdepth)
  refine (h.yields_closing closing_rParen hv.rest hroom).andThen fun w hw => ?_
  exact yields_want hw.rest rfl rfl

/-- What binds less tightly than asked is read in parentheses, and else as it is. -/
theorem BodyReads.enclose (power : Nat) (h : BodyReads level xs d room) (hpower : power ≤ 15) :
    ∃ l, power ≤ l ∧ BodyReads l (Term.enclose (level < power) xs)
      (Term.encloseDraft (level < power) d) (room + 1) := by
  by_cases hneeded : level < power
  · simp only [hneeded, decide_true]
    exact ⟨15, hpower, (operandReads_paren h).body⟩
  · simp only [hneeded, decide_false]
    exact ⟨level, Nat.le_of_not_lt hneeded, h.mono (Nat.le_succ room)⟩

theorem bodyReads_unary (op : PrefixOperator) (h : BodyReads level xs d room)
    (hlevel : op.power ≤ level) :
    BodyReads 15 (op.kind.lexeme :: xs)
      (.node .unaryExpr [.word op.kind.lexeme.word, .node d]) (room + 1) := by
  refine ⟨fun {power s t post} _ hrest hpost hdepth ht => ?_⟩
  refine yields_onLine (onLine_cons hrest rfl) ?_
  have hsign : op.kind.lexeme.word.kind.prefixPower? = some op.power := op.prefixPower_eq
  rw [Option.bind_some, hsign]
  have hpower := prefixPower?_eq op.prefixPower_eq
  refine Yields.bind (yields_node .unaryExpr fun u hu => ?_) ht
  refine (yields_take (hu.rest.trans hrest)).andThen fun v hv => ?_
  refine h.yields_expression hlevel hv.rest (hpost.mono (hpower ▸ hlevel)) (fun y hy => ?_)
    (hv.room (hu.room hdepth))
  -- Whatever follows, it binds less tightly than the sign.
  refine yields_operators_nil fun k l r _ hoperator => ?_
  rw [hpower]
  exact infixPower?_left_lt hoperator

theorem bodyReads_binary (op : InfixOperator) {level' room' : Nat} {ys : List Lexeme} {d' : Draft}
    (h : BodyReads level xs d room) (hlevel : op.power ≤ level) (h' : BodyReads level' ys d' room')
    (hlevel' : op.power + 1 ≤ level') :
    BodyReads op.power (xs ++ op.kind.lexeme :: ys)
      (.around .binaryExpr d [.word op.kind.lexeme.word, .node d']) (max room (room' + 1)) := by
  refine ⟨fun {power s t post} hpower hrest hpost hdepth ht => ?_⟩
  have hoperator : op.kind.lexeme.word.kind.infixPower? = some (op.power, op.power + 1) :=
    op.infixPower_eq
  rw [List.map_append, List.append_assoc] at hrest
  -- The left side leaves the loop over operators to go on, and its next round takes this operator.
  refine h.reads (Nat.le_trans hpower hlevel) hrest ?_ (by omega) ?_
  · rintro w ws ⟨rfl, rfl⟩
    refine ⟨?_, ?_, ?_⟩
    · intro hk
      rw [hk] at hoperator
      cases hoperator
    · intro hk
      rw [hk] at hoperator
      cases hoperator
    · intro l r hl
      rw [hoperator] at hl
      cases hl
      exact hlevel
  · refine yields_operators_cons (onLine_cons rfl rfl) hoperator hpower (yields_wrap .binaryExpr ?_) ht
    intro u hu
    refine (yields_take hu.rest).andThen fun v hv => ?_
    refine h'.yields_expression hlevel' hv.rest (hpost.mono (by omega)) (fun y hy => ?_)
      (hv.room (hu.room ?_))
    · exact Follows.yields_operators (hy ▸ hpost) (Nat.lt_succ_self op.power)
    · omega

/-! ### Names -/

/-- One more name after a dot. -/
def nameAfterDot : Script (Option Unit) := do
  if ← eat .dot then
    if ← eat .ident then return some ()
    else
      report .here (.missingPart .nameAfterDot)
      return none
  else return none

theorem yields_nameAfterDot {a : Atom .ident}
    (hrest : s.rest = TokenKind.dot.lexeme.word :: a.lexeme.word :: post) :
    Yields script nameAfterDot s (some ())
      (s.put post [.word TokenKind.dot.lexeme.word, .word a.lexeme.word]) := by
  refine (yields_eat hrest rfl rfl).andThen fun u hu => ?_
  exact (yields_eat hu.rest rfl rfl).bind (yields_pure _)

theorem leads_namesAfterDots {ns : List (Atom .ident)}
    (hrest : s.rest = (DottedName.lexemesOfMore ns).map Lexeme.word ++ post)
    (hdot : ∀ w ws, post = w :: ws → w.kind ≠ .dot) :
    Leads script (collect nameAfterDot) s
      (s.put post ((DottedName.lexemesOfMore ns).map (.word ·.word))) := by
  induction ns generalizing s with
  | nil =>
    have hrest : s.rest = post := hrest
    subst hrest
    have hk : s.onLine ≠ some .dot := by
      intro hk
      obtain ⟨w, ws, hrest, hw⟩ := rest_of_onLine hk
      exact hdot w ws hrest hw
    exact ⟨[], yields_collect_nil ((yields_eat_none hk).bind (yields_pure none))⟩
  | cons a ns ih =>
    exact Leads.collect_cons ⟨(), yields_nameAfterDot hrest⟩ fun u hu => ih hu.rest

theorem yields_identifier (n : DottedName) (hrest : s.rest = n.lexemes.map Lexeme.word ++ post)
    (hdot : ∀ w ws, post = w :: ws → w.kind ≠ .dot) :
    Yields script identifier s () (s.put post [.node n.draft]) := by
  refine yields_node .identifier fun u hu => ?_
  refine (yields_take (hu.rest.trans hrest)).andThen fun v hv => Leads.yields ?_
  exact (leads_namesAfterDots hv.rest hdot).bind fun _ => leads_pure ()

/-- A name that no argument list follows. -/
theorem yields_nameReference (n : DottedName) (hrest : s.rest = n.lexemes.map Lexeme.word ++ post)
    (hpost : Follows 15 post) : Yields script nameReference s () (s.put post [.node n.draft]) := by
  refine (yields_identifier n hrest fun w ws hw => (hpost w ws hw).2.1).bind ?_
  have hbeq : ((s.put post [.node n.draft]).onLine == some .lParen) = false := by
    have hne : (s.put post [.node n.draft]).onLine ≠ some .lParen := Follows.onLine_ne_lParen hpost
    simpa using hne
  rw [onLine, yields_ask, answer_onLine, hbeq]
  exact yields_pure ()

theorem operandReads_name (n : DottedName) : OperandReads n.lexemes n.draft 0 := by
  refine ⟨⟨_, _, rfl, rfl⟩, fun hrest hpost _ => ?_⟩
  exact yields_onLine (onLine_cons hrest rfl) ((yields_nameReference n hrest hpost).thenPure true)

/-! ### Calls -/

/-- One more item after a comma. -/
def itemAfterComma (item : Script α) : Script (Option α) := do
  if ← eat .comma then
    let next ← item
    return some next
  else return none

theorem yields_itemAfterComma {item : Script α} (hrest : s.rest = TokenKind.comma.lexeme.word :: post)
    (h : ∀ u, s.Before post u → Leads script item u (u.put post' ps)) :
    ∃ b, Yields script (itemAfterComma item) s (some b)
      (s.put post' (.word TokenKind.comma.lexeme.word :: ps)) := by
  obtain ⟨a, ha⟩ := h (s.put post [.word TokenKind.comma.lexeme.word]) Sketch.before_put
  rw [Sketch.put_put] at ha
  exact ⟨a, (yields_eat hrest rfl rfl).bind (ha.bind (yields_pure _))⟩

/-- What follows an argument is a comma or the closing parenthesis. -/
theorem closing_afterArgument (es : List Term) (post : List Word) :
    ∃ w ws, (Term.lexemesOfMore es).map Lexeme.word ++ TokenKind.rParen.lexeme.word :: post =
      w :: ws ∧ Closing w.kind := by
  cases es with
  | nil => exact ⟨_, _, rfl, closing_rParen⟩
  | cons e es => exact ⟨_, _, rfl, closing_comma⟩

theorem leads_argument {e : Term} {es : List Term}
    (h : BodyReads e.level e.lexemes e.draft room)
    (hrest : s.rest = e.lexemes.map Lexeme.word ++
      ((Term.lexemesOfMore es).map Lexeme.word ++ TokenKind.rParen.lexeme.word :: post))
    (hroom : s.depth + (room + 1) ≤ s.options.maxDepth) :
    Leads script argument s
      (s.put ((Term.lexemesOfMore es).map Lexeme.word ++ TokenKind.rParen.lexeme.word :: post)
        [.node e.draft]) := by
  obtain ⟨w, ws, hw, hclosing⟩ := closing_afterArgument es post
  rw [hw] at hrest ⊢
  have hexpression := (h.yields_closing hclosing hrest hroom).leads
  exact leads_ask (leads_ask (leads_ask (hexpression.bind fun _ => leads_ask (leads_pure _))))

theorem leads_furtherArguments {es : List Term}
    (h : ∀ e ∈ es, BodyReads e.level e.lexemes e.draft room)
    (hrest : s.rest =
      (Term.lexemesOfMore es).map Lexeme.word ++ TokenKind.rParen.lexeme.word :: post)
    (hroom : s.depth + (room + 1) ≤ s.options.maxDepth) :
    Leads script (collect (itemAfterComma argument)) s
      (s.put (TokenKind.rParen.lexeme.word :: post) (Term.piecesOfMore es)) := by
  induction es generalizing s with
  | nil =>
    have hrest : s.rest = TokenKind.rParen.lexeme.word :: post := hrest
    have hk : s.onLine ≠ some .comma := by
      rw [onLine_cons hrest rfl]
      nofun
    rw [← hrest]
    exact ⟨[], yields_collect_nil ((yields_eat_none hk).bind (yields_pure none))⟩
  | cons e es ih =>
    have hrest : s.rest = TokenKind.comma.lexeme.word :: (e.lexemes.map Lexeme.word ++
        ((Term.lexemesOfMore es).map Lexeme.word ++ TokenKind.rParen.lexeme.word :: post)) := by
      simpa [Term.lexemesOfMore] using hrest
    have hitem := yields_itemAfterComma hrest fun u hu =>
      leads_argument (h e List.mem_cons_self) hu.rest (hu.room hroom)
    have hes : ∀ e' ∈ es, BodyReads e'.level e'.lexemes e'.draft room :=
      fun e' he' => h e' (List.mem_cons_of_mem e he')
    exact Leads.collect_cons hitem fun u hu => ih hes hu.rest (hu.room hroom)

theorem leads_separatedArguments {e : Term} {es : List Term}
    (h : ∀ e' ∈ e :: es, BodyReads e'.level e'.lexemes e'.draft room)
    (hrest : s.rest = (Term.lexemesOfAll (e :: es)).map Lexeme.word ++
      TokenKind.rParen.lexeme.word :: post)
    (hroom : s.depth + (room + 1) ≤ s.options.maxDepth) :
    Leads script (separated argument) s
      (s.put (TokenKind.rParen.lexeme.word :: post) (Term.piecesOfAll (e :: es))) := by
  rw [Term.lexemesOfAll, List.map_append, List.append_assoc] at hrest
  refine (leads_argument (h e List.mem_cons_self) hrest hroom).andThen fun a u hu => ?_
  have hmore := leads_furtherArguments (fun e' he' => h e' (List.mem_cons_of_mem e he')) hu.rest
    (hu.room hroom)
  exact hmore.bind fun bs => leads_pure _

theorem exists_lexemes_eq_cons : ∀ e : Term, ∃ x xs, e.lexemes = x :: xs ∧ x.kind ≠ .rParen
  | .binary op a b => by
    rw [Term.lexemes, Term.enclose]
    split
    · exact ⟨_, _, rfl, nofun⟩
    · obtain ⟨x, xs, hx, hkind⟩ := exists_lexemes_eq_cons a
      rw [hx]
      exact ⟨_, _, rfl, hkind⟩
  | .unary op a => by
    refine ⟨_, _, rfl, fun hkind => ?_⟩
    have hsign := op.prefixPower_eq
    rw [show op.kind = .rParen from hkind] at hsign
    cases hsign
  | .paren a | .name n | .call n es | .number a | .string a => ⟨_, _, rfl, nofun⟩
  | .boolean b => ⟨_, _, rfl, by cases b <;> nofun⟩

theorem leads_argumentList {es : List Term}
    (h : ∀ e ∈ es, BodyReads e.level e.lexemes e.draft room)
    (hrest : s.rest = (Term.enclose true (Term.lexemesOfAll es)).map Lexeme.word ++ post)
    (hroom : s.depth + (room + 1) ≤ s.options.maxDepth) :
    Leads script argumentList s
      (s.put post [.node (.node .argList (.word TokenKind.lParen.lexeme.word ::
        (Term.piecesOfAll es ++ [.word TokenKind.rParen.lexeme.word])))]) := by
  have hrest : s.rest = TokenKind.lParen.lexeme.word ::
      ((Term.lexemesOfAll es).map Lexeme.word ++ TokenKind.rParen.lexeme.word :: post) := by
    simpa [Term.enclose] using hrest
  refine leads_node .argList fun u hu => leads_ask ?_
  refine (yields_take (hu.rest.trans hrest)).leads.andThen fun _ v hv => ?_
  have hclose {w : Sketch} (hw : w.rest = TokenKind.rParen.lexeme.word :: post) (items) :
      Leads script (want .rParen >>= fun _ => behind >>= fun stop =>
        pure (⟨Machine.answer u Query.here, stop, items⟩ : Arguments)) w
        (w.put post [.word TokenKind.rParen.lexeme.word]) :=
    (yields_want hw rfl rfl).leads.bind fun _ => leads_ask (leads_pure _)
  cases es with
  | nil => exact leads_onLine (onLine_cons hv.rest rfl) (hclose hv.rest [])
  | cons e es =>
    obtain ⟨x, xs, hx, hkind⟩ := exists_lexemes_eq_cons e
    have hx : Term.lexemesOfAll (e :: es) = x :: (xs ++ Term.lexemesOfMore es) := by
      rw [Term.lexemesOfAll, hx, List.cons_append]
    have hbeq : (some x.word.kind == some TokenKind.rParen) = false := by
      have hword : x.word.kind ≠ .rParen := hkind
      simp only [beq_eq_false_iff_ne, ne_eq, Option.some.injEq, hword, not_false_iff]
    refine leads_onLine (onLine_cons (hv.rest.trans (congrArg (·.map Lexeme.word ++ _) hx)) rfl) ?_
    dsimp only
    rw [hbeq]
    exact (leads_separatedArguments h hv.rest (hv.room (hu.room hroom))).andThen fun items w hw =>
      hclose hw.rest items

/-- A name that an argument list follows. -/
theorem yields_nameReference_call (n : DottedName) {es : List Term}
    (h : ∀ e ∈ es, BodyReads e.level e.lexemes e.draft room)
    (hrest : s.rest = n.lexemes.map Lexeme.word ++
      ((Term.enclose true (Term.lexemesOfAll es)).map Lexeme.word ++ post))
    (hroom : s.depth + (room + 1) ≤ s.options.maxDepth) :
    Yields script nameReference s () (s.put post [.node (Term.call n es).draft]) := by
  refine (yields_identifier n hrest ?_).bind ?_
  · rintro w ws ⟨rfl, rfl⟩
    nofun
  refine yields_onLine (onLine_cons rfl rfl) (yields_wrap .functionCall fun u hu => Leads.yields ?_)
  refine leads_measured fun v hv => ?_
  exact (leads_argumentList h (hv.rest.trans hu.rest) (hv.room (hu.room hroom))).bind fun _ =>
    leads_pure ()

theorem operandReads_call (n : DottedName) {es : List Term}
    (h : ∀ e ∈ es, BodyReads e.level e.lexemes e.draft room) :
    OperandReads (Term.call n es).lexemes (Term.call n es).draft (room + 1) := by
  refine ⟨⟨_, _, rfl, rfl⟩, fun {s post} hrest _ hroom => ?_⟩
  rw [Term.lexemes, List.map_append, List.append_assoc] at hrest
  refine yields_onLine (onLine_cons hrest rfl) ?_
  exact (yields_nameReference_call n h hrest hroom).thenPure true

/-! ### Terms -/

mutual

/-- The words of a term are read as its draft, if the nesting leaves room for twice its size. -/
theorem bodyReads_term : ∀ e : Term, BodyReads e.level e.lexemes e.draft (2 * e.size - 1)
  | .binary op a b => by
    have hpower := infixPower?_left_lt op.infixPower_eq
    -- A side in parentheses takes two levels of nesting, hence the factor of two.
    obtain ⟨l, hl, ha⟩ := (bodyReads_term a).enclose op.power (by omega)
    obtain ⟨l', hl', hb⟩ := (bodyReads_term b).enclose (op.power + 1) (by omega)
    have hsize := a.size_pos
    have hsize' := b.size_pos
    refine (bodyReads_binary op ha hl hb hl').mono ?_
    rw [Term.size]
    omega
  | .unary op a => by
    have hpower := prefixPower?_eq op.prefixPower_eq
    obtain ⟨l, hl, ha⟩ := (bodyReads_term a).enclose op.power (by omega)
    have hsize := a.size_pos
    refine (bodyReads_unary op ha hl).mono ?_
    rw [Term.size]
    omega
  | .paren a => by
    have hsize := a.size_pos
    refine (operandReads_paren (bodyReads_term a)).body.mono ?_
    rw [Term.size]
    omega
  | .name n => (operandReads_name n).body.mono (Nat.zero_le _)
  | .call n es => by
    refine (operandReads_call n (bodyReads_all es)).body.mono ?_
    rw [Term.size]
    omega
  | .number a => (operandReads_number a).body.mono (Nat.zero_le _)
  | .string a => (operandReads_string a).body.mono (Nat.zero_le _)
  | .boolean b => (operandReads_boolean b).body.mono (Nat.zero_le _)

theorem bodyReads_all : ∀ es : List Term, ∀ e ∈ es,
    BodyReads e.level e.lexemes e.draft (2 * Term.sizeOfAll es)
  | [], _, he => by cases he
  | e :: es, e', he' => by
    rw [Term.sizeOfAll]
    rcases List.mem_cons.1 he' with heq | he'
    · rw [heq]
      exact (bodyReads_term e).mono (by omega)
    · exact (bodyReads_all es e' he').mono (by omega)

end

end Grammar

end CRBasic
