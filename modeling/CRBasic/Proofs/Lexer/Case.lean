import CRBasic.Proofs.Lexer.Standalone

/-!
# Letters in either case

The patterns of the rules hold a letter in either case or in none, so a text in lower case has the
lexemes of the text in lower case (`lexemes_lowered`).
-/

namespace CRBasic

/-- A text with its letters in lower case. -/
def lowered (cs : List Char) : List Char := cs.map Char.toLower

/-- The letters that have another lower case. -/
def capitals : List Char := "ABCDEFGHIJKLMNOPQRSTUVWXYZ".toList

theorem toLower_eq_or_mem_capitals (c : Char) : c.toLower = c ∨ c ∈ capitals := by
  unfold Char.toLower
  split
  · next h =>
    have hcapital : ∀ n < 91, 65 ≤ n → Char.ofNat n ∈ capitals := by decide
    have hc := hcapital c.toNat (Nat.lt_succ_of_le h.2) h.1
    rw [Char.ofNat_toNat] at hc
    exact .inr hc
  · exact .inl rfl

/-- The letters that have another upper case. -/
def smallLetters : List Char := "abcdefghijklmnopqrstuvwxyz".toList

theorem toUpper_eq_or_mem_smallLetters (c : Char) : c.toUpper = c ∨ c ∈ smallLetters := by
  unfold Char.toUpper
  split
  · next h =>
    have hsmall : ∀ n < 123, 97 ≤ n → Char.ofNat n ∈ smallLetters := by decide
    have hc := hsmall c.toNat (Nat.lt_succ_of_le h.2) h.1
    rw [Char.ofNat_toNat] at hc
    exact .inr hc
  · exact .inl rfl

theorem toLower_toUpper (c : Char) : c.toUpper.toLower = c.toLower := by
  have hsmall : smallLetters.all (fun c => c.toUpper.toLower == c.toLower) := by decide +kernel
  rcases toUpper_eq_or_mem_smallLetters c with hc | hc
  · rw [hc]
  · exact eq_of_beq (List.all_eq_true.1 hsmall c hc)

/-- A function has the same value for every capital and its lower case. -/
def bothCasesAlike {β : Type} [DecidableEq β] (f : Char → β) : Bool :=
  capitals.all fun c => decide (f c.toLower = f c)

theorem apply_toLower {β : Type} [DecidableEq β] {f : Char → β} (h : bothCasesAlike f) (c : Char) :
    f c.toLower = f c := by
  rcases toLower_eq_or_mem_capitals c with hc | hc
  · rw [hc]
  · exact of_decide_eq_true (List.all_eq_true.1 h c hc)

/-- A character that is neither a capital nor the lower case of one. -/
theorem toLower_eq_iff {c d : Char} (h : bothCasesAlike (· == d)) : c.toLower = d ↔ c = d := by
  rw [← beq_iff_eq, ← beq_iff_eq (a := c), apply_toLower h c]

@[simp] theorem lowered_cons (c : Char) (cs : List Char) :
    lowered (c :: cs) = c.toLower :: lowered cs := rfl

@[simp] theorem lowered_append (cs ds : List Char) :
    lowered (cs ++ ds) = lowered cs ++ lowered ds := List.map_append

@[simp] theorem length_lowered (cs : List Char) : (lowered cs).length = cs.length :=
  List.length_map _

@[simp] theorem isEmpty_lowered (cs : List Char) : (lowered cs).isEmpty = cs.isEmpty :=
  List.isEmpty_map

@[simp] theorem lowered_lowered (cs : List Char) : lowered (lowered cs) = lowered cs := by
  have hlower : Char.toLower ∘ Char.toLower = Char.toLower :=
    funext fun c => apply_toLower (by decide) c
  rw [lowered, lowered, List.map_map, hlower]

theorem lowered_take (n : Nat) (cs : List Char) : lowered (cs.take n) = (lowered cs).take n :=
  List.map_take

theorem lowered_drop (n : Nat) (cs : List Char) : lowered (cs.drop n) = (lowered cs).drop n :=
  List.map_drop

theorem byteLength_lowered (cs : List Char) : byteLength (lowered cs) = byteLength cs := by
  induction cs with
  | nil => rfl
  | cons c cs ih =>
    have hsize : c.toLower.utf8Size = c.utf8Size := apply_toLower (by decide) c
    rw [lowered_cons, byteLength_cons, byteLength_cons, ih, hsize]

theorem takeWhile_lowered {f : Char → Bool} (hf : bothCasesAlike f) (cs : List Char) :
    (lowered cs).takeWhile f = lowered (cs.takeWhile f) := by
  have hcomp : f ∘ Char.toLower = f := funext fun c => apply_toLower hf c
  rw [lowered, List.takeWhile_map, hcomp, lowered]

theorem trimEnd_lowered (cs : List Char) : trimEnd (lowered cs) = lowered (trimEnd cs) := by
  induction cs with
  | nil => rfl
  | cons c cs ih =>
    have hspace : isWhiteSpace c.toLower = isWhiteSpace c := apply_toLower (by decide) c
    rw [lowered_cons, trimEnd, trimEnd, ih, hspace]
    cases trimEnd cs with
    | nil => cases isWhiteSpace c <;> rfl
    | cons d ds => rfl

/-! ### Patterns -/

/-- A set holds a letter in either case or in none. -/
def CharSet.ignoresCase (s : CharSet) : Bool := bothCasesAlike s.contains

theorem CharSet.contains_toLower {s : CharSet} (h : s.ignoresCase) (c : Char) :
    s.contains c.toLower = s.contains c := apply_toLower h c

/-- A character in both of its cases. -/
theorem CharSet.ignoresCase_cases (c : Char) : (these [c.toLower, c.toUpper]).ignoresCase := by
  have hletter : (capitals ++ smallLetters).all
      fun c => (these [c.toLower, c.toUpper]).ignoresCase := by decide +kernel
  have hlowered : capitals.map Char.toLower = smallLetters := by decide
  by_cases hc : c ∈ capitals
  · exact List.all_eq_true.1 hletter c (List.mem_append_left _ hc)
  by_cases hc' : c ∈ smallLetters
  · exact List.all_eq_true.1 hletter c (List.mem_append_right _ hc')
  -- Neither case of any letter is `c`.
  rw [(toLower_eq_or_mem_capitals c).resolve_right hc,
    (toUpper_eq_or_mem_smallLetters c).resolve_right hc']
  have hnone {d : Char} (hd : d ≠ c) : (these [c, c]).contains d = false := by
    rw [Bool.eq_false_iff, ne_eq, contains_these]
    simpa using hd
  refine List.all_eq_true.2 fun d hd => decide_eq_true ?_
  have hd' : d.toLower ∈ smallLetters := hlowered ▸ List.mem_map_of_mem hd
  rw [hnone (ne_of_mem_of_not_mem hd hc), hnone (ne_of_mem_of_not_mem hd' hc')]

namespace Pattern

/-- All sets of a pattern hold a letter in either case or in none. -/
def ignoresCase : Pattern → Bool
  | .nothing | .empty => true
  | .oneOf s => s.ignoresCase
  | .seq p q | .either p q => p.ignoresCase && q.ignoresCase
  | .star p => p.ignoresCase

variable {p q : Pattern}

theorem ignoresCase_andThen (hp : p.ignoresCase) (hq : q.ignoresCase) :
    (p.andThen q).ignoresCase := by
  cases p <;> simp_all [andThen, ignoresCase]

theorem ignoresCase_orElse (hp : p.ignoresCase) (hq : q.ignoresCase) :
    (p.orElse q).ignoresCase := by
  cases p <;> cases q <;> simp_all [orElse, ignoresCase]

theorem ignoresCase_derivative (c : Char) (h : p.ignoresCase) : (p.derivative c).ignoresCase := by
  induction p with
  | nothing => rfl
  | empty => rfl
  | oneOf s =>
    rw [derivative]
    split <;> rfl
  | seq p q hp hq =>
    obtain ⟨hp', hq'⟩ := Bool.and_eq_true_iff.1 h
    have hrest := ignoresCase_andThen (hp hp') hq'
    simp only [derivative]
    split
    · exact ignoresCase_orElse hrest (hq hq')
    · exact hrest
  | either p q hp hq =>
    obtain ⟨hp', hq'⟩ := Bool.and_eq_true_iff.1 h
    exact ignoresCase_orElse (hp hp') (hq hq')
  | star p hp => exact ignoresCase_andThen (hp h) h

theorem derivative_toLower (c : Char) (h : p.ignoresCase) :
    p.derivative c.toLower = p.derivative c := by
  induction p with
  | nothing => rfl
  | empty => rfl
  | oneOf s => rw [derivative, derivative, CharSet.contains_toLower h]
  | seq p q hp hq =>
    obtain ⟨hp', hq'⟩ := Bool.and_eq_true_iff.1 h
    simp only [derivative, hp hp', hq hq']
  | either p q hp hq =>
    obtain ⟨hp', hq'⟩ := Bool.and_eq_true_iff.1 h
    simp only [derivative, hp hp', hq hq']
  | star p hp => simp only [derivative, hp h]

theorem ignoresCase_sequence {ps : List Pattern} (h : ∀ p ∈ ps, p.ignoresCase) :
    (sequence ps).ignoresCase := by
  induction ps with
  | nil => rfl
  | cons p ps ih =>
    obtain ⟨hp, hps⟩ := List.forall_mem_cons.1 h
    cases ps with
    | nil => exact hp
    | cons q qs => exact Bool.and_eq_true_iff.2 ⟨hp, ih hps⟩

theorem ignoresCase_caseless (s : String) : (caseless s).ignoresCase := by
  refine ignoresCase_sequence fun p hp => ?_
  obtain ⟨c, -, rfl⟩ := List.mem_map.1 hp
  exact CharSet.ignoresCase_cases c

theorem lowered_of_matches_caseless {s : String} {u : List Char} (h : Matches (caseless s) u) :
    lowered u = lowered s.toList := by
  have hchar {c : Char} {u : List Char} (h : Matches (chars [c.toLower, c.toUpper]) u) :
      lowered u = [c.toLower] := by
    obtain ⟨d, rfl, hd⟩ := matches_oneOf.1 h
    have hd : d = c.toLower ∨ d = c.toUpper := by
      simpa using CharSet.contains_these.1 hd
    rcases hd with rfl | rfl
    · exact congrArg (fun c => [c]) (apply_toLower (by decide) c)
    · exact congrArg (fun c => [c]) (toLower_toUpper c)
  have hall (cs : List Char) {u : List Char}
      (h : Matches (sequence (cs.map fun c => chars [c.toLower, c.toUpper])) u) :
      lowered u = lowered cs := by
    induction cs generalizing u with
    | nil => rw [matches_empty.1 h]
    | cons c cs ih =>
      cases cs with
      | nil => exact hchar h
      | cons d cs =>
        obtain ⟨v, w, rfl, hv, hw⟩ := matches_seq.1 h
        rw [lowered_append, hchar hv, ih hw]
        rfl
  exact hall s.toList h

theorem longest_lowered (h : p.ignoresCase) (cs : List Char) :
    p.longest (lowered cs) = p.longest cs := by
  induction cs generalizing p with
  | nil => rfl
  | cons c cs ih =>
    simp only [lowered_cons, longest, derivative_toLower c h, ih (ignoresCase_derivative c h)]

end Pattern

/-! ### Lexemes -/

/-- A lexeme in lower case. -/
def Lexeme.lowered (x : Lexeme) : Lexeme := ⟨x.kind, CRBasic.lowered x.text⟩

namespace Lexer

theorem ignoresCase_rules : ∀ r ∈ rules, r.pattern.ignoresCase := by
  refine List.forall_mem_append.2 ⟨fun r hr => ?_, by decide +kernel⟩
  obtain ⟨k, -, hk⟩ := List.mem_filterMap.1 hr
  obtain ⟨s, -, rfl⟩ := Option.map_eq_some_iff.1 hk
  exact Pattern.ignoresCase_caseless s

theorem better_lowered {rs : List Rule} (h : ∀ r ∈ rs, r.pattern.ignoresCase) (cs : List Char)
    (best : Option (TokenKind × Nat)) :
    rs.foldl (fun best r => better best (lowered cs) r) best =
      rs.foldl (fun best r => better best cs r) best := by
  induction rs generalizing best with
  | nil => rfl
  | cons r rs ih =>
    obtain ⟨hr, hrs⟩ := List.forall_mem_cons.1 h
    have hbetter : better best (lowered cs) r = better best cs r := by
      simp only [better, Pattern.longest_lowered hr]
    rw [List.foldl_cons, List.foldl_cons, hbetter, ih hrs]

theorem longestMatch_lowered (cs : List Char) : longestMatch (lowered cs) = longestMatch cs :=
  better_lowered ignoresCase_rules cs none

theorem munch_lowered (cs : List Char) :
    munch (lowered cs) = (munch cs).map fun (x, rest) => (x.lowered, lowered rest) := by
  cases cs with
  | nil => rfl
  | cons c cs =>
    have hmatch := longestMatch_lowered (c :: cs)
    rw [lowered_cons] at hmatch ⊢
    unfold munch
    dsimp only
    rw [hmatch]
    cases longestMatch (c :: cs) with
    | none => rfl
    | some m =>
      simp only [Option.map_some, Lexeme.lowered, lowered_take, lowered_drop, lowered_cons]

/-- What follows a number, in lower case. -/
def WordRun.lowered (run : WordRun) : WordRun :=
  ⟨CRBasic.lowered run.text, run.next.map Lexeme.lowered, CRBasic.lowered run.rest⟩

theorem wordRun_lowered (n : Nat) (cs : List Char) :
    wordRun n (lowered cs) = (wordRun n cs).lowered := by
  induction n generalizing cs with
  | zero => rfl
  | succ n ih =>
    rw [wordRun, wordRun, munch_lowered]
    cases munch cs with
    | none => rfl
    | some m =>
      obtain ⟨x, rest⟩ := m
      have hword : x.lowered.kind.isWord = x.kind.isWord := rfl
      simp only [Option.map_some, hword, ih]
      split
      · simp [WordRun.lowered, Lexeme.lowered]
      · rfl

theorem unitsText?_lowered (cs : List Char) : unitsText? (lowered cs) =
    (unitsText? cs).map fun (blank, text, rest) => (lowered blank, lowered text, lowered rest) := by
  have hblank := takeWhile_lowered (f := fun c => c == ' ' || c == '\t') (by decide) cs
  have htext (cs : List Char) :=
    takeWhile_lowered (f := fun c => !(c == '\r' || c == '\n' || c == '\x27')) (by decide) cs
  simp only [unitsText?, hblank, length_lowered, ← lowered_drop, htext, trimEnd_lowered,
    isEmpty_lowered]
  split <;> rfl

namespace Scan

/-- A scan of a text in lower case. -/
def lowered (s : Scan) : Scan := ⟨CRBasic.lowered s.rest, s.pending.map Lexeme.lowered, s.units⟩

theorem nextCode_lowered (cs : List Char) (units : UnitsProgress) :
    nextCode (CRBasic.lowered cs) units =
      (nextCode cs units).map fun (x, t) => (x.lowered, t.lowered) := by
  rw [nextCode, nextCode, munch_lowered]
  cases munch cs with
  | none => rfl
  | some m =>
    obtain ⟨x, rest⟩ := m
    have hkind : x.lowered.kind = x.kind := rfl
    simp only [Option.map_some, hkind, length_lowered, wordRun_lowered]
    split
    · have hempty : (wordRun rest.length rest).lowered.text.isEmpty =
          (wordRun rest.length rest).text.isEmpty := isEmpty_lowered _
      simp only [Option.map_some, hempty]
      split <;> simp [yieldCode, lowered, Lexeme.lowered, WordRun.lowered]
    · rfl

theorem next_lowered (s : Scan) :
    s.lowered.next = s.next.map fun (x, t) => (x.lowered, t.lowered) := by
  obtain ⟨rest, pending, units⟩ := s
  cases pending with
  | cons x pending => rfl
  | nil =>
    cases units with
    | outside => exact nextCode_lowered rest _
    | awaitingEq => exact nextCode_lowered rest _
    | awaitingText =>
      have hunits := unitsText?_lowered rest
      simp only [next, lowered, List.map_nil, hunits]
      cases unitsText? rest with
      | none => exact nextCode_lowered rest .outside
      | some m =>
        obtain ⟨blank, text, tail⟩ := m
        cases blank <;> rfl

theorem take_lowered (n : Nat) (s : Scan) : s.lowered.take n = (s.take n).map Lexeme.lowered := by
  induction n generalizing s with
  | zero => rfl
  | succ n ih =>
    rw [take, take, next_lowered]
    cases s.next with
    | none => rfl
    | some m => simp [ih]

end Scan

end Lexer

/-- A text in lower case has the lexemes of the text, in lower case. -/
theorem lexemes_lowered (cs : List Char) :
    lexemes (lowered cs) = (lexemes cs).map Lexeme.lowered := by
  have h := Lexer.Scan.take_lowered cs.length ⟨cs, [], .outside⟩
  simpa [lexemes, Lexer.Scan.remaining, Lexer.Scan.size, Lexer.Scan.lowered, Lexeme.joined] using h

end CRBasic
