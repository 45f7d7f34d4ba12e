import CRBasic.Proofs.Lexer.Found

/-!
# Where the text of a unit stands

A free text stands right behind the first `=` after the last `Units` of its line, and behind every such
`=` that something is left for on the line (`unitsText_placed`).  A reader needs to know no more of what
it has read than how far a declaration of units has come, and that depends on the kinds alone
(`Lexer.Reads.units_eq`).
-/

namespace CRBasic

/-! ### What is left of a line -/

/-- The start of a text up to the end of its line or a comment. -/
def lineRest (cs : List Char) : List Char :=
  cs.takeWhile fun c => !(c == '\r' || c == '\n' || c == '\x27')

/-- The free text at the start of a text and the blanks before it: what is left of the line, without the
white space at its end. -/
structure FreeText (cs blank text : List Char) : Prop where
  line_eq : ∃ tail, lineRest cs = blank ++ text ++ tail ∧ ∀ c ∈ tail, isWhiteSpace c
  blank_eq : ∀ c ∈ blank, c = ' ' ∨ c = '\t'
  first : ∀ c ∈ text.head?, c ≠ ' ' ∧ c ≠ '\t'
  last : ∃ c ∈ text.getLast?, isWhiteSpace c = false

variable {cs blank text rest tail : List Char}

theorem trimEnd_eq_nil (h : ∀ c ∈ cs, isWhiteSpace c) : trimEnd cs = [] := by
  induction cs with
  | nil => rfl
  | cons c cs ih =>
    obtain ⟨hc, hcs⟩ := List.forall_mem_cons.1 h
    simp [trimEnd, ih hcs, hc]

/-- Trimming stops at the last character that is not white space. -/
theorem trimEnd_append (hlast : ∃ c ∈ text.getLast?, isWhiteSpace c = false)
    (htail : ∀ c ∈ tail, isWhiteSpace c) : trimEnd (text ++ tail) = text := by
  induction text with
  | nil => simp at hlast
  | cons d text ih =>
    cases text with
    | nil =>
      have hd : isWhiteSpace d = false := by simpa using hlast
      simp [trimEnd, trimEnd_eq_nil htail, hd]
    | cons e text =>
      have hrest := ih (by simpa using hlast)
      rw [List.cons_append, trimEnd, hrest]

theorem last_trimEnd (h : trimEnd cs ≠ []) : ∃ c ∈ (trimEnd cs).getLast?, isWhiteSpace c = false := by
  induction cs with
  | nil => exact absurd rfl h
  | cons c cs ih =>
    cases hrest : trimEnd cs with
    | nil =>
      by_cases hc : isWhiteSpace c
      · simp [trimEnd, hrest, hc] at h
      · simp [trimEnd, hrest, hc]
    | cons d ds =>
      rw [hrest] at ih
      simpa [trimEnd, hrest] using ih (by simp)

/-- Behind a free text stand the white space that it was trimmed of, and the end of the line or a
comment. -/
theorem FreeText.exists_tail (h : FreeText cs blank text) :
    ∃ tail more, cs = blank ++ (text ++ (tail ++ more)) ∧ (∀ c ∈ tail, isWhiteSpace c) ∧
      Unbroken tail ∧ ∀ c ∈ more.head?, c = '\r' ∨ c = '\n' ∨ c = '\x27' := by
  obtain ⟨tail, hline, hwhite⟩ := h.line_eq
  have hcs := List.takeWhile_append_dropWhile
    (p := fun c => !(c == '\r' || c == '\n' || c == '\x27')) (l := cs)
  have hunbroken : Unbroken (lineRest cs) := unbroken_takeWhile rfl rfl cs
  rw [← lineRest, hline] at hcs
  rw [hline, unbroken_append] at hunbroken
  have hnot := List.head?_dropWhile_not (fun c => !(c == '\r' || c == '\n' || c == '\x27')) cs
  generalize cs.dropWhile (fun c => !(c == '\r' || c == '\n' || c == '\x27')) = more at hcs hnot
  refine ⟨tail, more, by simpa using hcs.symm, hwhite, hunbroken.2, fun c hc => ?_⟩
  rw [hc] at hnot
  simpa only [Bool.not_eq_false', Bool.or_eq_true, beq_iff_eq, or_assoc] using hnot

namespace Lexer

theorem freeText_of_unitsText? (h : unitsText? cs = some (blank, text, rest)) :
    FreeText cs blank text := by
  simp only [unitsText?] at h
  split at h
  · cases h
  · next hempty =>
    have hcs := List.takeWhile_append_dropWhile (p := fun c => c == ' ' || c == '\t') (l := cs)
    have hall : ∀ c ∈ cs.takeWhile (fun c => c == ' ' || c == '\t'), c = ' ' ∨ c = '\t' := by
      intro c hc
      simpa using List.all_eq_true.1 List.all_takeWhile c hc
    have hnot := List.head?_dropWhile_not (fun c => c == ' ' || c == '\t') cs
    generalize cs.takeWhile (fun c => c == ' ' || c == '\t') = start at h hempty hcs hall
    generalize cs.dropWhile (fun c => c == ' ' || c == '\t') = later at hcs hnot
    have hdrop : cs.drop start.length = later := by rw [← hcs, List.drop_left]
    rw [hdrop] at h hempty
    obtain ⟨tail, htail, hwhite⟩ :=
      exists_trimEnd_append (later.takeWhile fun c => !(c == '\r' || c == '\n' || c == '\x27'))
    cases h
    refine ⟨⟨tail, ?_, hwhite⟩, hall, ?_, last_trimEnd fun hnil => hempty ?_⟩
    · rw [List.append_assoc, ← htail, ← hcs, lineRest, List.takeWhile_append_of_pos]
      intro c hc
      rcases hall c hc with rfl | rfl <;> rfl
    · intro c hc
      have hprefix := (prefix_trimEnd _).trans (List.takeWhile_prefix (l := later)
        fun c => !(c == '\r' || c == '\n' || c == '\x27'))
      have hhead : later.head? = some c := by
        obtain ⟨ds, hds⟩ := List.head?_eq_some_iff.1 hc
        obtain ⟨more, hmore⟩ := hprefix
        rw [← hmore, hds]
        rfl
      rw [hhead] at hnot
      simpa using hnot
    · rw [hnil]
      rfl

theorem unitsText?_of_freeText (h : FreeText (blank ++ (text ++ rest)) blank text) :
    unitsText? (blank ++ (text ++ rest)) = some (blank, text, rest) := by
  obtain ⟨tail, hline, hwhite⟩ := h.line_eq
  obtain ⟨last, hlast, -⟩ := h.last
  obtain ⟨c, ds, rfl⟩ : ∃ c ds, text = c :: ds := by
    cases text with
    | nil => cases hlast
    | cons c ds => exact ⟨c, ds, rfl⟩
  have hc := h.first c rfl
  have hblank : (blank ++ (c :: ds ++ rest)).takeWhile (fun c => c == ' ' || c == '\t') = blank := by
    rw [List.takeWhile_append_of_pos fun d hd => by simpa using h.blank_eq d hd]
    simp [hc]
  have htext : (c :: ds ++ rest).takeWhile (fun c => !(c == '\r' || c == '\n' || c == '\x27')) =
      c :: ds ++ tail := by
    rw [lineRest, List.takeWhile_append_of_pos, List.append_assoc] at hline
    · exact List.append_cancel_left hline
    · intro d hd
      rcases h.blank_eq d hd with rfl | rfl <;> rfl
  simp only [unitsText?, hblank, List.drop_left, htext, trimEnd_append h.last hwhite]
  rfl

/-- A scan finds a free text where there is one. -/
theorem unitsText?_eq_some_iff : unitsText? cs = some (blank, text, rest) ↔
    FreeText cs blank text ∧ cs = blank ++ (text ++ rest) := by
  constructor
  · exact fun h => ⟨freeText_of_unitsText? h, (unitsText?_spec h).1.symm⟩
  · rintro ⟨h, rfl⟩
    exact unitsText?_of_freeText h

end Lexer

/-! ### How far a declaration of units has come -/

/-- After tokens of the given kinds the last `Units` of the line has met no `=` yet. -/
def AwaitsEq (read : List TokenKind) : Prop :=
  ∃ before between, read = before ++ .kwUnits :: between ∧
    ∀ k ∈ between, k ≠ .kwUnits ∧ k ≠ .eq ∧ k ≠ .newline

theorem not_awaitsEq_nil : ¬ AwaitsEq [] := by
  rintro ⟨before, between, h, -⟩
  simp at h

theorem awaitsEq_concat {read : List TokenKind} {k : TokenKind} :
    AwaitsEq (read ++ [k]) ↔ k = .kwUnits ∨ AwaitsEq read ∧ k ≠ .eq ∧ k ≠ .newline := by
  constructor
  · rintro ⟨before, between, h, hbetween⟩
    rcases List.eq_nil_or_concat between with rfl | ⟨between, k', rfl⟩
    · exact .inl (List.singleton_inj.1 (List.append_inj' h rfl).2)
    · rw [List.concat_eq_append, ← List.cons_append, ← List.append_assoc] at h
      obtain ⟨hread, hk⟩ := List.append_inj' h rfl
      obtain rfl := List.singleton_inj.1 hk
      have hk := hbetween k (by simp)
      exact .inr ⟨⟨before, between, hread, fun j hj => hbetween j (by simp [hj])⟩, hk.2⟩
  · by_cases hk : k = .kwUnits
    · exact fun _ => ⟨read, [], by rw [hk], by simp⟩
    · rintro (hunits | ⟨⟨before, between, rfl, hbetween⟩, hother⟩)
      · exact absurd hunits hk
      · refine ⟨before, between ++ [k], by simp, fun j hj => ?_⟩
        rcases List.mem_append.1 hj with hj | hj
        · exact hbetween j hj
        · rw [List.mem_singleton.1 hj]
          exact ⟨hk, hother⟩

namespace Lexer

/-- The progress that a token is read with: a free text is looked for only once. -/
def UnitsProgress.settled : UnitsProgress → UnitsProgress
  | .awaitingText => .outside
  | p => p

/-- The progress after tokens of the given kinds. -/
def progress (read : List TokenKind) : UnitsProgress :=
  read.foldl (fun p k => p.settled.after k) .outside

variable {read : List TokenKind} {k : TokenKind} {p : UnitsProgress}

theorem UnitsProgress.settled_of_ne (h : p ≠ .awaitingText) : p.settled = p := by
  cases p with
  | awaitingText => exact absurd rfl h
  | _ => rfl

theorem progress_concat : progress (read ++ [k]) = (progress read).settled.after k := by
  simp [progress]

theorem UnitsProgress.after_eq_awaitingEq_iff :
    p.settled.after k = .awaitingEq ↔ k = .kwUnits ∨ p = .awaitingEq ∧ k ≠ .eq ∧ k ≠ .newline := by
  by_cases hunits : k = .kwUnits
  · simp [hunits, after]
  · cases p with
    | awaitingEq =>
      by_cases heq : k = .eq
      · simp [heq, settled, after]
      · by_cases hnewline : k = .newline
        · simp [hnewline, settled, after]
        · simp [settled, after, hunits, heq, hnewline]
    | _ => simp [settled, after_outside hunits, hunits]

theorem UnitsProgress.after_eq_awaitingText_iff :
    p.settled.after k = .awaitingText ↔ p = .awaitingEq ∧ k = .eq := by
  by_cases heq : k = .eq
  · cases p <;> simp [heq, settled, after]
  · have hsettled : p.settled ≠ .awaitingText := by cases p <;> simp [settled]
    simp [heq, after_ne_awaitingText hsettled heq]

theorem progress_eq_awaitingEq_iff : progress read = .awaitingEq ↔ AwaitsEq read := by
  induction read using List.reverseRecOn with
  | nil => simp [progress, not_awaitsEq_nil]
  | append_singleton read k ih =>
    rw [progress_concat, UnitsProgress.after_eq_awaitingEq_iff, awaitsEq_concat, ih]

theorem progress_eq_awaitingText_iff :
    progress (read ++ [k]) = .awaitingText ↔ AwaitsEq read ∧ k = .eq := by
  rw [progress_concat, UnitsProgress.after_eq_awaitingText_iff, progress_eq_awaitingEq_iff]

/-- A step of a scan depends on the progress only where a free text is looked for. -/
theorem Scan.Ready.units_next {s t : Scan} (hs : s.Ready) {x : Lexeme} (h : s.next = some (x, t)) :
    t.units = s.units.settled.after x.kind := by
  have hcode {cs : List Char} {units : UnitsProgress} (h : nextCode cs units = some (x, t)) :
      t.units = units.after x.kind := by
    unfold nextCode at h
    split at h
    · cases h
    · split at h <;> cases h <;> rfl
  unfold Scan.next at h
  split at h
  · next y pending hpending =>
    have hunits := hs.ne_awaitingText hpending
    cases h
    rw [UnitsProgress.settled_of_ne hunits]
  · split at h
    · next hunits =>
      rw [hunits]
      split at h
      · cases h
        rfl
      · cases h
        rfl
      · exact hcode h
    · next hunits =>
      rw [hcode h, UnitsProgress.settled_of_ne hunits]

/-! ### Readers -/

variable {source : List Char} {ts after : List Token} {r r' : Lexer} {t : Token}

/-- A reader knows how far a declaration of units has come by the tokens that it has read. -/
theorem Reads.units_eq (h : Reads source ts r) : r.scan.units = progress (ts.map (·.kind)) := by
  induction h with
  | start => rfl
  | next hreads hnext ih =>
    obtain ⟨⟨x, scan⟩, hscan, heq⟩ := Option.map_eq_some_iff.1 hnext
    cases heq
    rw [List.map_append, List.map_singleton, progress_concat, ← ih]
    exact hreads.between.ready.units_next hscan

/-- A reader that has read the tokens before another one reads that one next. -/
theorem Reads.next_of_lex (h : Reads source ts r) (hlex : lex source = ts ++ t :: after) :
    ∃ x scan, r.scan.next = some (x, scan) ∧ t = x.token r.offset ∧
      r.next = some (t, { r with offset := t.range.stop, scan }) := by
  have hrest := h.between.tokens_eq
  rw [hlex, List.append_cancel_left_eq] at hrest
  cases hnext : r.scan.next with
  | none =>
    rw [Scan.remaining_of_next_none hnext] at hrest
    cases hrest
  | some step =>
    obtain ⟨x, scan⟩ := step
    rw [Scan.remaining_of_next h.between.proper hnext, Lexeme.tokens] at hrest
    obtain ⟨rfl, -⟩ := List.cons.inj hrest
    refine ⟨x, scan, rfl, rfl, ?_⟩
    rw [Lexer.next, hnext]
    rfl

theorem exists_reads (h : lex source = ts ++ after) : ∃ r, Reads source ts r := by
  induction ts using List.reverseRecOn generalizing after with
  | nil => exact ⟨_, .start⟩
  | append_singleton ts t ih =>
    rw [List.append_assoc] at h
    obtain ⟨r, hr⟩ := ih h
    obtain ⟨x, scan, -, -, hnext⟩ := hr.next_of_lex h
    exact ⟨_, hr.next hnext⟩

/-- The text of the token that a reader reads next is that of the lexeme found. -/
theorem Reads.text_next (h : Reads source ts r) {x : Lexeme} {scan : Scan}
    (hnext : r.scan.next = some (x, scan)) : (x.token r.offset).text source = x.text := by
  obtain ⟨pre, hpre, hlength⟩ := append_of_dropBytes h.between.text_eq
  rw [← (Scan.next_spec h.between.proper hnext).text_eq, ← List.append_assoc] at hpre
  rw [← hpre, ← hlength]
  exact Lexeme.text_token pre scan.text x

/-! ### Declarations of units -/

/-- A free text is due behind an `=`: it is the first after the last `Units` of its line, and something
is left on the line. -/
structure Announced (source : List Char) (before : List Token) (e : Token) (blank text : List Char) :
    Prop where
  kind_eq : e.kind = .eq
  awaits : AwaitsEq (before.map (·.kind))
  free : ∃ rest, dropBytes source e.range.stop = some rest ∧ FreeText rest blank text

/-- The tokens of the blanks in front of a free text: none, or one. -/
inductive Gap (source : List Char) : List Char → List Token → Prop where
  | nil : Gap source [] []
  | blank {w : Token} (h : w.kind = .whitespace) : Gap source (w.text source) [w]

/-- A free text that waits has been announced, and the blanks before it are read. -/
def Waits (source : List Char) (ts : List Token) (text : List Char) : Prop :=
  ∃ before e gap blank, ts = before ++ e :: gap ∧ Announced source before e blank text ∧
    Gap source blank gap

/-- The only progress at which a free text is looked for is the one right behind its `=`. -/
theorem Reads.announced (h : Reads source ts r) (hunits : r.scan.units = .awaitingText)
    (hfree : FreeText r.scan.rest blank text) :
    ∃ before e, ts = before ++ [e] ∧ Announced source before e blank text := by
  have hrest := ((lex_tiles source).2 ts r h).2.2.2.2 hunits
  have hoffset := h.between.offset_eq
  rw [h.units_eq] at hunits
  rcases List.eq_nil_or_concat ts with rfl | ⟨before, e, rfl⟩
  · cases hunits
  · rw [List.concat_eq_append] at hunits hoffset
    rw [List.map_append, List.map_singleton, progress_eq_awaitingText_iff] at hunits
    rw [Token.endOf_concat] at hoffset
    exact ⟨before, e, List.concat_eq_append, hunits.2, hunits.1, _, hoffset ▸ hrest.2, hfree⟩

theorem munch_of_mem_wordRun {n : Nat} {x : Lexeme} (hx : x ∈ (wordRun n cs).next) :
    ∃ cs', munch cs' = some (x, (wordRun n cs).rest) := by
  induction n generalizing cs with
  | zero => cases hx
  | succ n ih =>
    rw [wordRun] at hx ⊢
    split at hx
    · cases hx
    · next y rest hmunch =>
      split at hx
      · next hword =>
        rw [if_pos hword]
        exact ih hx
      · next hword =>
        rw [if_neg hword, List.mem_singleton.1 hx]
        exact ⟨cs, hmunch⟩

theorem kind_ne_unitsText_rules : ∀ r ∈ rules, r.kind ≠ .unitsText := by
  decide +kernel

theorem kind_ne_unitsText_of_munch {x : Lexeme} (h : munch cs = some (x, rest)) :
    x.kind ≠ .unitsText := by
  intro hkind
  have herror : x.kind ≠ .error := by
    rw [hkind]
    exact TokenKind.noConfusion
  obtain ⟨r, hr, hrkind, -⟩ := exists_rule_of_munch h herror
  exact kind_ne_unitsText_rules r hr (hrkind.trans hkind)

/-- No rule finds a free text. -/
theorem kind_ne_unitsText_of_nextCode {units : UnitsProgress} {x : Lexeme} {scan : Scan}
    (h : Scan.nextCode cs units = some (x, scan)) :
    x.kind ≠ .unitsText ∧ ∀ y ∈ scan.pending, y.kind ≠ .unitsText := by
  unfold Scan.nextCode at h
  split at h
  · cases h
  · next y rest hmunch =>
    split at h
    · cases h
      refine ⟨?_, fun y hy => ?_⟩
      · split
        · exact kind_ne_unitsText_of_munch hmunch
        · exact TokenKind.noConfusion
      · obtain ⟨cs', hmunch⟩ := munch_of_mem_wordRun hy
        exact kind_ne_unitsText_of_munch hmunch
    · cases h
      exact ⟨kind_ne_unitsText_of_munch hmunch, fun y hy => absurd hy List.not_mem_nil⟩

/-- The next token is a free text only if one waits or the `=` before it announces it; and one that waits
behind it does so behind the blanks. -/
theorem Reads.waits_next (h : Reads source ts r)
    (hs : ∀ y ∈ r.scan.pending, y.kind = .unitsText → Waits source ts y.text) {x : Lexeme} {scan : Scan}
    (hnext : r.scan.next = some (x, scan)) :
    (x.kind = .unitsText → Waits source ts x.text) ∧
      ∀ y ∈ scan.pending, y.kind = .unitsText → Waits source (ts ++ [x.token r.offset]) y.text := by
  have htext := h.text_next hnext
  have hcode {cs : List Char} {units : UnitsProgress} (h : Scan.nextCode cs units = some (x, scan)) :
      (x.kind = .unitsText → Waits source ts x.text) ∧
        ∀ y ∈ scan.pending, y.kind = .unitsText → Waits source (ts ++ [x.token r.offset]) y.text := by
    obtain ⟨hx, hpending⟩ := kind_ne_unitsText_of_nextCode h
    exact ⟨fun hkind => absurd hkind hx, fun y hy hkind => absurd hkind (hpending y hy)⟩
  unfold Scan.next at hnext
  split at hnext
  · next y pending hpending =>
    have hnil := h.between.ready.eq_nil_of_pending hpending
    cases hnext
    exact ⟨hs x (by simp [hpending]), by simp [hnil]⟩
  · split at hnext
    · next hunits =>
      split at hnext
      · next found =>
        obtain ⟨before, e, rfl, hannounced⟩ := h.announced hunits (unitsText?_eq_some_iff.1 found).1
        cases hnext
        exact ⟨fun _ => ⟨before, e, [], [], rfl, hannounced, .nil⟩, by simp⟩
      · next start text later _ found =>
        obtain ⟨before, e, rfl, hannounced⟩ := h.announced hunits (unitsText?_eq_some_iff.1 found).1
        cases hnext
        refine ⟨fun hkind => TokenKind.noConfusion hkind, fun y hy _ => ?_⟩
        have hgap : Gap source _ [Lexeme.token ⟨.whitespace, start⟩ r.offset] := .blank rfl
        rw [htext] at hgap
        rw [List.mem_singleton.1 hy]
        exact ⟨before, e, _, _, by simp, hannounced, hgap⟩
      · exact hcode hnext
    · exact hcode hnext

theorem Reads.waits (h : Reads source ts r) :
    ∀ y ∈ r.scan.pending, y.kind = .unitsText → Waits source ts y.text := by
  induction h with
  | start => exact fun y hy => absurd hy List.not_mem_nil
  | next hreads hnext ih =>
    obtain ⟨⟨x, scan⟩, hscan, heq⟩ := Option.map_eq_some_iff.1 hnext
    cases heq
    exact (hreads.waits_next ih hscan).2

/-- Behind an `=` that announces a free text the text is read, after the blanks before it. -/
theorem Announced.exists_text {before : List Token} {e : Token}
    (h : Announced source before e blank text) (hlex : lex source = before ++ e :: after) :
    ∃ gap t later, after = gap ++ t :: later ∧ Gap source blank gap ∧ t.kind = .unitsText ∧
      t.text source = text := by
  rw [List.append_cons] at hlex
  obtain ⟨r, hr⟩ := exists_reads hlex
  have hunits : r.scan.units = .awaitingText := by
    rw [hr.units_eq, List.map_append, List.map_singleton, progress_eq_awaitingText_iff]
    exact ⟨h.awaits, h.kind_eq⟩
  obtain ⟨hpending, hdrop⟩ := ((lex_tiles source).2 _ r hr).2.2.2.2 hunits
  obtain ⟨rest, hrest, hfree⟩ := h.free
  have hoffset := hr.between.offset_eq
  rw [Token.endOf_concat] at hoffset
  rw [hoffset, hrest, Option.some.injEq] at hdrop
  obtain ⟨tail, more, hlater, -⟩ := hfree.exists_tail
  have hfound := unitsText?_eq_some_iff.2 ⟨hfree, hlater⟩
  rw [hdrop] at hfound
  have hafter := hr.between.tokens_eq
  rw [hlex, List.append_cancel_left_eq] at hafter
  cases blank with
  | nil =>
    have hnext : r.scan.next = some (⟨.unitsText, text⟩, ⟨tail ++ more, [], .outside⟩) := by
      simp only [Scan.next, hpending, hunits, hfound]
    rw [Scan.remaining_of_next hr.between.proper hnext, Lexeme.tokens] at hafter
    exact ⟨[], _, _, hafter, .nil, rfl, hr.text_next hnext⟩
  | cons c blank =>
    have hnext : r.scan.next =
        some (⟨.whitespace, c :: blank⟩, ⟨tail ++ more, [⟨.unitsText, text⟩], .outside⟩) := by
      simp only [Scan.next, hpending, hunits, hfound]
    have hreader : r.next = some (Lexeme.token ⟨.whitespace, c :: blank⟩ r.offset,
        { r with
          offset := r.offset + byteLength (c :: blank)
          scan := ⟨tail ++ more, [⟨.unitsText, text⟩], .outside⟩ }) := by
      rw [Lexer.next, hnext]
      rfl
    have hr' := hr.next hreader
    have hlast : (Scan.mk (tail ++ more) [⟨.unitsText, text⟩] .outside).next =
        some (⟨.unitsText, text⟩, ⟨tail ++ more, [], .outside⟩) := rfl
    rw [Scan.remaining_of_next hr.between.proper hnext,
      Scan.remaining_of_next hr'.between.proper hlast, Lexeme.tokens, Lexeme.tokens] at hafter
    have hgap : Gap source _ [Lexeme.token ⟨.whitespace, c :: blank⟩ r.offset] := .blank rfl
    rw [hr.text_next hnext] at hgap
    exact ⟨_, _, _, hafter, hgap, rfl, hr'.text_next hlast⟩

end Lexer

open Lexer in
/-- Free texts stand where they are announced: each `=` that announces one has it behind itself, with no
more than a token of blanks between, and there are no others. -/
theorem unitsText_placed (source : List Char) :
    (∀ before e after, lex source = before ++ e :: after → ∀ blank text,
      Announced source before e blank text →
        ∃ gap t later, after = gap ++ t :: later ∧ Gap source blank gap ∧ t.kind = .unitsText ∧
          t.text source = text) ∧
      ∀ before t after, lex source = before ++ t :: after → t.kind = .unitsText →
        ∃ prior e gap blank, before = prior ++ e :: gap ∧
          Announced source prior e blank (t.text source) ∧ Gap source blank gap := by
  constructor
  · intro before e after hlex blank text hannounced
    exact hannounced.exists_text hlex
  · intro before t after hlex hkind
    obtain ⟨r, hr⟩ := exists_reads hlex
    obtain ⟨x, scan, hnext, rfl, -⟩ := hr.next_of_lex hlex
    rw [hr.text_next hnext]
    exact (hr.waits_next hr.waits hnext).1 hkind

open Lexer in
/-- In `Units 1= % of'a` the `=` waits behind the number when it is read, and announces `% of`. -/
theorem unitsText_placed_number :
    let source := "Units 1= % of'a".toList
    Announced source [⟨.kwUnits, 0, 5⟩, ⟨.whitespace, 5, 6⟩, ⟨.number, 6, 7⟩] ⟨.eq, 7, 8⟩ [' ']
      "% of".toList ∧
    ∃ gap t later, [⟨.whitespace, 8, 9⟩, ⟨.unitsText, 9, 13⟩, ⟨.comment, 13, 15⟩] =
        gap ++ t :: later ∧ Gap source [' '] gap ∧ t.kind = .unitsText ∧
        t.text source = "% of".toList := by
  intro source
  have hlex : lex source = [⟨.kwUnits, 0, 5⟩, ⟨.whitespace, 5, 6⟩, ⟨.number, 6, 7⟩] ++
      ⟨.eq, 7, 8⟩ :: [⟨.whitespace, 8, 9⟩, ⟨.unitsText, 9, 13⟩, ⟨.comment, 13, 15⟩] := by
    decide +kernel
  have hfree : FreeText " % of'a".toList [' '] "% of".toList :=
    { line_eq := ⟨[], by decide, by simp⟩
      blank_eq := by simp
      first := by simp
      last := ⟨'f', by decide, by decide⟩ }
  have hannounced : Announced source [⟨.kwUnits, 0, 5⟩, ⟨.whitespace, 5, 6⟩, ⟨.number, 6, 7⟩]
      ⟨.eq, 7, 8⟩ [' '] "% of".toList :=
    { kind_eq := rfl
      awaits := ⟨[], [.whitespace, .number], rfl, by simp⟩
      free := ⟨_, by decide +kernel, hfree⟩ }
  exact ⟨hannounced, (unitsText_placed source).1 _ _ _ hlex _ _ hannounced⟩

end CRBasic
