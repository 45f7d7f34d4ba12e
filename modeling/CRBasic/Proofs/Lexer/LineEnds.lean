import CRBasic.Proofs.Lexer.Breaks
import CRBasic.Proofs.Lexer.Lines

/-!
# Line ends of two characters

A carriage return put before each line feed of a text that has none changes the texts of the line
breaks and nothing else: the lexemes are the same but for these (`lexemes_crlf`).  The rules that are
not for line breaks stop at either of the two characters, and so does the free text of a declaration
of units.
-/

namespace CRBasic

/-- A text with a carriage return before each line feed. -/
def crlf (cs : List Char) : List Char :=
  cs.flatMap fun c => if c = '\n' then ['\r', '\n'] else [c]

variable {cs ds u v : List Char} {c : Char} {n : Nat}

@[simp] theorem crlf_nil : crlf [] = [] := rfl

@[simp] theorem crlf_lineFeed (cs : List Char) : crlf ('\n' :: cs) = '\r' :: '\n' :: crlf cs := rfl

theorem crlf_cons (hc : c ≠ '\n') (cs : List Char) : crlf (c :: cs) = c :: crlf cs := by
  rw [crlf, List.flatMap_cons, if_neg hc]
  rfl

@[simp] theorem crlf_append (cs ds : List Char) : crlf (cs ++ ds) = crlf cs ++ crlf ds :=
  List.flatMap_append

@[simp] theorem isEmpty_crlf (cs : List Char) : (crlf cs).isEmpty = cs.isEmpty := by
  cases cs with
  | nil => rfl
  | cons c cs =>
    rw [crlf, List.flatMap_cons]
    split <;> rfl

/-- Within a line nothing changes. -/
theorem crlf_of_not_mem (h : '\n' ∉ cs) : crlf cs = cs := by
  induction cs with
  | nil => rfl
  | cons c cs ih =>
    obtain ⟨hc, hcs⟩ := not_or.1 (mt List.mem_cons.2 h)
    rw [crlf_cons (Ne.symm hc), ih hcs]

theorem length_le_crlf (cs : List Char) : cs.length ≤ (crlf cs).length := by
  induction cs with
  | nil => exact Nat.le_refl _
  | cons c cs ih =>
    by_cases hc : c = '\n'
    · subst hc
      rw [crlf_lineFeed]
      simp only [List.length_cons]
      omega
    · rw [crlf_cons hc]
      exact Nat.succ_le_succ ih

/-- A part at the front that lies within a line stays where it is. -/
theorem split_crlf (h : '\n' ∉ cs.take n) (hn : n ≤ cs.length) :
    (crlf cs).take n = cs.take n ∧ (crlf cs).drop n = crlf (cs.drop n) := by
  have hlength : (cs.take n).length = n := by
    rw [List.length_take, Nat.min_eq_left hn]
  have hsplit : crlf cs = cs.take n ++ crlf (cs.drop n) := by
    conv => lhs; rw [← List.take_append_drop n cs]
    rw [crlf_append, crlf_of_not_mem h]
  rw [hsplit]
  exact ⟨List.take_left' hlength, List.drop_left' hlength⟩

theorem takeWhile_crlf {f : Char → Bool} (hfeed : f '\n' = false) (hreturn : f '\r' = false)
    (cs : List Char) : (crlf cs).takeWhile f = cs.takeWhile f := by
  induction cs with
  | nil => rfl
  | cons c cs ih =>
    by_cases hc : c = '\n'
    · subst hc
      rw [crlf_lineFeed, List.takeWhile_cons_of_neg (by simp [hreturn]),
        List.takeWhile_cons_of_neg (by simp [hfeed])]
    · rw [crlf_cons hc, List.takeWhile_cons, List.takeWhile_cons, ih]

/-- A lexeme whose text has a carriage return before each line feed. -/
def Lexeme.crlf (x : Lexeme) : Lexeme := ⟨x.kind, CRBasic.crlf x.text⟩

@[simp] theorem Lexeme.kind_crlf (x : Lexeme) : x.crlf.kind = x.kind := rfl

namespace Lexer

open Lexeme Pattern

variable {x : Lexeme} {rest : List Char}

/-! ### Rules at a carriage return -/

theorem avoidsReturn_or_lineBreak_rules : ∀ r ∈ rules,
    r.pattern.avoids '\r' ∨ r.pattern = lineBreak := by
  decide +kernel

/-- A lexeme has a carriage return only at its start. -/
theorem of_matches_return {r : Rule} (hr : r ∈ rules) (h : Matches r.pattern (u ++ '\r' :: v)) :
    u = [] := by
  have hmem : '\r' ∈ u ++ '\r' :: v := by simp
  rcases avoidsReturn_or_lineBreak_rules r hr with havoids | hbreak
  · exact absurd hmem (not_mem_of_avoids havoids h)
  · cases u with
    | nil => rfl
    | cons a u =>
      have hmem : '\r' ∈ u ++ '\r' :: v := by simp
      rw [hbreak, List.cons_append] at h
      rcases matches_lineBreak h with h | h | h <;> rw [(List.cons.inj h).2] at hmem <;>
        simp at hmem

/-- A carriage return, and what follows it, change nothing before it. -/
theorem longestMatch_return (hu : u ≠ []) : longestMatch (u ++ '\r' :: v) = longestMatch u := by
  refine longestMatch_append fun r hr w hw hne hmatch => ?_
  rcases List.prefix_cons_iff.1 hw with rfl | ⟨w, rfl, -⟩
  · exact hne rfl
  · exact hu (of_matches_return hr hmatch)

/-- A match that does not start with a break lies within its line. -/
theorem lineFeed_not_mem_take {k : TokenKind} (h : longestMatch (c :: cs) = some (k, n))
    (hfeed : c ≠ '\n') (hreturn : c ≠ '\r') : '\n' ∉ (c :: cs).take n := by
  rcases exists_rule_of_better h with h | ⟨r, hr, -, hn⟩
  · cases h
  · intro hmem
    obtain ⟨u, w, hsplit⟩ := List.append_of_mem hmem
    have hlongest := longest_eq_some_iff.1 hn
    have hmatch := hlongest.matches_take
    rw [hsplit] at hmatch
    obtain ⟨m, rfl⟩ : ∃ m, n = m + 1 := by
      cases n with
      | zero => cases hmem
      | succ m => exact ⟨m, rfl⟩
    rw [List.take_succ_cons] at hsplit
    rcases (of_matches_lineFeed hr hmatch).2 with rfl | rfl
    · exact hfeed (List.cons.inj hsplit).1
    · exact hreturn (List.cons.inj hsplit).1

theorem longestMatch_crlf (h : '\r' ∉ c :: cs) (hc : c ≠ '\n') :
    longestMatch (crlf (c :: cs)) = longestMatch (c :: cs) := by
  by_cases hmem : '\n' ∈ c :: cs
  · obtain ⟨u, v, hsplit, hu⟩ := List.eq_append_cons_of_mem hmem
    rw [hsplit] at h ⊢
    have hne : u ≠ [] := by
      rintro rfl
      exact hc (List.cons.inj hsplit).1
    have hreturn : u ≠ ['\r'] := by
      rintro rfl
      exact h List.mem_cons_self
    rw [crlf_append, crlf_of_not_mem hu, crlf_lineFeed, longestMatch_return hne,
      longestMatch_lineFeed ⟨hne, hreturn⟩]
  · rw [crlf_of_not_mem hmem]

/-! ### Single steps -/

theorem munch_crlf (h : '\r' ∉ cs) :
    munch (crlf cs) = (munch cs).map fun (x, rest) => (x.crlf, crlf rest) := by
  cases cs with
  | nil => rfl
  | cons c cs =>
    by_cases hc : c = '\n'
    · subst hc
      rw [crlf_lineFeed, munch_both, munch_nil_lineFeed]
      rfl
    · have hreturn : c ≠ '\r' := fun hreturn => h (by rw [hreturn]; exact List.mem_cons_self)
      have hlongest := longestMatch_crlf h hc
      cases hmatch : longestMatch (c :: cs) with
      | none =>
        rw [hmatch, crlf_cons hc] at hlongest
        rw [crlf_cons hc, munch_of_longestMatch_none hlongest, munch_of_longestMatch_none hmatch,
          Option.map_some]
        exact congrArg (fun text => some (Lexeme.mk .error text, crlf cs)) (crlf_cons hc []).symm
      | some r =>
        obtain ⟨k, n⟩ := r
        have hline := lineFeed_not_mem_take hmatch hc hreturn
        obtain ⟨htake, hdrop⟩ := split_crlf hline (longestMatch_bounds hmatch).2
        rw [hmatch] at hlongest
        rw [munch_eq hlongest, munch_eq hmatch, htake, hdrop, Option.map_some]
        refine congrArg (fun text => some (Lexeme.mk k text, _)) ?_
        exact (crlf_of_not_mem hline).symm

/-- What is left after the first lexeme has no carriage return if the text has none. -/
theorem return_not_mem_of_munch (h : '\r' ∉ cs) (hmunch : munch cs = some (x, rest)) :
    '\r' ∉ rest := by
  rw [← (munch_spec hmunch).1] at h
  exact fun hmem => h (List.mem_append_right _ hmem)

/-- What follows a number, with a carriage return before each line feed. -/
def WordRun.crlf (run : WordRun) : WordRun :=
  ⟨CRBasic.crlf run.text, run.next.map Lexeme.crlf, CRBasic.crlf run.rest⟩

theorem wordRun_crlf (n : Nat) (h : '\r' ∉ cs) : wordRun n (crlf cs) = (wordRun n cs).crlf := by
  induction n generalizing cs with
  | zero => rfl
  | succ n ih =>
    rw [wordRun, wordRun, munch_crlf h]
    cases hmunch : munch cs with
    | none => rfl
    | some r =>
      obtain ⟨x, rest⟩ := r
      simp only [Option.map_some, kind_crlf, ih (return_not_mem_of_munch h hmunch)]
      split
      · simp [WordRun.crlf, Lexeme.crlf]
      · rfl

/-- Looking at more lexemes than there are characters changes nothing. -/
theorem wordRun_eq_of_le {m : Nat} (hm : cs.length ≤ m) (hn : cs.length ≤ n) :
    wordRun m cs = wordRun n cs := by
  have hnil (k : Nat) : wordRun k [] = ⟨[], [], []⟩ := by
    cases k <;> rfl
  induction m generalizing cs n with
  | zero => rw [List.eq_nil_of_length_eq_zero (Nat.le_zero.1 hm), hnil, hnil]
  | succ m ih =>
    cases n with
    | zero => rw [List.eq_nil_of_length_eq_zero (Nat.le_zero.1 hn), hnil, hnil]
    | succ n =>
      rw [wordRun, wordRun]
      cases hmunch : munch cs with
      | none => rfl
      | some r =>
        obtain ⟨x, rest⟩ := r
        obtain ⟨htext, hne⟩ := munch_spec hmunch
        have hlength := congrArg List.length htext
        have hpos := List.length_pos_iff.2 hne
        rw [List.length_append] at hlength
        dsimp only
        have hrest : rest.length ≤ m := by omega
        rw [ih hrest (n := n) (by omega)]

/-- The free text of a declaration of units lies within its line. -/
theorem unitsText?_crlf (cs : List Char) : unitsText? (crlf cs) =
    (unitsText? cs).map fun (blank, text, rest) => (blank, text, crlf rest) := by
  have hblank := takeWhile_crlf (f := fun c => c == ' ' || c == '\t') rfl rfl cs
  have hblankPrefix := List.takeWhile_prefix (l := cs) fun c => c == ' ' || c == '\t'
  have hdrop : (crlf cs).drop (cs.takeWhile fun c => c == ' ' || c == '\t').length =
      crlf (cs.drop (cs.takeWhile fun c => c == ' ' || c == '\t').length) := by
    refine (split_crlf ?_ hblankPrefix.length_le).2
    rw [← List.prefix_iff_eq_take.1 hblankPrefix]
    exact (unbroken_takeWhile rfl rfl cs).2
  simp only [unitsText?, hblank, hdrop]
  generalize cs.drop (cs.takeWhile fun c => c == ' ' || c == '\t').length = rest
  have htext := takeWhile_crlf (f := fun c => !(c == '\r' || c == '\n' || c == '\x27')) rfl rfl rest
  have htextPrefix := (prefix_trimEnd _).trans (List.takeWhile_prefix (l := rest)
    fun c => !(c == '\r' || c == '\n' || c == '\x27'))
  have htextLine : '\n' ∉ rest.take (trimEnd (rest.takeWhile
      fun c => !(c == '\r' || c == '\n' || c == '\x27'))).length := by
    rw [← List.prefix_iff_eq_take.1 htextPrefix]
    exact ((unbroken_takeWhile rfl rfl rest).of_subset (prefix_trimEnd _).subset).2
  rw [htext, (split_crlf htextLine htextPrefix.length_le).2]
  split <;> rfl

/-! ### Scans -/

namespace Scan

variable {s t : Scan}

/-- A scan of a text with a carriage return before each line feed. -/
def crlf (s : Scan) : Scan := ⟨CRBasic.crlf s.rest, s.pending.map Lexeme.crlf, s.units⟩

theorem nextCode_crlf (units : UnitsProgress) (h : '\r' ∉ cs) :
    nextCode (CRBasic.crlf cs) units =
      (nextCode cs units).map fun (x, t) => (x.crlf, t.crlf) := by
  rw [nextCode, nextCode, munch_crlf h]
  cases hmunch : munch cs with
  | none => rfl
  | some r =>
    obtain ⟨x, rest⟩ := r
    have hrest := return_not_mem_of_munch h hmunch
    have hrun : wordRun (CRBasic.crlf rest).length (CRBasic.crlf rest) =
        (wordRun rest.length rest).crlf := by
      rw [wordRun_crlf _ hrest, wordRun_eq_of_le (length_le_crlf rest) (Nat.le_refl _)]
    simp only [Option.map_some, kind_crlf, hrun]
    split
    · have hempty : (wordRun rest.length rest).crlf.text.isEmpty =
          (wordRun rest.length rest).text.isEmpty := isEmpty_crlf _
      simp only [Option.map_some, hempty]
      split <;> simp [yieldCode, crlf, Lexeme.crlf, WordRun.crlf]
    · rfl

theorem next_crlf (h : '\r' ∉ s.rest) :
    s.crlf.next = s.next.map fun (x, t) => (x.crlf, t.crlf) := by
  obtain ⟨rest, pending, units⟩ := s
  cases pending with
  | cons x pending => rfl
  | nil =>
    cases units with
    | outside => exact nextCode_crlf _ h
    | awaitingEq => exact nextCode_crlf _ h
    | awaitingText =>
      simp only [next, crlf, List.map_nil, unitsText?_crlf]
      cases hunits : unitsText? rest with
      | none => exact nextCode_crlf .outside h
      | some m =>
        obtain ⟨blank, text, tail⟩ := m
        obtain ⟨⟨-, hblank⟩, -, htext⟩ := unbroken_of_unitsText? hunits
        cases blank with
        | nil => simp [Lexeme.crlf, crlf_of_not_mem htext]
        | cons b blank => simp [Lexeme.crlf, crlf_of_not_mem htext, crlf_of_not_mem hblank]

theorem take_crlf (n : Nat) (hs : s.Proper) (h : '\r' ∉ s.text) :
    s.crlf.take n = (s.take n).map Lexeme.crlf := by
  induction n generalizing s with
  | zero => rfl
  | succ n ih =>
    have hrest : '\r' ∉ s.rest := fun hmem => h (List.mem_append_right _ hmem)
    rw [take, take, next_crlf hrest]
    cases hnext : s.next with
    | none => rfl
    | some r =>
      obtain ⟨x, t⟩ := r
      obtain ⟨htext, -, ht⟩ := next_spec hs hnext
      rw [← htext] at h
      simp only [Option.map_some, List.map_cons, ih ht fun hmem => h (List.mem_append_right _ hmem)]

end Scan

end Lexer

open Lexer in
/-- A carriage return before each line feed is part of the line break, and changes no other lexeme. -/
theorem lexemes_crlf (h : '\r' ∉ cs) : lexemes (crlf cs) = (lexemes cs).map Lexeme.crlf := by
  have hsize (ds : List Char) : (Scan.mk ds [] .outside).text.length = ds.length := rfl
  have htake := Scan.take_crlf (s := ⟨cs, [], .outside⟩) (crlf cs).length Scan.proper_nil h
  rw [lexemes, lexemes, Scan.remaining, Scan.remaining, ← Scan.length_text, ← Scan.length_text,
    Scan.take_eq_of_le Scan.proper_nil (Nat.le_refl _) (length_le_crlf cs), ← htake]
  rfl

end CRBasic
