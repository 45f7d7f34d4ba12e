import CRBasic.Proofs.Embedding.Statements
import CRBasic.Proofs.Parsing.Root

/-!
# All statements of a text in a larger one

The statements of a text, one after the other, are statements of a larger text
(`allStatements_embed`).  What the larger text does after them is left open: it ends a block, or goes
on with more statements (`ReadsAs.append`).
-/

namespace CRBasic

theorem Parsing.closes_of_no_frames : ∀ ks ∈ ([] : List (List TokenKind)), ∀ k ∈ ks, k.closes := by
  simp

/-- The setting of a text among others, outside of blocks. -/
def Parsing.Setting.beside (taken : Nat) (reports : Array Report) (post : List Word)
    (h : ∀ w ∈ post.head?, w.startsLine) : Parsing.Setting where
  post := post
  taken := taken
  reports := reports
  startsLine := h
  closes := closes_of_no_frames

namespace Grammar

open Parsing Parsing.Script

/-- What holds between the statements of a text of `total` words in a setting. -/
structure Between (c : Setting) (total : Nat) (s : Sketch) : Prop where
  heard : s.silenced = false
  frames : s.frames = []
  count : s.taken + s.rest.length = total
  placed : ∀ r ∈ s.reports, r.Placed total
  clean : c.frames ≠ [] → s.reports = #[] ∧ ∀ w ∈ s.rest, w.kind ≠ .error

section

variable {c : Setting} {total : Nat} {Lost : Sketch → Prop} {fuel : Nat} {m : Mode} {k : TokenKind}
  {s t u : Sketch} {before : List (Piece Draft)}

theorem between_initial {options : ParseOptions} {words : List Word}
    (h : c.frames ≠ [] → ∀ w ∈ words, w.kind ≠ .error) :
    Between c words.length (Sketch.initial options words) where
  heard := rfl
  frames := rfl
  count := Nat.zero_add _
  placed := by simp [Sketch.initial]
  clean hframes := ⟨rfl, h hframes⟩

theorem Between.holds (h : Between c total s) (hk : s.current = some k) :
    Holds c total .outer (.word false false k) s where
  sees := hk
  loud _ := h.heard
  blamed := nofun
  started := nofun
  closers k hk := by
    rw [Reading.isStop, h.frames] at hk
    cases hk
  settled hs := by
    rw [h.heard] at hs
    cases hs
  count := h.count
  placed := h.placed
  clean hframes := ⟨h.heard, h.clean hframes⟩
  measured := nofun

theorem Holds.between (h : Holds c total .outer m s) (hm : m.isLoud) (hframes : s.frames = []) :
    Between c total s :=
  ⟨h.loud hm, hframes, h.count, h.placed, fun hne => (h.clean hne).2⟩

/-- Whether a statement of the text is next. -/
def continuesText : Script Bool := do return (← current).isSome

theorem run_continuesText {call : Rule → Sketch → Option Sketch} (s : Sketch) :
    continuesText.run call fuel s = some (s.current.isSome, s) := rfl

/-- The statements of a text are the next statements of the larger text, as long as nothing is lost.  The
loop of the larger text only has to go on at words that end no block of it. -/
theorem allStatements_embed {test : Script Bool} (before : List (Piece Draft))
    (hlost : LosingBlocks c Lost)
    (htest : ∀ s : Sketch, s.rest ≠ [] → s.frames = [] → s.current.any c.ends = false →
      Yields script test (c.embed before s) true (c.embed before s))
    (hs : Between c total s) (hrun : allStatements.run (runRule script fuel) fuel s = some ((), t)) :
    Lost t ∨ (Between c total t ∧ t.rest = [] ∧ ∀ v,
      Yields script (whileM test statement) (c.embed before t) () v →
        Yields script (whileM test statement) (c.embed before s) () v) := by
  have hrun : (whileM continuesText statement).run (runRule script fuel) fuel s = some ((), t) := hrun
  obtain ⟨us, hus⟩ := run_whileM_iff.1 hrun
  have hloop := rounds_induction run_continuesText (P := fun _ s t =>
    (Lost s → Lost t) ∧ (Between c total s → Lost t ∨ (Between c total t ∧ t.rest = [] ∧ ∀ v,
      Yields script (whileM test statement) (c.embed before t) () v →
        Yields script (whileM test statement) (c.embed before s) () v))) ?_ ?_ hus
  · exact hloop.2 hs
  · intro n s hstop
    refine ⟨id, fun hs => .inr ⟨hs, ?_, fun v => id⟩⟩
    exact Reading.current_eq_none.1 (by simpa using hstop)
  · intro n s u us t hgo hsu _ ⟨hkept, hbetween⟩
    refine ⟨hkept ∘ hlost.kept hsu, fun hs => ?_⟩
    obtain ⟨k, hk⟩ := Option.isSome_iff_exists.1 hgo
    cases hends : s.current.any c.ends with
    | true => exact .inl (hkept (hlost.statement hends hsu))
    | false =>
      rcases (alike_statement hlost before s () u nofun hsu).2 (hs.holds hk) with h | ⟨hu, h⟩
      · exact .inl (hkept (h.lost nofun))
      · have hframes : u.frames = [] := (Sketch.goesOn_of_run hsu).frames.trans hs.frames
        refine (hbetween (h.between rfl hframes)).imp_right fun ⟨ht, hrest, h⟩ =>
          ⟨ht, hrest, fun v hv => ?_⟩
        exact yields_whileM_cons (htest s (Reading.ne_nil_of_current hk) hs.frames hends) ⟨fuel, hu⟩
          (h v hv)

theorem yields_continuesText (h : s.rest ≠ []) : Yields script continuesText s true s := by
  refine ⟨0, ?_⟩
  rw [run_continuesText, Option.isSome_iff_ne_none.2 ((not_congr Reading.current_eq_none).2 h)]

theorem embed_ne_nil (h : s.rest ≠ []) : (c.embed before s).rest ≠ [] :=
  List.append_ne_nil_of_left_ne_nil h _

/-- What is lost if a block that the text does not end goes on with the words after it. -/
def Runaway (c : Setting) (s : Sketch) : Prop := c.post ≠ [] ∧ ∃ r ∈ s.reports, r.cause.isUnclosed

/-- Outside the blocks of the larger text nothing else is lost. -/
theorem losing_runaway (hframes : c.frames = []) : LosingBlocks c (Runaway c) where
  kept {_ _ _ _ _ _} hrun hs := by
    obtain ⟨hpost, r, hr, hcause⟩ := hs
    have hkept := (Sketch.goesOn_of_run hrun).reports
    exact ⟨hpost, r, Array.mem_toList_iff.1 (hkept.subset (Array.mem_toList_iff.2 hr)), hcause⟩
  leave {s t scope} ht := by
    rwa [Runaway, (leave_same t _ scope).2.2.2]
  report hne := absurd hframes hne
  unclosed hpost hr hcause := ⟨hpost, _, hr, hcause⟩
  bare hends := absurd hframes (Setting.frames_ne_nil_of_ends hends)

end

end Grammar

namespace Parsing

open Script Grammar

/-- The sketch after all statements of a text. -/
def Sketch.after (options : ParseOptions) (words : List Word) (parts : List (Piece Draft))
    (reports : List Report) : Sketch where
  options := options
  rest := []
  taken := words.length
  reports := reports.toArray
  parts := parts.reverse

theorem Sketch.eq_after {t : Sketch} {options : ParseOptions} {words : List Word}
    (hoptions : t.options = options) (hrest : t.rest = []) (htaken : t.taken = words.length)
    (hframes : t.frames = []) (hdepth : t.depth = 0) (heard : t.silenced = false)
    (horigins : t.origins = []) :
    t = Sketch.after options words t.parts.reverse t.reports.toList := by
  obtain ⟨⟨_, _, _, _, _, _, _, _⟩, _⟩ := t
  simp_all [Sketch.after]

section

variable {options : ParseOptions} {words words' : List Word} {parts parts' : List (Piece Draft)}
  {reports reports' : List Report} {c : Setting} {Lost : Sketch → Prop} {test : Script Bool}
  {before : List (Piece Draft)}

/-- All words of a text are taken, problems are heard to its end, and every report lies in the text, or
right behind it. -/
theorem ReadsAs.yields (h : ReadsAs options words parts reports) :
    Yields Grammar.script allStatements (Sketch.initial options words) ()
        (Sketch.after options words parts reports) ∧
      ∀ r ∈ reports, r.Placed words.length := by
  obtain ⟨t, ⟨fuel, hrun⟩, -, rfl, rfl⟩ := h
  have hstart : Between (.beside 0 #[] [] nofun) words.length (Sketch.initial options words) :=
    between_initial fun h => absurd rfl h
  rcases allStatements_embed [] (losing_runaway rfl)
    (fun s hrest _ _ => yields_continuesText (embed_ne_nil hrest)) hstart hrun with hlost | ht
  · exact absurd rfl hlost.1
  · obtain ⟨ht, hrest, -⟩ := ht
    have hgoes := Sketch.goesOn_of_run hrun
    have htaken : t.taken = words.length := by simpa [hrest] using ht.count
    refine ⟨⟨fuel, ?_⟩, fun r hr => ht.placed r (Array.mem_toList_iff.1 hr)⟩
    have hafter := Sketch.eq_after hgoes.options hrest htaken hgoes.frames hgoes.depth ht.heard
      hgoes.origins
    exact hrun.trans (congrArg (fun t => some ((), t)) hafter)

/-- A text is read in a larger text as it is read alone, unless something is lost. -/
theorem ReadsAs.embed (h : ReadsAs options words parts reports) (hlost : LosingBlocks c Lost)
    (htest : ∀ s : Sketch, s.rest ≠ [] → s.frames = [] → s.current.any c.ends = false →
      Yields Grammar.script test (c.embed before s) true (c.embed before s))
    (hclean : c.frames ≠ [] → ∀ w ∈ words, w.kind ≠ .error)
    (hnot : ¬ Lost (Sketch.after options words parts reports)) {v : Sketch}
    (hv : Yields Grammar.script (whileM test statement)
      (c.embed before (Sketch.after options words parts reports)) () v) :
    Yields Grammar.script (whileM test statement)
      (c.embed before (Sketch.initial options words)) () v := by
  obtain ⟨⟨fuel, hrun⟩, -⟩ := h.yields
  obtain ⟨-, -, hembed⟩ :=
    (allStatements_embed _ hlost htest (between_initial hclean) hrun).resolve_left hnot
  exact hembed v hv

/-- Where all blocks have ended, the statements of two texts are read one after the other. -/
theorem ReadsAs.append (h : ReadsAs options words parts reports)
    (h' : ReadsAs options words' parts' reports') (hline : ∀ w ∈ words'.head?, w.startsLine)
    (hclosed : ∀ r ∈ reports, r.cause.isUnclosed = false) :
    ReadsAs options (words ++ words') (parts ++ parts')
      (reports ++ reports'.map (·.shift words.length)) := by
  let first := Setting.beside 0 #[] words' hline
  let second := Setting.beside words.length reports.toArray [] nofun
  have hstart : first.embed [] (Sketch.initial options words) =
      Sketch.initial options (words ++ words') := by
    simp [Setting.embed, Setting.read, Sketch.initial, first, Setting.beside]
  have hmiddle : first.embed [] (Sketch.after options words parts reports) =
      second.embed parts.reverse (Sketch.initial options words') := by
    simp [Setting.embed, Setting.read, Sketch.after, Sketch.initial, first, second, Setting.beside,
      Report.shift_zero]
  have hend : second.embed parts.reverse (Sketch.after options words' parts' reports') =
      Sketch.after options (words ++ words') (parts ++ parts')
        (reports ++ reports'.map (·.shift words.length)) := by
    simp [Setting.embed, Setting.read, Sketch.after, second, Setting.beside]
  refine ⟨Sketch.after options (words ++ words') (parts ++ parts') _, ?_, rfl,
    List.reverse_reverse _, rfl⟩
  have htest (c : Setting) (before : List (Piece Draft)) (s : Sketch) (h : s.rest ≠ [])
      (_ : s.frames = []) (_ : s.current.any c.ends = false) :
      Yields Grammar.script continuesText (c.embed before s) true (c.embed before s) :=
    yields_continuesText (embed_ne_nil h)
  rw [← hstart]
  refine h.embed (losing_runaway rfl) (htest _ _) (absurd rfl) ?_ ?_
  · rintro ⟨-, r, hr, hcause⟩
    rw [hclosed r (List.mem_toArray.1 hr)] at hcause
    cases hcause
  · rw [hmiddle]
    refine h'.embed (losing_runaway rfl) (htest _ _) (absurd rfl) (fun h => h.1 rfl) ?_
    rw [hend]
    exact yields_whileM_nil ⟨0, rfl⟩

end

end Parsing

end CRBasic
