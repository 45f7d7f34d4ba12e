import CRBasic.Proofs.Blocks.Draft
import CRBasic.Proofs.Parsing.Runs
import CRBasic.View.Expression

/-!
# What a run lays down

Between two sketches some parts have been put behind those of the open node (`Laid`).  A node among them
holds only words that end blocks of its own kind, at most one (`Draft.Placed`), and a block that has not
ended is reported once.  What a node was put around starts with a word.  If no problem has been found, every node has the parts that its kind needs
(`Draft.Fits`).
-/

namespace CRBasic

open Parsing

/-! ### What is required of a node -/

/-- The parts that a node of the given kind needs, in a text without a problem. -/
def NodeKind.Fits : NodeKind → List (Piece Draft) → Prop
  | .errorNode, _ => False
  | .binaryExpr, ps => ∃ left op right, ps = [.node left, .word op, .node right] ∧
      Expr.isForm left.kind ∧ Expr.isForm right.kind
  | .unaryExpr, ps => ∃ op operand, ps = [.word op, .node operand] ∧ Expr.isForm operand.kind
  | .parenExpr, ps => ∃ opening inner closing, ps = [.word opening, .node inner, .word closing] ∧
      Expr.isForm inner.kind ∧ closing.kind = .rParen
  | .argList, ps | .paramList, ps | .dimensionList, ps =>
    ∃ qs closing, ps = qs ++ [.word closing] ∧ closing.kind = .rParen
  | .functionCall, ps => ∃ d, .node d ∈ ps ∧ d.kind = .identifier
  | .numberLiteral, ps => ∃ w, ps = [.word w] ∧ w.kind = .number
  | .stringLiteral, ps => ∃ w, ps = [.word w] ∧ w.kind = .quotedString
  | .booleanLiteral, ps => ∃ w, ps = [.word w] ∧ (w.kind = .kwTrue ∨ w.kind = .kwFalse)
  | .ifStmt, ps | .elseIfClause, ps => (∃ d, .node d ∈ ps ∧ Expr.isForm d.kind) ∧
      ∃ d, .node d ∈ ps ∧ d.kind = .stmtList
  | .elseClause, ps | .forLoop, ps | .program, ps => ∃ d, .node d ∈ ps ∧ d.kind = .stmtList
  | _, _ => True

namespace Draft

/-- A node has the parts that its kind needs. -/
def Fits (d : Draft) : Prop := d.kind.Fits d.pieces

/-- The first part of a node, or of the innermost one that it was put around, is a word. -/
def StartsWithWord : Draft → Prop
  | node _ parts => ∃ w ps, parts = .word w :: ps
  | around _ first _ => first.StartsWithWord

/-- A node that was put around another one is an expression around one that starts with a word. -/
def Wraps : Draft → Prop
  | node _ _ => True
  | around kind first _ => Expr.isForm kind ∧ first.StartsWithWord

/-- The words of a node that end blocks end a block of the node's kind, and there is at most one.  Words
that fit nowhere may be any. -/
structure Placed (d : Draft) : Prop where
  ends : d.kind = .errorNode ∨
    ((∀ w ∈ ownWords d.pieces, w.kind.isTerminator → ∃ opener, d.kind.ends? = some (w.kind, opener)) ∧
      (ownWords d.pieces).countP (·.kind.isTerminator) ≤ 1)
  wraps : d.Wraps

/-- A node without a word that ends a block. -/
theorem placed_of_bare {d : Draft} (h : ∀ w, .word w ∈ d.pieces → w.kind.isTerminator = false)
    (hwraps : d.Wraps) : d.Placed := by
  have hwords : ∀ w ∈ ownWords d.pieces, w.kind.isTerminator = false :=
    fun w hw => h w (mem_ownWords.1 hw)
  refine ⟨.inr ⟨fun w hw hend => ?_, ?_⟩, hwraps⟩
  · rw [hwords w hw] at hend
    cases hend
  · rw [List.countP_eq_zero.2 fun w hw => by simp [hwords w hw]]
    exact Nat.zero_le 1

end Draft

namespace Parsing

open Draft Script

/-! ### What is known of two sketches -/

namespace Reading

/-- Whether an `Else` ends the statements of an open block. -/
def inBranch (s : Reading) : Bool := s.isStop .kwElse

/-- The reports of blocks that have not ended. -/
def unclosed (s : Reading) : List Report := s.reports.toList.filter (·.cause.isUnclosed)

end Reading

/-- Reports that start at words, one after the other and none outside the given ones. -/
def Marks (first last : Nat) (rs : List Report) : Prop :=
  ∃ ns : List Nat, rs.map (·.start) = ns.map .startAfter ∧ ns.Pairwise (· ≤ ·) ∧
    ∀ n ∈ ns, first ≤ n ∧ n ≤ last

theorem marks_nil (first last : Nat) : Marks first last [] := ⟨[], rfl, .nil, nofun⟩

theorem Marks.mono {a b a' b' : Nat} {rs : List Report} (h : Marks a b rs) (ha : a' ≤ a)
    (hb : b ≤ b') : Marks a' b' rs := by
  obtain ⟨ns, hns, hsorted, hbounds⟩ := h
  exact ⟨ns, hns, hsorted, fun n hn =>
    ⟨Nat.le_trans ha (hbounds n hn).1, Nat.le_trans (hbounds n hn).2 hb⟩⟩

theorem Marks.append {a b c : Nat} {rs rs' : List Report} (h : Marks a b rs) (h' : Marks b c rs')
    (hab : a ≤ b) (hbc : b ≤ c) : Marks a c (rs ++ rs') := by
  obtain ⟨ns, hns, hsorted, hbounds⟩ := h
  obtain ⟨ns', hns', hsorted', hbounds'⟩ := h'
  refine ⟨ns ++ ns', by rw [List.map_append, hns, hns', List.map_append], ?_, ?_⟩
  · refine List.pairwise_append.2 ⟨hsorted, hsorted', fun n hn m hm => ?_⟩
    exact Nat.le_trans (hbounds n hn).2 (hbounds' m hm).1
  · intro n hn
    rcases List.mem_append.1 hn with hn | hn
    · exact ⟨(hbounds n hn).1, Nat.le_trans (hbounds n hn).2 hbc⟩
    · exact ⟨Nat.le_trans hab (hbounds' n hn).1, (hbounds' n hn).2⟩

/-- No problem has been found up to the second reading, and none is passed over or in a word. -/
structure Clean (s t : Reading) : Prop where
  heard : s.silenced = false
  reports : t.reports = #[]
  words : ∀ w ∈ s.rest, w.kind ≠ .error

/-- From one sketch to another some parts have been put into the open node, which is of the given kind.
Once a problem is known to have been found, nothing is said of texts without a problem. -/
structure Laid (K : NodeKind) (blamed : Bool) (s t : Sketch) (ps : List (Piece Draft)) : Prop where
  goes : s.toReading.GoesOn t.toReading
  parts : t.parts = ps.reverse ++ s.parts
  words : s.rest = wordsOfAll ps ++ t.rest
  bare : ∀ w, .word w ∈ ps → w.kind.isTerminator = false
  placed : ∀ d, .node d ∈ ps → d.All Placed
  unclosed : ∃ rs, t.unclosed = s.unclosed ++ rs ∧ Marks s.taken t.taken rs ∧
    rs.map (·.cause) = unclosedOfAll K s.inBranch ps
  fits : blamed = false → Clean s.toReading t.toReading →
    t.silenced = false ∧ ∀ d, .node d ∈ ps → d.All Fits

variable {K kind : NodeKind} {blamed : Bool} {s t u v : Sketch} {ps qs : List (Piece Draft)}

theorem inBranch_of_goesOn {s t : Reading} (h : s.GoesOn t) : t.inBranch = s.inBranch := by
  rw [Reading.inBranch, Reading.isStop, h.frames]
  rfl

/-- The first of two runs, if no problem has been found up to the end. -/
theorem Clean.first {s t u : Reading} (h : Clean s u) (htu : t.GoesOn u) : Clean s t :=
  ⟨h.heard, htu.reports_eq_nil h.reports, h.words⟩

theorem Clean.second {s t u : Reading} (h : Clean s u) (hst : s.GoesOn t)
    (ht : t.silenced = false) : Clean t u :=
  ⟨ht, h.reports, fun w hw => h.words w (hst.rest.mem hw)⟩

namespace Laid

theorem refl (s : Sketch) : Laid K blamed s s [] where
  goes := .refl _
  parts := rfl
  words := rfl
  bare := nofun
  placed := nofun
  unclosed := ⟨[], by simp, marks_nil _ _, rfl⟩
  fits _ h := ⟨h.heard, nofun⟩

theorem trans (h : Laid K blamed s t ps) (h' : Laid K blamed t u qs) :
    Laid K blamed s u (ps ++ qs) where
  goes := h.goes.trans h'.goes
  parts := by rw [h'.parts, h.parts, List.reverse_append, List.append_assoc]
  words := by rw [h.words, h'.words, wordsOfAll_append, List.append_assoc]
  bare w hw := (List.mem_append.1 hw).elim (h.bare w) (h'.bare w)
  placed d hd := (List.mem_append.1 hd).elim (h.placed d) (h'.placed d)
  unclosed := by
    obtain ⟨rs, hrs, hmarks, hcauses⟩ := h.unclosed
    obtain ⟨rs', hrs', hmarks', hcauses'⟩ := h'.unclosed
    refine ⟨rs ++ rs', by rw [hrs', hrs, List.append_assoc],
      hmarks.append hmarks' h.goes.taken_le h'.goes.taken_le, ?_⟩
    rw [List.map_append, hcauses, hcauses', inBranch_of_goesOn h.goes, unclosedOfAll_append]
  fits hblamed hclean := by
    obtain ⟨ht, hfits⟩ := h.fits hblamed (hclean.first h'.goes)
    obtain ⟨hu, hfits'⟩ := h'.fits hblamed (hclean.second h.goes ht)
    exact ⟨hu, fun d hd => (List.mem_append.1 hd).elim (hfits d) (hfits' d)⟩

/-- Without a problem the second run starts like the first one. -/
theorem second (h : Laid K blamed s t ps) (htu : t.toReading.GoesOn u.toReading)
    (hblamed : blamed = false) (hclean : Clean s.toReading u.toReading) :
    Clean t.toReading u.toReading :=
  hclean.second h.goes (h.fits hblamed (hclean.first htu)).1

/-- What is said of two sketches is about their words, parts and problems only. -/
theorem transfer (h : Laid K blamed s t ps) (hgoes : u.toReading.GoesOn v.toReading)
    (hrest : u.rest = s.rest) (hparts : u.parts = s.parts) (htaken : u.taken = s.taken)
    (hreports : u.reports = s.reports) (hsilenced : u.silenced = s.silenced)
    (hbranch : u.inBranch = s.inBranch)
    (hrest' : v.rest = t.rest) (hparts' : v.parts = t.parts) (htaken' : v.taken = t.taken)
    (hreports' : v.reports = t.reports) (hsilenced' : v.silenced = t.silenced) :
    Laid K blamed u v ps where
  goes := hgoes
  parts := by rw [hparts', hparts, h.parts]
  words := by rw [hrest', hrest, h.words]
  bare := h.bare
  placed := h.placed
  unclosed := by
    rw [Reading.unclosed, Reading.unclosed, hreports, hreports', htaken, htaken', hbranch]
    exact h.unclosed
  fits hblamed hclean := by
    rw [hsilenced']
    refine h.fits hblamed ⟨?_, ?_, ?_⟩
    · rw [← hsilenced, hclean.heard]
    · rw [← hreports', hclean.reports]
    · rw [← hrest]
      exact hclean.words

end Laid

/-! ### Nodes -/

/-- From the start of a node of the given kind to its end some parts have been put into it.  The flag
tells whether an `Else` may end the statements around. -/
structure Filled (kind : NodeKind) (inBranch blamed : Bool) (s u : Sketch) (ps : List (Piece Draft)) :
    Prop where
  goes : s.toReading.GoesOn u.toReading
  words : s.rest = wordsOfAll ps ++ u.rest
  placed : (Draft.node kind ps).All Placed
  unclosed : ∃ rs, u.unclosed = s.unclosed ++ rs ∧ Marks s.taken u.taken rs ∧
    rs.map (·.cause) = (Draft.node kind ps).unclosed inBranch
  fits : blamed = false → Clean s.toReading u.toReading →
    u.silenced = false ∧ (Draft.node kind ps).All Fits

/-- A node with its parts is one part. -/
theorem Filled.laid {inBranch : Bool} (h : Filled kind inBranch blamed s t ps)
    (hbranch : branchIn K s.inBranch (.node kind ps) = inBranch)
    (hparts : t.parts = .node (.node kind ps) :: s.parts) :
    Laid K blamed s t [.node (.node kind ps)] where
  goes := h.goes
  parts := hparts
  words := by simpa [wordsOfAll, Draft.words] using h.words
  bare w hw := by simp at hw
  placed d hd := by
    obtain rfl : d = .node kind ps := by simpa using hd
    exact h.placed
  unclosed := by
    obtain ⟨rs, hrs, hmarks, hcauses⟩ := h.unclosed
    exact ⟨rs, hrs, hmarks, by rw [hcauses, unclosedOfAll, unclosedOfAll, hbranch, List.append_nil]⟩
  fits hblamed hclean := by
    obtain ⟨ht, hfits⟩ := h.fits hblamed hclean
    refine ⟨ht, fun d hd => ?_⟩
    obtain rfl : d = .node kind ps := by simpa using hd
    exact hfits

/-- A node that is no statement list. -/
theorem Filled.leave (h : Filled kind s.inBranch blamed s u ps) (hparts : u.parts = ps.reverse)
    (hlist : kind ≠ .stmtList) :
    Laid K blamed s (u.leave s.parts (.node kind)) [.node (.node kind ps)] := by
  have hleave : Filled kind s.inBranch blamed s (u.leave s.parts (.node kind)) ps :=
    ⟨h.goes, h.words, h.placed, h.unclosed, h.fits⟩
  refine hleave.laid (branchIn_of_ne (d := .node kind ps) hlist K _) ?_
  simp [Sketch.leave, hparts]

namespace Laid

theorem goes_of_fresh (h : Laid kind blamed s.fresh u ps) : s.toReading.GoesOn u.toReading :=
  ⟨h.goes.options, h.goes.frames, h.goes.depth, h.goes.origins, h.goes.rest, h.goes.taken,
    h.goes.reports⟩

theorem parts_of_fresh (h : Laid kind blamed s.fresh u ps) : u.parts = ps.reverse := by
  rw [h.parts, Sketch.fresh, List.append_nil]

/-- The parts of a node fill it, if it is no block that should end. -/
theorem filled (h : Laid kind blamed s.fresh u ps) (hown : ownUnclosed kind s.inBranch ps = [])
    (hfits : blamed = false → Clean s.toReading u.toReading → kind.Fits ps) :
    Filled kind s.inBranch blamed s u ps where
  goes := h.goes_of_fresh
  words := h.words
  placed := all_iff.2 ⟨placed_of_bare h.bare trivial, h.placed⟩
  unclosed := by
    obtain ⟨rs, hrs, hmarks, hcauses⟩ := h.unclosed
    refine ⟨rs, hrs, hmarks, ?_⟩
    rw [hcauses, Draft.unclosed, hown, List.append_nil]
    rfl
  fits hblamed hclean := by
    obtain ⟨hu, hps⟩ := h.fits hblamed ⟨hclean.heard, hclean.reports, hclean.words⟩
    exact ⟨hu, all_iff.2 ⟨hfits hblamed hclean, hps⟩⟩

/-- A node that is no block and no statement list. -/
theorem node (h : Laid kind blamed s.fresh u ps) (hends : kind.ends? = none)
    (hlist : kind ≠ .stmtList)
    (hfits : blamed = false → Clean s.toReading u.toReading → kind.Fits ps) :
    Laid K blamed s (u.leave s.parts (.node kind)) [.node (.node kind ps)] :=
  (h.filled (ownUnclosed_of_ends? hends _ _) hfits).leave h.parts_of_fresh hlist

/-- A node around the one that has been put. -/
theorem wrap {d : Draft} (hd : Laid K blamed s t [.node d]) (h : Laid kind blamed t.fresh u ps)
    (hends : kind.ends? = none) (hlist : kind ≠ .stmtList) (hkind : d.kind ≠ .stmtList)
    (hwraps : (Draft.around kind d ps).Wraps)
    (hfits : blamed = false → Clean s.toReading u.toReading → kind.Fits (.node d :: ps)) :
    Laid K blamed s (u.leave t.parts (.wrap kind)) [.node (.around kind d ps)] := by
  have htu : t.toReading.GoesOn u.toReading := ⟨h.goes.options, h.goes.frames, h.goes.depth,
    h.goes.origins, h.goes.rest, h.goes.taken, h.goes.reports⟩
  constructor
  case goes => exact hd.goes.trans htu
  case parts => simp [Sketch.leave, Sketch.putAround, hd.parts, h.parts, Sketch.fresh]
  case words =>
    have hrest : t.rest = wordsOfAll ps ++ u.rest := h.words
    rw [hd.words, hrest]
    simp only [wordsOfAll, Draft.words, List.append_nil, List.append_assoc]
    rfl
  case bare =>
    intro w hw
    simp at hw
  case placed =>
    intro e he
    obtain rfl : e = .around kind d ps := by simpa using he
    refine all_iff.2 ⟨placed_of_bare (fun w hw => ?_) hwraps, fun c hc => ?_⟩
    · exact h.bare w (by simpa [pieces] using hw)
    · rcases List.mem_cons.1 hc with hc | hc
      · exact hd.placed c (List.mem_singleton.2 hc)
      · exact h.placed c hc
  case unclosed =>
    obtain ⟨rs, hrs, hmarks, hcauses⟩ := hd.unclosed
    obtain ⟨rs', hrs', hmarks', hcauses'⟩ := h.unclosed
    have hrs' : u.unclosed = t.unclosed ++ rs' := hrs'
    have hmarks' : Marks t.taken u.taken rs' := hmarks'
    have hinner : t.fresh.inBranch = s.inBranch := inBranch_of_goesOn hd.goes
    refine ⟨rs ++ rs', ?_, hmarks.append hmarks' hd.goes.taken_le htu.taken_le, ?_⟩
    · change u.unclosed = _
      rw [hrs', hrs, List.append_assoc]
    · rw [List.map_append, hcauses, hcauses', hinner]
      have haround : branchIn K s.inBranch (.around kind d ps) = s.inBranch :=
        branchIn_of_ne (d := .around kind d ps) hlist K _
      rw [unclosedOfAll, unclosedOfAll, unclosedOfAll, unclosedOfAll, haround, Draft.unclosed,
        branchIn_of_ne hkind, branchIn_of_ne hkind, ownUnclosed_of_ends? hends]
      simp only [List.append_nil]
  case fits =>
    intro hblamed hclean
    have hclean : Clean s.toReading u.toReading := ⟨hclean.heard, hclean.reports, hclean.words⟩
    obtain ⟨ht, hdfits⟩ := hd.fits hblamed (hclean.first htu)
    have hsecond := hclean.second hd.goes ht
    obtain ⟨hu, hps⟩ := h.fits hblamed ⟨hsecond.heard, hsecond.reports, hsecond.words⟩
    refine ⟨hu, fun e he => ?_⟩
    obtain rfl : e = .around kind d ps := by simpa using he
    refine all_iff.2 ⟨hfits hblamed hclean, fun c hc => ?_⟩
    rcases List.mem_cons.1 hc with hc | hc
    · exact hdfits c (List.mem_singleton.2 hc)
    · exact hps c hc

end Laid

end Parsing

end CRBasic
