import CRBasic.Proofs.Blocks.Laid
import CRBasic.Proofs.Tree.Counting

/-!
# Where statements begin

Along the steps of a draft a builder counts the comments of every gap, so every statement, as every node that
is no part of an expression, begins with the comment whose number is that of the nodes before it in the gap
(`Draft.allOuter_root`).  Nodes that start
together take one comment together; a word follows them at once, and the count starts anew behind it.
-/

namespace CRBasic

open Lexeme

namespace Builder

variable {xs front gap front' gap' : List Lexeme} {starts : List Nat} {b c : Builder} {n m : OpenNode}
  {outer : List OpenNode} {ts us : List Tree}

/-! ### One step after the other -/

/-- A builder adds trees to the innermost node, with all outer nodes where they should begin, and comes to
a place in the text from which it goes on to count comments.  The trees start at the given offset. -/
structure Passes (xs : List Lexeme) (starts : List Nat) (start : Nat) (b : Builder) (n : OpenNode)
    (outer : List OpenNode) (ts : List Tree) (front gap : List Lexeme) (c : Builder) : Prop where
  adds : Adds b n outer ts c
  begins : Tree.AllOuterOfAll (Node.Follows xs) n.kind starts start ts
  reached : Reached xs (starts ++ (Tree.nodesOfAll start ts).map (·.start)) front gap c
  counts : Counts (starts ++ (Tree.nodesOfAll start ts).map (·.start)) front gap c

/-- A builder adds a node of the given kind to the innermost one, which starts at the given offset, with
all outer nodes of it where they should begin. -/
structure PassesNode (xs : List Lexeme) (starts : List Nat) (start : Nat) (b : Builder) (n : OpenNode)
    (outer : List OpenNode) (kind : NodeKind) (children : List Tree) (front gap : List Lexeme)
    (c : Builder) : Prop where
  adds : Adds b n outer [.node kind children] c
  begins : Tree.AllOuterOfAll (Node.Follows xs) kind (starts ++ [start]) start children
  reached : Reached xs (starts ++ ((Tree.node kind children).nodes start).map (·.start)) front gap c
  counts : Counts (starts ++ ((Tree.node kind children).nodes start).map (·.start)) front gap c

section Passes

variable {start : Nat} {kind : NodeKind} {children : List Tree}

theorem Passes.trans {d : Builder} (h : Passes xs starts start b n outer ts front gap c)
    (h' : Passes xs (starts ++ (Tree.nodesOfAll start ts).map (·.start)) (start + Tree.widthOfAll ts) c
      ⟨n.kind, ts.reverse ++ n.children⟩ outer us front' gap' d) :
    Passes xs starts start b n outer (ts ++ us) front' gap' d := by
  have hstarts : starts ++ (Tree.nodesOfAll start (ts ++ us)).map (·.start) =
      starts ++ (Tree.nodesOfAll start ts).map (·.start) ++
        (Tree.nodesOfAll (start + Tree.widthOfAll ts) us).map (·.start) := by
    simp [Tree.nodesOfAll_append]
  exact ⟨h.adds.trans h'.adds, Tree.allOuterOfAll_append.2 ⟨h.begins, h'.begins⟩,
    hstarts ▸ h'.reached, hstarts ▸ h'.counts⟩

/-- A node is one tree. -/
theorem PassesNode.passes (h : PassesNode xs starts start b n outer kind children front gap c)
    (hhead : Expr.isForm n.kind = false → Node.Follows xs starts ⟨start, kind, children⟩) :
    Passes xs starts start b n outer [.node kind children] front gap c := by
  have hnodes : Tree.nodesOfAll start [.node kind children] = (Tree.node kind children).nodes start :=
    List.append_nil _
  exact ⟨h.adds, ⟨⟨hhead, h.begins⟩, trivial⟩, hnodes ▸ h.reached, hnodes ▸ h.counts⟩

/-- A word is added with the blanks and comments before it. -/
theorem passes_addWord (hr : Reached xs starts front gap b) (h : b.nodes = n :: outer) {w : Word}
    {ws : List Lexeme} (hw : Lexeme.words b.rest = w.lexeme :: ws) :
    ∃ front', Passes xs starts start b n outer
      (Tree.ofLexemes (b.rest.takeWhile (·.kind.isTrivia)) ++ [.leaf w.kind w.text]) front' []
      (b.addWord w.kind) := by
  obtain ⟨front', hr', hc'⟩ := hr.addWord h hw
  have hleaves : Tree.ofLexemes (b.rest.takeWhile (·.kind.isTrivia)) ++ [.leaf w.kind w.text] =
      Tree.ofLexemes (b.rest.takeWhile (·.kind.isTrivia) ++ [w.lexeme]) := by
    simp [Tree.ofLexemes, Word.lexeme]
  refine ⟨front', (addWord_spec h hw).1, ?_, ?_, ?_⟩
  · rw [hleaves]
    exact Tree.allOuterOfAll_ofLexemes _
  · rw [hleaves, Tree.nodesOfAll_ofLexemes, List.map_nil, List.append_nil]
    exact hr'
  · rw [hleaves, Tree.nodesOfAll_ofLexemes, List.map_nil, List.append_nil]
    exact hc'

/-- A node ends with the trees that it has got. -/
theorem Passes.closeNode (h : Passes xs (starts ++ [start]) start b ⟨kind, []⟩ (m :: outer) ts front gap c)
    (hend : Tree.EndInPart ts) : ∃ children gap', Lexeme.words c.closeNode.rest = Lexeme.words c.rest ∧
      PassesNode xs starts start b m outer kind children front gap' c.closeNode := by
  obtain ⟨ys, hys, hlast, hrest, hstart, hadds⟩ := h.adds.closeNode hend
  obtain ⟨hr, hc⟩ := h.reached.closeNode h.counts hys hlast hrest hstart
  have hstarts : starts ++ ((Tree.node kind (ts ++ Tree.ofLexemes ys)).nodes start).map (·.start) =
      starts ++ [start] ++ (Tree.nodesOfAll start ts).map (·.start) := by
    simp [Tree.nodes, Tree.nodesOfAll_append, Tree.nodesOfAll_ofLexemes]
  exact ⟨_, gap ++ ys, words_rest hrest hys, hadds,
    Tree.allOuterOfAll_append.2 ⟨h.begins, Tree.allOuterOfAll_ofLexemes ys⟩,
    hstarts ▸ hr, hstarts ▸ hc⟩

/-- A node that starts in a gap is added with what is passed over. -/
theorem PassesNode.passes_openNodes {kinds : List NodeKind} {skipped rest : List Lexeme}
    (hsplit : splitLeading b.atStart b.rest = (skipped, rest)) (h : b.nodes = n :: outer)
    (hr : Reached xs starts front gap b) (hc : Counts starts front gap b)
    (hnode : PassesNode xs starts (byteLength (joined (front ++ (gap ++ skipped)))) (b.openNodes kinds)
      ⟨n.kind, (Tree.ofLexemes skipped).reverse ++ n.children⟩ outer kind children front' gap' c) :
    Passes xs starts (byteLength (joined (front ++ gap))) b n outer
      (Tree.ofLexemes skipped ++ [.node kind children]) front' gap' c := by
  obtain ⟨b', hb', -, -, hrest⟩ := openNodes_spec h kinds
  rw [hsplit] at hb'
  have hleaves := hnode.adds.leaves
  rw [rest_openNodes h, hsplit] at hleaves
  have hrest' : Tree.leavesOfAll children ++ c.rest = rest := by
    simpa [Tree.leavesOfAll, Tree.leaves] using hleaves
  have hadds : Adds b' _ outer [.node kind children] c :=
    ⟨hnode.adds.nodes, hnode.adds.leaves.trans hrest, hnode.adds.tidy⟩
  have hoffset : byteLength (joined (front ++ (gap ++ skipped))) =
      byteLength (joined (front ++ gap)) + Tree.widthOfAll (Tree.ofLexemes skipped) := by
    simp [Tree.widthOfAll_eq, joined_append, Nat.add_assoc]
  have hpasses := hnode.passes fun _ => hr.follows hsplit hc hrest'
  have hnodes : Tree.nodesOfAll (byteLength (joined (front ++ gap)))
      (Tree.ofLexemes skipped ++ [.node kind children]) =
        Tree.nodesOfAll (byteLength (joined (front ++ (gap ++ skipped)))) [.node kind children] := by
    rw [Tree.nodesOfAll_append, Tree.nodesOfAll_ofLexemes, List.nil_append, hoffset]
  refine ⟨hb'.trans hadds, Tree.allOuterOfAll_append.2 ⟨Tree.allOuterOfAll_ofLexemes _, ?_⟩, ?_, ?_⟩
  · rw [Tree.nodesOfAll_ofLexemes, List.map_nil, List.append_nil, ← hoffset]
    exact hpasses.begins
  · rw [hnodes]
    exact hpasses.reached
  · rw [hnodes]
    exact hpasses.counts

end Passes

end Builder

/-! ### Whole drafts -/

namespace Draft

open Builder

variable {xs : List Lexeme}

mutual

/-- The steps of a node that has started add it to the node around it.  Nodes that start together take one
comment, so comments are counted again from the first word on. -/
theorem passes_inside : ∀ (d : Draft) {b : Builder} {m : OpenNode} {outer : List OpenNode}
    {ws front gap : List Lexeme} {starts : List Nat} {start : Nat}, d.All Wraps →
      b.nodes = d.spine.reverse.map (fun kind => ⟨kind, []⟩) ++ m :: outer →
      Lexeme.words b.rest = d.words.map Word.lexeme ++ ws →
      start = byteLength (joined (front ++ gap)) →
      Reached xs (starts ++ d.spine.map fun _ => start) front gap b →
      (d.StartsWithWord ∨ Counts (starts ++ d.spine.map fun _ => start) front gap b) →
      ∃ children front' gap', Lexeme.words (d.inside.foldl Builder.step b).rest = ws ∧
        PassesNode xs starts start b m outer d.kind children front' gap'
          (d.inside.foldl Builder.step b)
  | node kind parts, b, m, outer, ws, front, gap, starts, start, hd, h, hw, hstart, hr, hc => by
    obtain ⟨ts, front', gap', hend, hwords, hts⟩ :=
      passes_stepsOfAll parts (all_iff.1 hd).2 h hw hstart hr hc
    obtain ⟨children, gap'', hwords', hnode⟩ := hts.closeNode hend
    rw [inside, List.foldl_append]
    exact ⟨children, front', gap'', hwords'.trans hwords, hnode⟩
  | around kind first parts, b, m, outer, ws, front, gap, starts, start, hd, h, hw, hstart, hr, hc => by
    obtain ⟨⟨hform, hfirst⟩, hparts⟩ := all_iff.1 hd
    rw [spine, List.reverse_cons, List.map_append, List.append_assoc] at h
    rw [words, List.map_append, List.append_assoc] at hw
    rw [spine, List.map_cons, ← List.singleton_append, ← List.append_assoc] at hr
    obtain ⟨children₁, front₁, gap₁, hwords₁, h₁⟩ :=
      passes_inside first (hparts first List.mem_cons_self) h hw hstart hr (.inl hfirst)
    have hnode := h₁.passes fun houter => absurd hform (Bool.eq_false_iff.1 houter)
    obtain ⟨ts, front', gap', hend, hwords, hts⟩ := passes_stepsOfAll parts
      (fun e he => hparts e (List.mem_cons_of_mem _ he)) hnode.adds.nodes hwords₁
      (hstart ▸ (hr.offset hnode.reached hnode.adds.leaves).symm) hnode.reached (.inr hnode.counts)
    obtain ⟨children, gap'', hwords', hlast⟩ := (hnode.trans hts).closeNode (hend.append nofun)
    rw [inside, List.foldl_append, List.foldl_append]
    exact ⟨children, front', gap'', hwords'.trans hwords, hlast⟩

/-- The steps of some parts add their trees to the innermost node. -/
theorem passes_stepsOfAll : ∀ (parts : List (Piece Draft)) {b : Builder} {n : OpenNode}
    {outer : List OpenNode} {ws front gap : List Lexeme} {starts : List Nat} {start : Nat},
      (∀ e, .node e ∈ parts → e.All Wraps) → b.nodes = n :: outer →
      Lexeme.words b.rest = (wordsOfAll parts).map Word.lexeme ++ ws →
      start = byteLength (joined (front ++ gap)) →
      Reached xs starts front gap b →
      ((∃ w ps, parts = .word w :: ps) ∨ Counts starts front gap b) →
      ∃ ts front' gap', Tree.EndInPart ts ∧
        Lexeme.words ((stepsOfAll parts).foldl Builder.step b).rest = ws ∧
        Passes xs starts start b n outer ts front' gap' ((stepsOfAll parts).foldl Builder.step b)
  | [], b, n, outer, ws, front, gap, starts, start, hparts, h, hw, hstart, hr, hc => by
    have hcounts : Counts starts front gap b := hc.resolve_left nofun
    refine ⟨[], front, gap, nofun, hw, ⟨?_, ?_, trivial⟩, trivial, ?_, ?_⟩
    · simpa [stepsOfAll] using h
    · simp [stepsOfAll, Tree.leavesOfAll]
    · simpa [stepsOfAll, Tree.nodesOfAll] using hr
    · simpa [stepsOfAll, Tree.nodesOfAll] using hcounts
  | .word w :: ps, b, n, outer, ws, front, gap, starts, start, hparts, h, hw, hstart, hr, hc => by
    obtain ⟨front₁, h₁⟩ : ∃ front₁, Passes xs starts start b n outer _ front₁ [] (b.addWord w.kind) :=
      passes_addWord hr h hw
    obtain ⟨-, hwords, -⟩ := addWord_spec h hw
    have hword := withoutTrivia_word (isTrivia_takeWhile b.rest) (isTrivia_of_words_eq_cons hw)
    obtain ⟨us, front', gap', hend, hwords', hus⟩ := passes_stepsOfAll ps
      (fun e he => hparts e (List.mem_cons_of_mem _ he)) h₁.adds.nodes hwords
      (hstart ▸ (hr.offset h₁.reached h₁.adds.leaves).symm) h₁.reached (.inr h₁.counts)
    exact ⟨_, front', gap', hend.append fun _ => hword.2, hwords', h₁.trans hus⟩
  | .node d :: ps, b, n, outer, ws, front, gap, starts, start, hparts, h, hw, hstart, hr, hc => by
    have hcounts : Counts starts front gap b := hc.resolve_left nofun
    have hd := hparts d List.mem_cons_self
    rcases hsplit : splitLeading b.atStart b.rest with ⟨skipped, rest⟩
    obtain ⟨b', hts, hwords, hnodes, hrest⟩ := openNodes_spec h d.spine
    rw [hts.nodes, hsplit] at hnodes
    rw [wordsOfAll, List.map_append, List.append_assoc, ← hwords, ← hrest] at hw
    have hfirst : d.StartsWithWord ∨ Counts (starts ++ d.spine.map fun _ =>
        byteLength (joined (front ++ (gap ++ skipped)))) front (gap ++ skipped) (b.openNodes d.spine) := by
      cases d with
      | node kind parts => exact .inr (hcounts.openNode hsplit h hr kind)
      | around kind first parts => exact .inl (all_iff.1 hd).1.2
    obtain ⟨children, front₁, gap₁, hwords₁, hnode⟩ := passes_inside d hd hnodes hw rfl
      (hr.openNodes hsplit h d.spine) hfirst
    have h₁ := hnode.passes_openNodes hsplit h hr hcounts
    rw [← hstart] at h₁
    obtain ⟨us, front', gap', hend, hwords', hus⟩ := passes_stepsOfAll ps
      (fun e he => hparts e (List.mem_cons_of_mem _ he)) h₁.adds.nodes hwords₁
      (hstart ▸ (hr.offset h₁.reached h₁.adds.leaves).symm) h₁.reached (.inr h₁.counts)
    rw [stepsOfAll, List.foldl_cons, List.foldl_append]
    have hnode : Tree.EndInPart [.node d.kind children] := nofun
    exact ⟨_, front', gap', hend.append fun _ => hnode.append nofun, hwords', h₁.trans hus⟩

end

/-- All outer nodes of a text begin where they should. -/
theorem allOuter_root {parts : List (Piece Draft)} (htext : ∀ x ∈ xs, x.text ≠ [])
    (hparts : ∀ d, .node d ∈ parts → d.All Wraps)
    (hwords : Lexeme.words xs = (wordsOfAll parts).map Word.lexeme) :
    ∃ ts, Tree.ofEvents xs ((node .sourceFile parts).events false) = .node .sourceFile ts ∧
      Tree.AllOuterOfAll (Node.Follows xs) .sourceFile [0] 0 ts := by
  have hopen : (Builder.openNodes { rest := xs } [.sourceFile]).nodes = [⟨.sourceFile, []⟩] := rfl
  have hrest : Lexeme.words (Builder.openNodes { rest := xs } [.sourceFile]).rest =
      (wordsOfAll parts).map Word.lexeme ++ [] := by
    rw [List.append_nil]
    exact hwords
  have hreached : Reached xs [0] [] [] (Builder.openNodes { rest := xs } [.sourceFile]) :=
    ⟨htext, rfl, nofun, nofun, rfl, by simp⟩
  have hcounts : Counts [0] [] [] (Builder.openNodes { rest := xs } [.sourceFile]) :=
    fun _ _ _ _ _ _ => rfl
  obtain ⟨ts, front, gap, -, -, hts⟩ :=
    passes_stepsOfAll parts hparts hopen hrest rfl hreached (.inr hcounts)
  refine ⟨_, ofEvents_of_nodes rfl hts.adds.nodes, Tree.allOuterOfAll_append.2 ⟨?_, ?_⟩⟩
  · simpa using hts.begins
  · exact Tree.allOuterOfAll_ofLexemes _

end Draft

end CRBasic
