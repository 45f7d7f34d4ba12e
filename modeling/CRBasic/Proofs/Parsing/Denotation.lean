import CRBasic.Proofs.Parsing.Text
import CRBasic.Proofs.Tree.Replay
import CRBasic.Proofs.Tree.WellFormed

/-!
# The tree that events stand for

The events of a text are well formed, and the tree built from them is, without blanks and comments,
the one that a replay of the events makes up (`tree_eq_replay`).
-/

namespace CRBasic

/-- The events of a text are well formed: no place that was kept is left unused; every pointer leads
forward to a start that no other pointer leads to; as many nodes end as start.  While the tree is
built, nodes are open from the first step to the last one and none after it.  The tree has one node
for each start, its root is that of a file, and without blanks and comments it is the one tree that a
replay of the events makes up. -/
theorem tree_eq_replay (options : ParseOptions) (source : List Char) :
    let words := Word.ofLexemes true (lexemes source)
    let es := Parsing.events options words
    let steps := BuildStep.ofEvents [] es
    let tree := (parseWith options source).tree
    .hole ∉ es ∧
    (∀ (i : Nat) (kind : NodeKind) (distance : Nat), es[i]? = some (.start kind (some distance)) →
      0 < distance ∧
      (∃ kind' parent?, es[i + distance]? = some (.start kind' parent?)) ∧
      ∀ (i' : Nat) (kind' : NodeKind) (distance' : Nat),
        es[i']? = some (.start kind' (some distance')) → i' + distance' = i + distance → i' = i) ∧
    es.countP Event.isFinish = es.countP Event.isStart ∧
    (∀ pre post, steps = pre ++ post → pre ≠ [] → post ≠ [] →
      (pre.foldl Builder.step { rest := lexemes source }).nodes ≠ []) ∧
    (steps.foldl Builder.step { rest := lexemes source }).nodes = [] ∧
    (tree.nodes 0).length = es.countP Event.isStart ∧
    tree.kind = .node .sourceFile ∧
    Replay.trees words es = some [tree.withoutTrivia] := by
  intro words es steps tree
  obtain ⟨parts, ts, hevents, hwords, htree, -, hts⟩ := exists_draft_parseWith options source
  have hes : es = (Draft.node .sourceFile parts).events false := hevents
  have htree : tree = .node .sourceFile ts := htree
  have hdraft : tree.withoutTrivia = (Draft.node .sourceFile parts).tree := by
    rw [htree, Tree.withoutTrivia, hts, Draft.tree]
  have hlinked : Event.WellLinked es := by
    rw [hes]
    exact Draft.wellLinked_events_false _
  obtain ⟨hopen, hclosed⟩ := (Draft.node .sourceFile parts).nodes_foldl (lexemes source)
  rw [← hes] at hopen hclosed
  refine ⟨?_, ?_, ?_, hopen, hclosed, ?_, ?_, ?_⟩
  · rw [hes]
    exact Draft.hole_not_mem_events false _
  · intro i kind distance hi
    have htarget : Event.target? es i = some (i + distance) := by
      rw [Event.target?, hi]
    obtain ⟨hlt, hstart⟩ := hlinked.forward htarget
    refine ⟨by omega, ?_, fun i' kind' distance' hi' hsum => ?_⟩
    · obtain ⟨e, he, hkind⟩ := (Option.any_eq_true _ _).1 hstart
      cases e with
      | start kind' parent? => exact ⟨kind', parent?, he⟩
      | _ => cases hkind
    · refine hlinked.unique ?_ htarget
      rw [Event.target?, hi', ← hsum]
  · rw [hes]
    exact Draft.countP_isFinish false _
  · rw [← Tree.length_nodes_withoutTrivia 0 0, hdraft, Draft.length_nodes_tree 0 false, hes]
  · rw [htree, Tree.kind]
  · rw [hdraft, hes]
    have h := (Draft.node .sourceFile parts).trees_events
    rwa [Draft.words, hwords] at h

end CRBasic
