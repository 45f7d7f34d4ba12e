import CRBasic.Tree.Builder

/-!
# Trees and the texts of their leaves

Where lexemes are placed in a tree depends on their kinds only: the tree over lexemes with other texts
has the same nodes and leaves, with these texts (`ofEvents_mapText`).
-/

namespace CRBasic

variable (f : List Char → List Char)

/-- A lexeme with another text. -/
def Lexeme.mapText (x : Lexeme) : Lexeme := ⟨x.kind, f x.text⟩

namespace Tree

mutual

/-- A tree with other texts on its leaves. -/
def mapText : Tree → Tree
  | leaf kind text => leaf kind (f text)
  | node kind children => node kind (mapTextOfAll children)

/-- Trees with other texts on their leaves. -/
def mapTextOfAll : List Tree → List Tree
  | [] => []
  | t :: ts => t.mapText :: mapTextOfAll ts

end

theorem mapTextOfAll_eq_map (ts : List Tree) : mapTextOfAll f ts = ts.map (mapText f) := by
  induction ts with
  | nil => rfl
  | cons t ts ih => rw [mapTextOfAll, ih, List.map_cons]

end Tree

/-! ### Building -/

/-- An open node with other texts on its leaves. -/
def OpenNode.mapText (n : OpenNode) : OpenNode := ⟨n.kind, n.children.map (Tree.mapText f)⟩

namespace Builder

/-- A tree under construction over lexemes with other texts. -/
def mapText (b : Builder) : Builder where
  rest := b.rest.map (Lexeme.mapText f)
  atStart := b.atStart
  nodes := b.nodes.map (OpenNode.mapText f)
  root? := b.root?.map (Tree.mapText f)

theorem add_mapText (b : Builder) (t : Tree) : (b.add t).mapText f = (b.mapText f).add (t.mapText f) := by
  unfold add
  cases hnodes : b.nodes <;> simp [mapText, OpenNode.mapText, hnodes]

theorem addLexemes_mapText (b : Builder) (xs rest : List Lexeme) :
    (b.addLexemes xs rest).mapText f =
      (b.mapText f).addLexemes (xs.map (Lexeme.mapText f)) (rest.map (Lexeme.mapText f)) := by
  have hadd : ∀ b : Builder, (xs.foldl (fun b x => b.add (.leaf x.kind x.text)) b).mapText f =
      (xs.map (Lexeme.mapText f)).foldl (fun b x => b.add (.leaf x.kind x.text)) (b.mapText f) := by
    induction xs with
    | nil => exact fun _ => rfl
    | cons x xs ih =>
      intro b
      rw [List.foldl_cons, ih, add_mapText]
      rfl
  unfold addLexemes
  rw [← hadd]
  simp [mapText]

theorem splitLeading_mapText (lineStart : Bool) (xs : List Lexeme) :
    splitLeading lineStart (xs.map (Lexeme.mapText f)) =
      ((splitLeading lineStart xs).1.map (Lexeme.mapText f),
        (splitLeading lineStart xs).2.map (Lexeme.mapText f)) := by
  induction xs generalizing lineStart with
  | nil => rfl
  | cons x xs ih =>
    have hkind : (x.mapText f).kind = x.kind := rfl
    simp only [List.map_cons, splitLeading, hkind, ih]
    split <;> rfl

theorem addTrivia_mapText (b : Builder) : b.addTrivia.mapText f = (b.mapText f).addTrivia := by
  have htrivia : (fun x : Lexeme => x.kind.isTrivia) ∘ Lexeme.mapText f =
      fun x => x.kind.isTrivia := rfl
  have hrest : (b.mapText f).rest = b.rest.map (Lexeme.mapText f) := rfl
  rw [addTrivia, addLexemes_mapText, addTrivia, hrest, List.takeWhile_map, List.dropWhile_map,
    htrivia]

theorem openNodes_mapText (b : Builder) (kinds : List NodeKind) :
    (b.openNodes kinds).mapText f = (b.mapText f).openNodes kinds := by
  have hopen : ∀ b : Builder,
      (kinds.foldl (fun b kind => { b with nodes := ⟨kind, []⟩ :: b.nodes }) b).mapText f =
        kinds.foldl (fun b kind => { b with nodes := ⟨kind, []⟩ :: b.nodes }) (b.mapText f) := by
    induction kinds with
    | nil => exact fun _ => rfl
    | cons kind kinds ih => exact fun b => ih _
  have hempty : (b.mapText f).nodes.isEmpty = b.nodes.isEmpty := List.isEmpty_map
  unfold openNodes
  rw [hopen, hempty]
  congr 1
  split
  · rfl
  · have hsplit := splitLeading_mapText f b.atStart b.rest
    rw [addLexemes_mapText]
    exact (congrArg (fun p => (b.mapText f).addLexemes p.1 p.2) hsplit).symm

theorem addWord_mapText (b : Builder) (kind : TokenKind) :
    (b.addWord kind).mapText f = (b.mapText f).addWord kind := by
  unfold addWord
  rw [← addTrivia_mapText]
  generalize b.addTrivia = b
  have hrest : (b.mapText f).rest = b.rest.map (Lexeme.mapText f) := rfl
  dsimp only
  rw [hrest]
  cases b.rest with
  | nil => rfl
  | cons x rest =>
    have hadd := add_mapText f b (.leaf kind x.text)
    rw [List.map_cons]
    dsimp only [Lexeme.mapText]
    change _ = { (b.mapText f).add ((Tree.leaf kind x.text).mapText f) with
      rest := rest.map (Lexeme.mapText f), atStart := false }
    rw [← hadd]
    rfl

/-- Ending a node inside others. -/
theorem endInner_mapText (b : Builder) :
    (match b.nodes with
      | n :: outer => { b with nodes := outer }.add (.node n.kind n.children.reverse)
      | [] => b).mapText f =
    match (b.mapText f).nodes with
      | n :: outer => { (b.mapText f) with nodes := outer }.add (.node n.kind n.children.reverse)
      | [] => b.mapText f := by
  have hnodes : (b.mapText f).nodes = b.nodes.map (OpenNode.mapText f) := rfl
  rw [hnodes]
  cases b.nodes with
  | nil => rfl
  | cons n outer =>
    rw [List.map_cons]
    dsimp only
    rw [add_mapText]
    simp [OpenNode.mapText, mapText, Tree.mapText, Tree.mapTextOfAll_eq_map]

theorem closeNode_mapText (b : Builder) : b.closeNode.mapText f = (b.mapText f).closeNode := by
  have hnodes : (b.mapText f).nodes = b.nodes.map (OpenNode.mapText f) := rfl
  have hrest : (b.mapText f).rest = b.rest.map (Lexeme.mapText f) := rfl
  unfold closeNode
  rw [hnodes]
  match b.nodes with
  | [] => rfl
  | [_] =>
    have hall := addLexemes_mapText f b b.rest []
    rw [List.map_nil, ← hrest] at hall
    simp only [List.map_cons, List.map_nil, ← hall]
    cases h : (b.addLexemes b.rest []).nodes <;>
      simp [mapText, h, OpenNode.mapText, Tree.mapText, Tree.mapTextOfAll_eq_map]
  | n :: m :: outer =>
    have htrivia : (b.mapText f).rest.all (·.kind.isTrivia) = b.rest.all (·.kind.isTrivia) := by
      rw [hrest, List.all_map]
      rfl
    simp only [List.map_cons, htrivia, ← addTrivia_mapText, OpenNode.mapText]
    cases n.kind == .stmtList && b.rest.all (·.kind.isTrivia) with
    | true => exact endInner_mapText f b.addTrivia
    | false => exact endInner_mapText f b

theorem step_mapText (b : Builder) (step : BuildStep) :
    (b.step step).mapText f = (b.mapText f).step step := by
  cases step with
  | openNodes kinds => exact b.openNodes_mapText f kinds
  | token kind => exact b.addWord_mapText f kind
  | closeNode => exact b.closeNode_mapText f

theorem foldl_mapText (b : Builder) (steps : List BuildStep) :
    (steps.foldl step b).mapText f = steps.foldl step (b.mapText f) := by
  induction steps generalizing b with
  | nil => rfl
  | cons s steps ih => rw [List.foldl_cons, ih, step_mapText, List.foldl_cons]

end Builder

/-- The tree over lexemes with other texts. -/
theorem Tree.ofEvents_mapText (xs : List Lexeme) (events : List Event) :
    ofEvents (xs.map (Lexeme.mapText f)) events = (ofEvents xs events).mapText f := by
  let built := (BuildStep.ofEvents [] events).foldl Builder.step { rest := xs }
  have hbuilt := Builder.foldl_mapText f { rest := xs } (BuildStep.ofEvents [] events)
  have hroot : (built.root?.map (mapText f)).getD (.node .sourceFile []) =
      ofEvents (xs.map (Lexeme.mapText f)) events :=
    congrArg (fun b : Builder => b.root?.getD (.node .sourceFile [])) hbuilt
  rw [← hroot, ofEvents]
  change _ = (built.root?.getD _).mapText f
  cases built.root? <;> rfl

end CRBasic
