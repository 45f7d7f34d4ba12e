import CRBasic.Proofs.Lexer.Case
import CRBasic.Proofs.Tree.Texts
import CRBasic.Tree.Outline

/-!
# Trees of texts in lower case

Where lexemes are placed in a tree depends on their kinds only, so the tree over lexemes in lower case
is the tree in lower case (`ofEvents_lowered`): its elements have the same kinds and places
(`rows_lowered`).
-/

namespace CRBasic

namespace Tree

mutual

/-- A tree with the text of its leaves in lower case. -/
def lowered : Tree → Tree
  | leaf kind text => leaf kind (CRBasic.lowered text)
  | node kind children => node kind (loweredAll children)

/-- Trees with the text of their leaves in lower case. -/
def loweredAll : List Tree → List Tree
  | [] => []
  | t :: ts => t.lowered :: loweredAll ts

end

/-! ### Places -/

mutual

theorem width_lowered : ∀ t : Tree, t.lowered.width = t.width
  | leaf _ text => byteLength_lowered text
  | node _ children => widthOfAll_lowered children

theorem widthOfAll_lowered : ∀ ts : List Tree, widthOfAll (loweredAll ts) = widthOfAll ts
  | [] => rfl
  | t :: ts => by
    rw [loweredAll, widthOfAll, widthOfAll, width_lowered t, widthOfAll_lowered ts]

end

/-- An element without its text. -/
def bareRow (r : Row) : Nat × ElementKind × ByteRange := (r.depth, r.kind, r.range)

mutual

theorem rows_lowered (depth start : Nat) : ∀ t : Tree,
    (t.lowered.rows depth start).map bareRow = (t.rows depth start).map bareRow
  | leaf _ text => by simp [lowered, rows, bareRow, byteLength_lowered]
  | node _ children => by
    simp [lowered, rows, bareRow, widthOfAll_lowered, rowsOfAll_lowered (depth + 1) start children]

theorem rowsOfAll_lowered (depth start : Nat) : ∀ ts : List Tree,
    (rowsOfAll depth start (loweredAll ts)).map bareRow = (rowsOfAll depth start ts).map bareRow
  | [] => rfl
  | t :: ts => by
    simp [loweredAll, rowsOfAll, width_lowered, rows_lowered depth start t,
      rowsOfAll_lowered depth (start + t.width) ts]

end

/-! ### Building -/

mutual

theorem mapText_lowered : ∀ t : Tree, t.mapText CRBasic.lowered = t.lowered
  | leaf _ _ => rfl
  | node _ children => congrArg (node _) (mapTextOfAll_lowered children)

theorem mapTextOfAll_lowered : ∀ ts : List Tree, mapTextOfAll CRBasic.lowered ts = loweredAll ts
  | [] => rfl
  | t :: ts => by
    rw [mapTextOfAll, loweredAll, mapText_lowered t, mapTextOfAll_lowered ts]

end

/-- The tree over lexemes in lower case. -/
theorem ofEvents_lowered (xs : List Lexeme) (events : List Event) :
    ofEvents (xs.map Lexeme.lowered) events = (ofEvents xs events).lowered := by
  rw [← mapText_lowered, ← ofEvents_mapText]
  rfl

end Tree

end CRBasic
