import CRBasic.Text.Quoted
import CRBasic.Tree.Basic

/-!
# Outlines

The elements of a tree from the root down, each with its depth and its place.  The outline of a tree
is the written form of its rows, without blanks, line breaks and comments.
-/

namespace CRBasic

/-- An element of a tree with its depth and place. -/
structure Row where
  depth : Nat
  kind : ElementKind
  range : ByteRange
  text? : Option (List Char)
  deriving DecidableEq, Repr

namespace Row

/-- The written form: one line, indented by two spaces for each step of depth. -/
def display (r : Row) : String :=
  let quoted := match r.text? with
    | some text => " " ++ String.ofList (Quoted.encode text)
    | none => ""
  String.ofList (List.replicate (2 * r.depth) ' ') ++ r.kind.name ++ "@" ++ r.range.display ++
    quoted ++ "\n"

end Row

namespace Tree

mutual

/-- The rows of a tree that starts at an offset, its root at the given depth. -/
def rows (depth start : Nat) : Tree → List Row
  | leaf k text => [⟨depth, .token k, ⟨start, start + byteLength text⟩, some text⟩]
  | node k children =>
    ⟨depth, .node k, ⟨start, start + widthOfAll children⟩, none⟩ ::
      rowsOfAll (depth + 1) start children

/-- The rows of trees that stand one after the other from an offset on. -/
def rowsOfAll (depth start : Nat) : List Tree → List Row
  | [] => []
  | t :: ts => t.rows depth start ++ rowsOfAll depth (start + t.width) ts

end

/-- The outline of a tree: one line for each node and each word. -/
def outline (t : Tree) : String :=
  String.join (((t.rows 0 0).filter fun r => !r.kind.isTrivia).map Row.display)

end Tree

end CRBasic
