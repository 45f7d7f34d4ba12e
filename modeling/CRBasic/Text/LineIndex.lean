import CRBasic.Text.Range

/-!
# Lines and columns

A `LineIndex` turns the byte offsets of one text into lines and columns.  It keeps where each line
starts and where the characters of more than one byte lie: columns count characters, so the column
of an offset is its distance from the start of its line less the extra bytes in between.
-/

namespace CRBasic

/-- A line and a column, both from zero; columns count characters. -/
structure LineCol where
  /-- The number of line breaks before the position. -/
  line : Nat
  /-- The number of characters between the start of the line and the position. -/
  col : Nat
  deriving DecidableEq, Repr

/-- The written form of a position counts both from one. -/
def LineCol.display (p : LineCol) : String := toString (p.line + 1) ++ ":" ++ toString (p.col + 1)

/-- A character of more than one byte. -/
structure WideChar where
  start : Nat
  width : Nat
  deriving DecidableEq, Repr

/-- What is needed to find the line and column of a byte offset. -/
structure LineIndex where
  size : Nat
  /-- The offsets at which a line starts, in order; the first is zero. -/
  lineStarts : List Nat
  /-- The characters of more than one byte, in order. -/
  wideChars : List WideChar
  deriving DecidableEq, Repr

namespace LineIndex

/-- The offsets just past the line breaks of a text that starts at `offset`: a carriage return with
the line feed after it, and each of the two alone. -/
def breakEnds (offset : Nat) : List Char → List Nat
  | [] => []
  | '\r' :: '\n' :: cs => (offset + 2) :: breakEnds (offset + 2) cs
  | c :: cs =>
    if c = '\r' ∨ c = '\n' then (offset + 1) :: breakEnds (offset + 1) cs
    else breakEnds (offset + c.utf8Size) cs

/-- The wide characters of a text that starts at `offset`. -/
def wideCharsFrom (offset : Nat) : List Char → List WideChar
  | [] => []
  | c :: cs =>
    if c.toNat < 128 then wideCharsFrom (offset + c.utf8Size) cs
    else ⟨offset, c.utf8Size⟩ :: wideCharsFrom (offset + c.utf8Size) cs

def ofText (text : List Char) : LineIndex :=
  ⟨byteLength text, 0 :: breakEnds 0 text, wideCharsFrom 0 text⟩

/-- The number of lines; an empty text has one. -/
def lineCount (index : LineIndex) : Nat := index.lineStarts.length

/-- The bytes by which the characters that start in `[lo, hi)` exceed one byte each. -/
def extraBytes (index : LineIndex) (lo hi : Nat) : Nat :=
  let between := index.wideChars.filter fun c => lo ≤ c.start && c.start < hi
  between.foldr (fun c n => c.width - 1 + n) 0

/-- The position of a byte offset.  An offset past the end is taken for the end. -/
def lineCol (index : LineIndex) (offset : Nat) : LineCol :=
  let offset := min offset index.size
  let before := index.lineStarts.takeWhile (· ≤ offset)
  let lineStart := before.getLastD 0
  ⟨before.length - 1, offset - lineStart - index.extraBytes lineStart offset⟩

end LineIndex

/-- A byte range with the positions of its two ends. -/
structure Span where
  range : ByteRange
  /-- The position of its first byte. -/
  start : LineCol
  /-- The position just past its last byte. -/
  stop : LineCol
  deriving DecidableEq, Repr

namespace Span

/-- Looks up both ends of a range. -/
def ofRange (index : LineIndex) (range : ByteRange) : Span :=
  ⟨range, index.lineCol range.start, index.lineCol range.stop⟩

/-- A span is written as the position at which it starts. -/
def display (s : Span) : String := s.start.display

end Span

end CRBasic
