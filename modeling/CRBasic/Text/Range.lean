/-!
# Byte ranges

Places in a text are counted in bytes of its UTF-8 form.  A text is a list of characters, so a
byte offset may fall inside a character; `slice` then has no answer.
-/

namespace CRBasic

/-- A half-open range of byte offsets. -/
structure ByteRange where
  start : Nat
  stop : Nat
  deriving DecidableEq, Repr

namespace ByteRange

def empty (offset : Nat) : ByteRange := ⟨offset, offset⟩

/-- The number of bytes in a range. -/
def length (r : ByteRange) : Nat := r.stop - r.start

def isEmpty (r : ByteRange) : Bool := r.start == r.stop

/-- The written form of a range: `start..stop`. -/
def display (r : ByteRange) : String := toString r.start ++ ".." ++ toString r.stop

end ByteRange

/-! ### Texts in bytes -/

/-- The number of bytes of a text. -/
def byteLength : List Char → Nat
  | [] => 0
  | c :: cs => c.utf8Size + byteLength cs

@[simp] theorem byteLength_nil : byteLength [] = 0 := rfl

@[simp] theorem byteLength_cons (c : Char) (cs : List Char) :
    byteLength (c :: cs) = c.utf8Size + byteLength cs := rfl

@[simp] theorem byteLength_append (cs ds : List Char) :
    byteLength (cs ++ ds) = byteLength cs + byteLength ds := by
  induction cs with
  | nil => simp
  | cons c cs ih => simp [ih, Nat.add_assoc]

theorem length_le_byteLength (cs : List Char) : cs.length ≤ byteLength cs := by
  induction cs with
  | nil => simp
  | cons c cs ih => have := c.utf8Size_pos; simp; omega

/-- The text from a byte offset on, if the offset is a character boundary of the text. -/
def dropBytes : List Char → Nat → Option (List Char)
  | cs, 0 => some cs
  | [], _ + 1 => none
  | c :: cs, n + 1 => if c.utf8Size ≤ n + 1 then dropBytes cs (n + 1 - c.utf8Size) else none

/-- The text up to a byte offset, if the offset is a character boundary of the text. -/
def takeBytes : List Char → Nat → Option (List Char)
  | _, 0 => some []
  | [], _ + 1 => none
  | c :: cs, n + 1 =>
    if c.utf8Size ≤ n + 1 then (takeBytes cs (n + 1 - c.utf8Size)).map (c :: ·) else none

/-- The part of a text in a range, if both ends are character boundaries of the text. -/
def slice (text : List Char) (r : ByteRange) : Option (List Char) :=
  if r.start ≤ r.stop then (dropBytes text r.start).bind (takeBytes · r.length) else none

@[simp] theorem dropBytes_zero (cs : List Char) : dropBytes cs 0 = some cs := by
  cases cs <;> rfl

@[simp] theorem takeBytes_zero (cs : List Char) : takeBytes cs 0 = some [] := by
  cases cs <;> rfl

theorem dropBytes_append (pre rest : List Char) :
    dropBytes (pre ++ rest) (byteLength pre) = some rest := by
  induction pre with
  | nil => simp
  | cons c pre ih =>
    have := c.utf8Size_pos
    obtain ⟨n, hn⟩ := Nat.exists_eq_add_one.2 (show 0 < c.utf8Size + byteLength pre by omega)
    rw [List.cons_append, byteLength_cons, hn, dropBytes, if_pos (by omega), ← hn,
      Nat.add_sub_cancel_left, ih]

theorem takeBytes_append (mid rest : List Char) :
    takeBytes (mid ++ rest) (byteLength mid) = some mid := by
  induction mid with
  | nil => simp
  | cons c mid ih =>
    have := c.utf8Size_pos
    obtain ⟨n, hn⟩ := Nat.exists_eq_add_one.2 (show 0 < c.utf8Size + byteLength mid by omega)
    rw [List.cons_append, byteLength_cons, hn, takeBytes, if_pos (by omega), ← hn,
      Nat.add_sub_cancel_left, ih, Option.map_some]

/-- A piece of a text is the slice at its own range. -/
theorem slice_append (pre mid rest : List Char) :
    slice (pre ++ mid ++ rest) ⟨byteLength pre, byteLength pre + byteLength mid⟩ = some mid := by
  rw [slice, if_pos (by simp), List.append_assoc, dropBytes_append, Option.bind_some]
  simp [ByteRange.length, takeBytes_append]

end CRBasic
