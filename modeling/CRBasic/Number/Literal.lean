import CRBasic.Number.Binary64

/-!
# Numeric literals

A numeric literal is a radix mark, digits and a suffix.  The suffix ends where no letter of it is
left; it does not change the value.  A literal with a point or an exponent is a float, any other an
integer, which has a value only if that fits into 63 bits.
-/

namespace CRBasic

/-- The radix of a literal. -/
inductive NumericBase where
  /-- After `&b`. -/
  | binary
  /-- After `&h`. -/
  | hexadecimal
  /-- Without a mark. -/
  | decimal
  deriving DecidableEq, Repr

namespace NumericBase

/-- The identifier of a radix in listings. -/
def name : NumericBase → String
  | .binary => "Binary"
  | .hexadecimal => "Hexadecimal"
  | .decimal => "Decimal"

/-- The number of digits of a radix. -/
def radix : NumericBase → Nat
  | .binary => 2
  | .hexadecimal => 16
  | .decimal => 10

/-- The letters of the suffixes of a radix, in lower case.  In hexadecimal `f` is a digit. -/
def suffixLetters : NumericBase → List Char
  | .hexadecimal => ['l', 'u']
  | _ => ['l', 'u', 'f']

end NumericBase

/-- The type that the suffix of a literal asks for. -/
inductive NumericSuffix where
  | long
  | unsigned
  /-- The suffix `UL` or `LU`. -/
  | unsignedLong
  | float
  deriving DecidableEq, Repr

namespace NumericSuffix

/-- The identifier of a suffix in listings. -/
def name : NumericSuffix → String
  | .long => "Long"
  | .unsigned => "Unsigned"
  | .unsignedLong => "UnsignedLong"
  | .float => "Float"

/-- The suffix with a given spelling, in either case. -/
def ofText? (text : List Char) : Option NumericSuffix :=
  match text.map Char.toLower with
  | ['l'] => some .long
  | ['u'] => some .unsigned
  | ['u', 'l'] | ['l', 'u'] => some .unsignedLong
  | ['f'] => some .float
  | _ => none

end NumericSuffix

/-- The value of a literal. -/
inductive NumberValue where
  | integer (n : Nat)
  /-- A float, as its binary64 bit pattern. -/
  | float (bits : Nat)
  deriving DecidableEq, Repr

/-! ### The parts of a literal -/

/-- A literal in its parts. -/
structure NumericLiteral where
  base : NumericBase
  /-- What stands between the mark of the radix and the suffix. -/
  digits : List Char
  /-- What stands after the digits. -/
  suffixText : List Char
  deriving DecidableEq, Repr

namespace NumericLiteral

/-- Splits a text before the letters at its end that are in a list, in either case. -/
def splitSuffix (letters : List Char) : List Char → List Char × List Char
  | [] => ([], [])
  | c :: cs =>
    match splitSuffix letters cs with
    | ([], suffix) => if letters.contains c.toLower then ([], c :: suffix) else ([c], suffix)
    | (digits, suffix) => (c :: digits, suffix)

/-- The literal after a mark. -/
def ofBody (base : NumericBase) (body : List Char) : NumericLiteral :=
  let (digits, suffixText) := splitSuffix base.suffixLetters body
  ⟨base, digits, suffixText⟩

/-- Splits the text of a literal into its parts. -/
def ofText : List Char → NumericLiteral
  | '&' :: 'h' :: body | '&' :: 'H' :: body => ofBody .hexadecimal body
  | '&' :: 'b' :: body | '&' :: 'B' :: body => ofBody .binary body
  | text => ofBody .decimal text

/-- The suffix, if there is one. -/
def suffix? (x : NumericLiteral) : Option NumericSuffix := NumericSuffix.ofText? x.suffixText

/-- Whether the digits are those of a decimal number with an exponent. -/
def isScientific (x : NumericLiteral) : Bool :=
  x.base == .decimal && x.digits.any fun c => c == 'e' || c == 'E'

/-- Whether the digits are those of a decimal number with a point or an exponent. -/
def isFractional (x : NumericLiteral) : Bool :=
  x.base == .decimal && x.digits.any fun c => c == '.' || c == 'e' || c == 'E'

/-! ### The value of a literal -/

/-- The value of a digit in a radix. -/
def digitValue? (radix : Nat) (c : Char) : Option Nat :=
  let value? :=
    if '0' ≤ c ∧ c ≤ '9' then some (c.toNat - '0'.toNat)
    else if 'a' ≤ c.toLower ∧ c.toLower ≤ 'z' then some (10 + (c.toLower.toNat - 'a'.toNat))
    else none
  value?.filter (· < radix)

/-- The value of digits that follow others of the given value. -/
def digitsValueFrom? (radix value : Nat) : List Char → Option Nat
  | [] => some value
  | c :: cs => (digitValue? radix c).bind fun d => digitsValueFrom? radix (radix * value + d) cs

/-- The value of one or more digits. -/
def digitsValue? (radix : Nat) : List Char → Option Nat
  | [] => none
  | cs => digitsValueFrom? radix 0 cs

/-- The largest integer that has a value. -/
def maxInteger : Nat := 0x7FFFFFFFFFFFFFFF

/-- The value of an exponent without its mark: digits with an optional sign. -/
def exponentValue? : List Char → Option Int
  | '-' :: cs => (digitsValue? 10 cs).map fun n => -(n : Int)
  | '+' :: cs => (digitsValue? 10 cs).map fun n => (n : Int)
  | cs => (digitsValue? 10 cs).map fun n => (n : Int)

/-- The bits of a decimal number with an optional fraction and exponent. -/
def floatBits? (digits : List Char) : Option Nat :=
  let isMark := fun c => c == 'e' || c == 'E'
  let mantissa := digits.takeWhile (!isMark ·)
  let whole := mantissa.takeWhile (· != '.')
  let fraction := (mantissa.dropWhile (· != '.')).drop 1
  let exponent? :=
    match digits.dropWhile (!isMark ·) with
    | [] => some 0
    | _ :: cs => exponentValue? cs
  match digitsValue? 10 (whole ++ fraction), exponent? with
  | some significand, some exponent =>
    some (Binary64.ofDecimal significand (exponent - fraction.length))
  | _, _ => none

/-- The value of a literal; none for an integer that is too large. -/
def value? (x : NumericLiteral) : Option NumberValue :=
  if x.isFractional then (floatBits? x.digits).map .float
  else ((digitsValue? x.base.radix x.digits).filter (· ≤ maxInteger)).map .integer

end NumericLiteral

end CRBasic
