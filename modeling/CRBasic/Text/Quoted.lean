import CRBasic.Text.Printable

/-!
# Quoted texts

A text in an outline stands between double quotes.  Quotes and backslashes have a backslash before
them, some controls a letter after it, and other characters that are not printable are written with
their code point.
-/

namespace CRBasic

namespace Quoted

/-- The character after the backslash, where there is a short form. -/
def shortEscape? : Char → Option Char
  | '\x00' => some '0'
  | '\t' => some 't'
  | '\r' => some 'r'
  | '\n' => some 'n'
  | '\x22' => some '\x22'
  | '\\' => some '\\'
  | _ => none

/-- The code point of a character in hexadecimal digits. -/
def hexDigits (c : Char) : List Char := Nat.toDigits 16 c.toNat

/-- One character inside the quotes. -/
def encodeChar (c : Char) : List Char :=
  match shortEscape? c with
  | some d => ['\\', d]
  | none =>
    if isPrintable c then [c]
    else ['\\', 'u', '\x7b'] ++ hexDigits c ++ ['\x7d']

/-- A text with its quotes. -/
def encode (text : List Char) : List Char := '\x22' :: (text.flatMap encodeChar ++ ['\x22'])

end Quoted

end CRBasic
