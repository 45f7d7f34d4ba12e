import CRBasic.Lexer.Rules
import CRBasic.Text.Range

/-!
# Lexemes and tokens

A lexeme is a piece of the text with its kind; it does not know where it lies.  A token is a kind
with the byte range of its lexeme.
-/

namespace CRBasic

/-- A piece of a text and its kind. -/
structure Lexeme where
  kind : TokenKind
  text : List Char
  deriving DecidableEq, Repr

/-- A kind and the place of a lexeme. -/
structure Token where
  kind : TokenKind
  range : ByteRange
  deriving DecidableEq, Repr

namespace Token

/-- The number of bytes of a token. -/
def length (t : Token) : Nat := t.range.length

/-- Whether a token holds no byte. -/
def isEmpty (t : Token) : Bool := t.range.isEmpty

/-- The characters of a token in its text: none if the range does not lie in the text, or if one of
its ends falls inside a character. -/
def text (source : List Char) (t : Token) : List Char := (slice source t.range).getD []

end Token

namespace Lexeme

/-- The token of a lexeme that starts at an offset. -/
def token (x : Lexeme) (offset : Nat) : Token := ⟨x.kind, offset, offset + byteLength x.text⟩

/-- The tokens of lexemes that stand one after the other from an offset on. -/
def tokens (offset : Nat) : List Lexeme → List Token
  | [] => []
  | x :: xs => x.token offset :: tokens (offset + byteLength x.text) xs

/-- The text that lexemes make up. -/
def joined (xs : List Lexeme) : List Char := xs.flatMap (·.text)

/-- A piece of a text lies in it at the range of its token. -/
theorem text_token (pre rest : List Char) (x : Lexeme) :
    (x.token (byteLength pre)).text (pre ++ x.text ++ rest) = x.text := by
  rw [Token.text, token, slice_append, Option.getD_some]

end Lexeme

end CRBasic
