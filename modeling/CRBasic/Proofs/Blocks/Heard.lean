import CRBasic.Proofs.Embedding.Statements

/-!
# Statements are heard

A text is in itself a text in a larger one that has nothing more.  So what is known of a text in a larger
one holds of every text: problems are passed over only up to the end of a line, and not after a statement
(`heard_rules`).
-/

namespace CRBasic

namespace Parsing

/-- The setting of a text with nothing around it. -/
def Setting.alone : Setting where
  startsLine := by simp
  closes := by simp

end Parsing

namespace Grammar

open Parsing Parsing.Script

/-- What holds of the sketches of a text of `total` words. -/
abbrev Heard (total : Nat) (st : Stage) (m : Mode) (s : Sketch) : Prop :=
  Holds .alone total st m s

/-- Nothing of a text is lost where nothing is around it. -/
theorem losing_alone : LosingBlocks .alone fun _ => False where
  kept _ := id
  leave := id
  report h := absurd rfl h
  unclosed h := absurd rfl h
  bare := nofun

variable {fuel total : Nat} {α : Type} {st : Stage} {m m' : Mode} {x : Script α} {s t : Sketch} {a : α}

/-- Every form of statement leads from what holds before it to what holds after it. -/
theorem heard_rules : StatementRules fun st m x m' =>
    Alike .alone total (fun _ => False) fuel st m x m' :=
  alike_statementRules losing_alone (alike_statement losing_alone)

theorem Heard.of_run (hx : Alike .alone total (fun _ => False) fuel st m x m')
    (hrun : x.run (runRule script fuel) fuel s = some (a, t)) (hs : Heard total st m s) :
    Heard total st m' t := by
  rcases (hx [] s a t (fun _ => rfl) hrun).2 hs with (h | ⟨-, -, -, hpost⟩) | ⟨-, ht⟩
  · exact h.elim
  · exact absurd rfl hpost
  · exact ht

end Grammar

end CRBasic
