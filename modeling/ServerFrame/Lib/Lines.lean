/-
Text cut into lines at a line break of two symbols.
-/
import Mathlib.Data.List.Infix

namespace Lines

variable {α : Type*} [DecidableEq α] (cr lf : α)

/-- What stands between the line breaks. -/
def split : List α → List (List α)
  | [] => [[]]
  | [c] => [[c]]
  | c :: d :: rest => if c = cr ∧ d = lf then [] :: split rest else (split (d :: rest)).modifyHead (c :: ·)

/-- The lines that end in a line break. -/
def ended (text : List α) : List (List α) := (split cr lf text).dropLast

variable {cr lf} {x y : List α}

end Lines
