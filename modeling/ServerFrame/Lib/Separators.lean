/-
Text cut at the first occurrence of a separator.
-/
import Mathlib.Logic.Basic

namespace Separators

variable {α : Type}

/-- There is one place where a separator stands first. -/
theorem first_unique {a : α} {p q r s : List α} (h : p ++ a :: q = r ++ a :: s) (hp : a ∉ p) (hr : a ∉ r) :
    p = r ∧ q = s := by
  rcases List.append_eq_append_iff.1 h with ⟨t, rfl, ht⟩ | ⟨t, rfl, ht⟩
  · cases t with
    | nil => exact ⟨(List.append_nil _).symm, (List.cons.inj ht).2⟩
    | cons b t =>
      obtain ⟨rfl, -⟩ := List.cons.inj ht
      exact absurd (List.mem_append_right _ (List.mem_cons_self ..)) hr
  · cases t with
    | nil => exact ⟨List.append_nil _, (List.cons.inj ht).2.symm⟩
    | cons b t =>
      obtain ⟨rfl, -⟩ := List.cons.inj ht
      exact absurd (List.mem_append_right _ (List.mem_cons_self ..)) hp

end Separators
