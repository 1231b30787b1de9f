/-
Objects that are called again and again: the results of a sequence of calls, and the rule by which two
objects give the same results.
-/
import Mathlib.Logic.Basic

namespace Calls

/-- Two computations that fail alike or end in related results. -/
inductive Alike {ε α β : Type} (R : α → β → Prop) : Except ε α → Except ε β → Prop
  | ok {x : α} {y : β} (h : R x y) : Alike R (.ok x) (.ok y)
  | error {e : ε} : Alike R (.error e) (.error e)

namespace Alike

variable {ε α β α' β' : Type} {R : α → β → Prop} {S : α' → β' → Prop}

theorem mono {S : α → β → Prop} {x : Except ε α} {y : Except ε β} (h : Alike R x y) (hRS : ∀ a b, R a b → S a b) :
    Alike S x y := by
  cases h with
  | ok h => exact .ok (hRS _ _ h)
  | error => exact .error

theorem refl {R : α → α → Prop} (hR : ∀ a, R a a) (x : Except ε α) : Alike R x x := by
  cases x with
  | ok a => exact .ok (hR a)
  | error e => exact .error

theorem bind {x : Except ε α} {y : Except ε β} {f : α → Except ε α'} {g : β → Except ε β'} (h : Alike R x y)
    (hfg : ∀ a b, R a b → Alike S (f a) (g b)) : Alike S (x >>= f) (y >>= g) := by
  cases h with
  | ok h => exact hfg _ _ h
  | error => exact .error

theorem ite {c c' : Prop} [Decidable c] [Decidable c'] {x x' : Except ε α} {y y' : Except ε β} (hc : c ↔ c')
    (h : c → Alike R x y) (h' : ¬ c → Alike R x' y') : Alike R (if c then x else x') (if c' then y else y') := by
  by_cases hx : c
  · rw [if_pos hx, if_pos (hc.1 hx)]
    exact h hx
  · rw [if_neg hx, if_neg fun hy => hx (hc.2 hy)]
    exact h' hx

end Alike

section Results

variable {σ ι ε ο : Type} (call : ι → σ → Except ε (σ × ο))

/-- The results of the calls, up to the first that does not return. -/
def results : σ → List ι → List (Except ε ο)
  | _, [] => []
  | s, i :: is =>
    match call i s with
    | .error e => [.error e]
    | .ok (s, o) => .ok o :: results s is

variable {call}

/-- Objects give the same results when they are in a relation that every call keeps and that calls of equal
results alone keep. -/
theorem results_eq {R : σ → σ → Prop}
    (h : ∀ i s t, R s t → Alike (fun x y => R x.1 y.1 ∧ x.2 = y.2) (call i s) (call i t)) :
    ∀ {is : List ι} {s t : σ}, R s t → results call s is = results call t is
  | [], _, _, _ => rfl
  | i :: is, s, t, hst => by
    have hi := h i s t hst
    rw [results, results]
    generalize call i s = x at hi
    generalize call i t = y at hi
    cases hi with
    | error => rfl
    | ok hxy => simp only [hxy.2, results_eq h hxy.1]

end Results

end Calls
