/-
Lists cut into blocks of one length, and stores into a range of a list: a store that crosses block
boundaries is a store into each block, and positions of the whole are a block number and an offset.
-/
import Mathlib.Algebra.Order.Floor.Div
import Mathlib.Data.List.Basic
import Mathlib.Tactic.Ring

namespace Blocks

universe u

variable {α : Type u}

/-! ## Stores -/

/-- The list with `xs` stored from index `i` on. -/
def store (l : List α) (i : Nat) (xs : List α) : List α := l.take i ++ xs ++ l.drop (i + xs.length)

theorem length_store {l xs : List α} {i : Nat} (h : i + xs.length ≤ l.length) : (store l i xs).length = l.length := by
  simp [store]; omega

theorem store_append_left {a b xs : List α} {i : Nat} (h : i + xs.length ≤ a.length) :
    store (a ++ b) i xs = store a i xs ++ b := by
  unfold store
  rw [List.take_append_of_le_length (by omega), List.drop_append_of_le_length h]
  simp

theorem store_append_right {a b xs : List α} {i : Nat} : store (a ++ b) (a.length + i) xs = a ++ store b i xs := by
  have hd : a.drop (a.length + (i + xs.length)) = [] := List.drop_eq_nil_of_le (by omega)
  have ht : a.take (a.length + i) = a := List.take_of_length_le (by omega)
  simp [store, List.take_append, List.drop_append, Nat.add_assoc, hd, ht]

/-- A store that runs over the end of `a` into `b`. -/
theorem store_append {a b xs : List α} {i : Nat} (hi : i ≤ a.length) (h : a.length ≤ i + xs.length) :
    store (a ++ b) i xs = store a i (xs.take (a.length - i)) ++ store b 0 (xs.drop (a.length - i)) := by
  have hlen : (xs.take (a.length - i)).length = a.length - i := by simp; omega
  have hend : i + (a.length - i) = a.length := by omega
  unfold store
  rw [hlen, hend, List.take_append_of_le_length hi, List.drop_append, List.drop_eq_nil_of_le h, List.drop_length,
    List.length_drop]
  simp only [List.take_zero, List.nil_append, List.append_nil, Nat.zero_add, List.append_assoc]
  rw [← List.append_assoc (xs.take _), List.take_append_drop]
  congr 3
  omega

/-! ## Blocks of one length -/

/-- All blocks have length `b`. -/
def Uniform (b : Nat) (L : List (List α)) : Prop := ∀ x ∈ L, x.length = b

section

variable {b : Nat} {L M : List (List α)}

theorem Uniform.head {x : List α} (h : Uniform b (x :: L)) : x.length = b := h x (List.mem_cons_self ..)

theorem Uniform.tail {x : List α} (h : Uniform b (x :: L)) : Uniform b L := fun y hy => h y (List.mem_cons_of_mem _ hy)

theorem Uniform.cons {x : List α} (hx : x.length = b) (h : Uniform b L) : Uniform b (x :: L) := by
  intro y hy
  rcases List.mem_cons.1 hy with rfl | hy
  · exact hx
  · exact h y hy

theorem Uniform.append (h : Uniform b L) (h' : Uniform b M) : Uniform b (L ++ M) := by
  intro y hy
  rcases List.mem_append.1 hy with hy | hy
  · exact h y hy
  · exact h' y hy

theorem Uniform.take (h : Uniform b L) (n : Nat) : Uniform b (L.take n) := fun y hy => h y (List.mem_of_mem_take hy)

theorem Uniform.drop (h : Uniform b L) (n : Nat) : Uniform b (L.drop n) := fun y hy => h y (List.mem_of_mem_drop hy)

theorem Uniform.length_flatten : ∀ {L : List (List α)}, Uniform b L → L.flatten.length = L.length * b
  | [], _ => by simp
  | x :: L, h => by
    rw [List.flatten_cons, List.length_append, h.head, h.tail.length_flatten, List.length_cons]
    ring

theorem Uniform.drop_flatten (h : Uniform b L) {c : Nat} (hc : c ≤ L.length) :
    L.flatten.drop (c * b) = (L.drop c).flatten := by
  have hlen : (L.take c).flatten.length = c * b := by
    rw [(h.take c).length_flatten, List.length_take, Nat.min_eq_left hc]
  conv_lhs => rw [← List.take_append_drop c L, List.flatten_append]
  exact List.drop_left' hlen

/-- The blocks before block `c` and a store into the blocks from it on are one store into the whole. -/
theorem Uniform.store_flatten (h : Uniform b L) {c i : Nat} {xs : List α} (hc : c ≤ L.length) :
    (L.take c).flatten ++ store (L.drop c).flatten i xs = store L.flatten (c * b + i) xs := by
  have hlen : (L.take c).flatten.length = c * b := by
    rw [(h.take c).length_flatten, List.length_take, Nat.min_eq_left hc]
  conv_rhs => rw [← List.take_append_drop c L, List.flatten_append, ← hlen]
  exact store_append_right.symm

end

/-! ## Rounding up to a block boundary -/

theorem ceilDiv_mul_add {b : Nat} (hb : 0 < b) (k n : Nat) : (k * b + n) ⌈/⌉ b = k + n ⌈/⌉ b := by
  rw [Nat.ceilDiv_eq_add_pred_div, Nat.ceilDiv_eq_add_pred_div,
    show k * b + n + b - 1 = (n + b - 1) + b * k by rw [Nat.mul_comm]; omega, Nat.add_mul_div_left _ _ hb]
  omega

theorem ceilDiv_of_le {b n : Nat} (hn : 0 < n) (h : n ≤ b) : n ⌈/⌉ b = 1 := by
  rw [Nat.ceilDiv_eq_add_pred_div]
  exact Nat.div_eq_of_lt_le (by omega) (by omega)

theorem le_ceilDiv_mul {b : Nat} (hb : 0 < b) (n : Nat) : n ≤ (n ⌈/⌉ b) * b := by
  rw [Nat.mul_comm]
  exact (ceilDiv_le_iff_le_mul hb).1 le_rfl

/-- Rounding up changes nothing exactly on a block boundary. -/
theorem ceilDiv_mul_eq_iff {b : Nat} (hb : 0 < b) (n : Nat) : (n ⌈/⌉ b) * b = n ↔ n % b = 0 := by
  constructor
  · intro h
    rw [← h]
    exact Nat.mul_mod_left _ _
  · intro h
    obtain ⟨k, rfl⟩ := Nat.dvd_of_mod_eq_zero h
    have := ceilDiv_mul_add hb k 0
    rw [Nat.add_zero, zero_ceilDiv] at this
    rw [Nat.mul_comm b k, this, Nat.add_zero]

end Blocks
