/-
Numbers as bytes with seven bits each, the lowest first: every byte but the last is 128 or more. An encoding is one
such string for a number; two of the same length are the same.
-/
import Mathlib.Algebra.BigOperators.Group.List.Basic
import Mathlib.Algebra.BigOperators.Ring.List
import Mathlib.Tactic.Ring

namespace Septets

/-- The sum of the groups of seven bits, the first one the lowest. -/
def groups (l : List UInt8) : Nat := (l.mapIdx fun i b => b.toNat % 128 * 2 ^ (7 * i)).sum

/-- The last byte, and no other, is below 128. -/
def Ends (l : List UInt8) : Prop := ∃ init last, l = init ++ [last] ∧ (∀ b ∈ init, ¬ b < 0x80) ∧ last < 0x80

/-- The bytes are an encoding of the number. -/
structure Encodes (l : List UInt8) (v : Nat) : Prop where
  ends : Ends l
  groups : groups l = v

/-- No encoding of the number has fewer bytes. -/
structure Shortest (l : List UInt8) (v : Nat) : Prop extends Encodes l v where
  least : ∀ l', Encodes l' v → l.length ≤ l'.length

/-- The shortest front part that ends in a byte below 128, but of no more than `n` bytes. -/
def front (n : Nat) (l : List UInt8) : List UInt8 := l.take (min (l.findIdx (· < 0x80) + 1) n)

variable {b : UInt8} {l l' : List UInt8} {n v : Nat}

/-! ## The sum -/

theorem groups_nil : groups [] = 0 := rfl

theorem groups_cons : groups (b :: l) = b.toNat % 128 + 128 * groups l := by
  have hshift : (l.mapIdx fun i b => b.toNat % 128 * 2 ^ (7 * (i + 1))) =
      (l.mapIdx fun i b => b.toNat % 128 * 2 ^ (7 * i)).map (128 * ·) := by
    refine List.ext_getElem (by simp) fun i hi _ => ?_
    rw [List.getElem_map, List.getElem_mapIdx, List.getElem_mapIdx, Nat.mul_add, Nat.pow_add]
    ring
  rw [groups, List.mapIdx_cons, List.sum_cons, hshift, List.sum_map_mul_left, List.map_id', Nat.mul_zero, Nat.pow_zero,
    Nat.mul_one, groups]

theorem groups_lt (l : List UInt8) : groups l < 2 ^ (7 * l.length) := by
  induction l with
  | nil => decide
  | cons b l ih =>
    rw [groups_cons, List.length_cons, Nat.mul_add, Nat.pow_add]
    omega

/-! ## Encodings -/

theorem ends_cons : Ends (b :: l) ↔ b < 0x80 ∧ l = [] ∨ ¬ b < 0x80 ∧ Ends l := by
  constructor
  · rintro ⟨init, last, hl, hinit, hlast⟩
    cases init with
    | nil =>
      obtain ⟨rfl, rfl⟩ := List.cons.inj hl
      exact .inl ⟨hlast, rfl⟩
    | cons c init =>
      obtain ⟨rfl, rfl⟩ := List.cons.inj hl
      rw [List.forall_mem_cons] at hinit
      exact .inr ⟨hinit.1, init, last, rfl, hinit.2, hlast⟩
  · rintro (⟨hb, rfl⟩ | ⟨hb, init, last, rfl, hinit, hlast⟩)
    · exact ⟨[], b, rfl, List.forall_mem_nil _, hb⟩
    · exact ⟨b :: init, last, rfl, List.forall_mem_cons.2 ⟨hb, hinit⟩, hlast⟩

theorem not_ends_nil : ¬ Ends [] := by
  rintro ⟨init, last, hl, -⟩
  exact List.append_ne_nil_of_right_ne_nil init (List.cons_ne_nil last []) hl.symm

theorem toNat_lt_iff : b < 0x80 ↔ b.toNat < 128 := UInt8.lt_iff_toNat_lt

/-- Encodings of one length are told apart by their sums. -/
theorem Ends.eq_of_groups (h : Ends l) (h' : Ends l') (hlen : l.length = l'.length) (hsum : groups l = groups l') :
    l = l' := by
  induction l generalizing l' with
  | nil => exact absurd h not_ends_nil
  | cons b l ih =>
    cases l' with
    | nil => cases hlen
    | cons c l' =>
      have hlen' : l.length = l'.length := Nat.succ.inj hlen
      have hb := b.toNat_lt
      have hc := c.toNat_lt
      rw [groups_cons, groups_cons] at hsum
      have hlow : b.toNat % 128 = c.toNat % 128 := by omega
      have hrest : groups l = groups l' := by omega
      rw [ends_cons, toNat_lt_iff] at h h'
      rcases h with ⟨hlt, rfl⟩ | ⟨hge, hends⟩
      · rcases h' with ⟨hlt', rfl⟩ | ⟨-, hends'⟩
        · rw [UInt8.toNat_inj.1 (show b.toNat = c.toNat by omega)]
        · rw [List.eq_nil_of_length_eq_zero hlen'.symm] at hends'
          exact absurd hends' not_ends_nil
      · rcases h' with ⟨-, rfl⟩ | ⟨hge', hends'⟩
        · rw [List.eq_nil_of_length_eq_zero hlen'] at hends
          exact absurd hends not_ends_nil
        · rw [UInt8.toNat_inj.1 (show b.toNat = c.toNat by omega), ih hends hends' hlen' hrest]

/-- There is one shortest encoding at most. -/
theorem Shortest.unique (h : Shortest l v) (h' : Shortest l' v) : l = l' :=
  h.ends.eq_of_groups h'.ends (Nat.le_antisymm (h.least l' h'.toEncodes) (h'.least l h.toEncodes))
    (h.groups.trans h'.groups.symm)

/-! ## The front part -/

theorem front_zero : front 0 l = [] := by rw [front, Nat.min_zero, List.take_zero]

theorem front_cons : front (n + 1) (b :: l) = b :: if b < 0x80 then [] else front n l := by
  rw [front, List.findIdx_cons, Nat.add_min_add_right, List.take_succ_cons]
  by_cases hb : b < 0x80
  · rw [if_pos hb, decide_eq_true hb, cond_true, Nat.zero_min, List.take_zero]
  · rw [if_neg hb, decide_eq_false hb, cond_false, front]

/-- What follows the front part. -/
theorem front_append_drop : front n l ++ l.drop (front n l).length = l := by
  rw [front, List.length_take, List.take_eq_take_min, Nat.min_comm, List.take_append_drop]

end Septets
