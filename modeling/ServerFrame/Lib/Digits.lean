/-
Numbers as bytes: the `k` lowest digits to base 256.
-/
import Mathlib.Algebra.Ring.Nat

namespace Digits

/-- The `k` lowest digits of `n`, lowest first. -/
def bytes : (k n : Nat) → List UInt8
  | 0, _ => []
  | k + 1, n => UInt8.ofNat n :: bytes k (n / 256)

def ofBytes : List UInt8 → Nat
  | [] => 0
  | b :: l => b.toNat + 256 * ofBytes l

@[simp] theorem length_bytes (k n : Nat) : (bytes k n).length = k := by
  induction k generalizing n with
  | zero => rfl
  | succ k ih => simp [bytes, ih]

theorem ofBytes_bytes (k n : Nat) (h : n < 256 ^ k) : ofBytes (bytes k n) = n := by
  induction k generalizing n with
  | zero =>
    rw [Nat.pow_zero] at h
    simp only [bytes, ofBytes]
    omega
  | succ k ih =>
    have hq : n / 256 < 256 ^ k := by
      rw [Nat.div_lt_iff_lt_mul (by decide), ← Nat.pow_succ]
      exact h
    simp only [bytes, ofBytes, ih _ hq, UInt8.toNat_ofNat']
    omega

theorem ofBytes_lt (l : List UInt8) : ofBytes l < 256 ^ l.length := by
  induction l with
  | nil => simp [ofBytes]
  | cons b l ih =>
    have hb := b.toNat_lt
    rw [List.length_cons, Nat.pow_succ]
    simp only [ofBytes]
    omega

theorem bytes_ofBytes (l : List UInt8) : bytes l.length (ofBytes l) = l := by
  induction l with
  | nil => rfl
  | cons b l ih =>
    have hb := b.toNat_lt
    have hq : ofBytes (b :: l) / 256 = ofBytes l := by
      simp only [ofBytes]
      omega
    rw [List.length_cons, bytes, hq, ih]
    congr 1
    apply UInt8.toNat_inj.1
    rw [UInt8.toNat_ofNat', ofBytes]
    omega

theorem bytes_eq_map (k n : Nat) : bytes k n = (List.range k).map fun i => UInt8.ofNat (n / 256 ^ i) := by
  induction k generalizing n with
  | zero => rfl
  | succ k ih =>
    rw [bytes, ih, List.range_succ_eq_map, List.map_cons, List.map_map, Nat.pow_zero, Nat.div_one]
    congr 1
    apply List.map_congr_left
    intro i _
    simp only [Function.comp_apply, Nat.succ_eq_add_one, Nat.pow_succ']
    rw [Nat.div_div_eq_div_mul]

end Digits
