/-
Numbers written in a base of up to sixteen, as an output stream writes them, and read back.
-/
import ServerFrame.Lib.Strtol

namespace CLib

/-- The digits of `n`, in lower case and without zeros in front. -/
def numeral (base n : Nat) : List UInt8 := (Nat.toDigits base n).map fun c => UInt8.ofNat c.toNat

variable {base n : Nat}

theorem digitValue_digitChar {d : Nat} (h : d < 16) : digitValue (UInt8.ofNat (Nat.digitChar d).toNat) = d := by
  revert d
  decide

theorem numeral_of_lt (h : n < base) : numeral base n = [UInt8.ofNat (Nat.digitChar n).toNat] := by
  rw [numeral, Nat.toDigits_of_lt_base h]
  rfl

theorem numeral_of_le (hb : 1 < base) (h : base ≤ n) :
    numeral base n = numeral base (n / base) ++ [UInt8.ofNat (Nat.digitChar (n % base)).toNat] := by
  rw [numeral, Nat.toDigits_of_base_le hb h, List.map_append]
  rfl

theorem numeral_ne_nil : numeral base n ≠ [] := by
  rw [numeral, Ne, List.map_eq_nil_iff]
  exact Nat.toDigits_ne_nil

theorem length_numeral_le {k : Nat} (hb : 1 < base) (hk : 0 < k) (h : n < base ^ k) : (numeral base n).length ≤ k := by
  rw [numeral, List.length_map]
  exact (Nat.length_toDigits_le_iff hb hk).2 h

theorem value_append_digit (ds : List UInt8) (c : UInt8) :
    value base (ds ++ [c]) = value base ds * base + digitValue c := by
  rw [value, List.foldl_append]
  rfl

theorem value_numeral (hb : 1 < base) (hle : base ≤ 16) (n : Nat) : value base (numeral base n) = n := by
  induction n using Nat.strongRecOn with
  | ind n ih =>
    by_cases h : n < base
    · rw [numeral_of_lt h]
      simp [value, digitValue_digitChar (show n < 16 by omega)]
    · have hmod : n % base < base := Nat.mod_lt n (by omega)
      rw [numeral_of_le hb (by omega), value_append_digit, ih _ (Nat.div_lt_self (by omega) hb),
        digitValue_digitChar (by omega), Nat.div_add_mod']

theorem digitValue_of_mem_numeral (hb : 1 < base) (hle : base ≤ 16) {c : UInt8} (hc : c ∈ numeral base n) :
    digitValue c < base := by
  induction n using Nat.strongRecOn with
  | ind n ih =>
    by_cases h : n < base
    · rw [numeral_of_lt h, List.mem_singleton] at hc
      rw [hc, digitValue_digitChar (by omega)]
      exact h
    · have hmod : n % base < base := Nat.mod_lt n (by omega)
      rw [numeral_of_le hb (by omega), List.mem_append, List.mem_singleton] at hc
      rcases hc with hc | rfl
      · exact ih _ (Nat.div_lt_self (by omega) hb) hc
      · rw [digitValue_digitChar (by omega)]
        exact hmod

end CLib
