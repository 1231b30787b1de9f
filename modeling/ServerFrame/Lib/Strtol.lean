/-
`strtol` of the C library, over the memory from a place on, and what it gives where digits stand.
-/
import Mathlib.Data.Int.Init
import Mathlib.Tactic.Ring

namespace CLib

/-- `isspace(c)` in the C locale. -/
def isspace (c : UInt8) : Bool := c = 32 || (9 ≤ c && c ≤ 13)

/-- The value of a digit, of any base up to 36. -/
def digitValue (c : UInt8) : Nat :=
  if 48 ≤ c ∧ c ≤ 57 then (c - 48).toNat
  else if 97 ≤ c ∧ c ≤ 122 then (c - 87).toNat
  else if 65 ≤ c ∧ c ≤ 90 then (c - 55).toNat
  else 36

/-- The number whose digits stand at `p`, of which there are at most `n`. -/
def digitsAt (base : Nat) (buffer : Nat → UInt8) : (n p acc : Nat) → Nat
  | 0, _, acc => acc
  | n + 1, p, acc =>
    if digitValue (buffer p) < base then digitsAt base buffer n (p + 1) (acc * base + digitValue (buffer p)) else acc

/-- Where the blanks before `p + n` end. -/
def skipSpaces (buffer : Nat → UInt8) : (n p : Nat) → Nat
  | 0, p => p
  | n + 1, p => if isspace (buffer p) then skipSpaces buffer n (p + 1) else p

/-- `(int) strtol(buffer + start, NULL, base)`, in a buffer with a NUL at `pe`. -/
def strtol (base : Nat) (buffer : Nat → UInt8) (start pe : Nat) : Int :=
  let p := skipSpaces buffer (pe - start) start
  let negative := buffer p = 45
  let p := if buffer p = 45 ∨ buffer p = 43 then p + 1 else p
  let p :=
    if base = 16 ∧ buffer p = 48 ∧ (buffer (p + 1) = 120 ∨ buffer (p + 1) = 88) ∧
      digitValue (buffer (p + 2)) < 16 then p + 2
    else p
  let value := digitsAt base buffer (pe - p) p 0
  let long : Int := if negative then max (-value) (-2 ^ 63) else min value (2 ^ 63 - 1)
  long.bmod (2 ^ 32)

/-! ## Digits -/

/-- The number that digits stand for. -/
def value (base : Nat) (ds : List UInt8) : Nat := ds.foldl (fun acc c => acc * base + digitValue c) 0

/-- The text stands at `p`. -/
def At (buffer : Nat → UInt8) (p : Nat) (ds : List UInt8) : Prop := ∀ i c, ds[i]? = some c → buffer (p + i) = c

variable {base : Nat} {buffer : Nat → UInt8} {p pe : Nat} {ds : List UInt8}

theorem At.head {c : UInt8} (h : At buffer p (c :: ds)) : buffer p = c := h 0 c rfl

theorem At.tail {c : UInt8} (h : At buffer p (c :: ds)) : At buffer (p + 1) ds := fun i d hd => by
  rw [Nat.add_assoc, Nat.add_comm 1]
  exact h (i + 1) d hd

theorem At.left {es : List UInt8} (h : At buffer p (ds ++ es)) : At buffer p ds := fun i c hi =>
  h i c (by rw [List.getElem?_append_left (List.getElem?_eq_some_iff.1 hi).1, hi])

theorem At.right {es : List UInt8} (h : At buffer p (ds ++ es)) : At buffer (p + ds.length) es := fun i c hi => by
  rw [Nat.add_assoc]
  exact h _ c (by rw [List.getElem?_append_right (Nat.le_add_right ..), Nat.add_sub_cancel_left, hi])

theorem foldl_lt : ∀ {ds : List UInt8} {acc : Nat}, (∀ c ∈ ds, digitValue c < base) →
    ds.foldl (fun acc c => acc * base + digitValue c) acc < (acc + 1) * base ^ ds.length
  | [], acc, _ => by simp
  | c :: ds, acc, h => by
    rw [List.forall_mem_cons] at h
    calc (c :: ds).foldl (fun acc c => acc * base + digitValue c) acc
        < (acc * base + digitValue c + 1) * base ^ ds.length := foldl_lt h.2
      _ ≤ (acc * base + base) * base ^ ds.length := Nat.mul_le_mul_right _ (by omega)
      _ = (acc + 1) * base ^ (c :: ds).length := by rw [List.length_cons, Nat.pow_succ]; ring

theorem value_lt (h : ∀ c ∈ ds, digitValue c < base) : value base ds < base ^ ds.length := by
  have hlt : ds.foldl (fun acc c => acc * base + digitValue c) 0 < (0 + 1) * base ^ ds.length := foldl_lt h
  rwa [Nat.zero_add, Nat.one_mul] at hlt

theorem digitsAt_eq : ∀ {ds : List UInt8} {n p acc : Nat}, At buffer p ds → (∀ c ∈ ds, digitValue c < base) →
    ds.length ≤ n → base ≤ digitValue (buffer (p + ds.length)) →
    digitsAt base buffer n p acc = ds.foldl (fun acc c => acc * base + digitValue c) acc
  | [], n, p, acc, _, _, _, hend => by
    cases n with
    | zero => rfl
    | succ n =>
      rw [List.length_nil, Nat.add_zero] at hend
      rw [digitsAt, if_neg (Nat.not_lt.2 hend), List.foldl_nil]
  | c :: ds, 0, p, acc, _, _, hn, _ => absurd hn (Nat.not_succ_le_zero _)
  | c :: ds, n + 1, p, acc, hat, hds, hn, hend => by
    rw [digitsAt, hat.head, if_pos (hds c (List.mem_cons_self ..)), List.foldl_cons]
    refine digitsAt_eq hat.tail (fun d hd => hds d (List.mem_cons_of_mem _ hd)) (Nat.le_of_succ_le_succ hn) ?_
    rwa [List.length_cons, Nat.add_comm ds.length, ← Nat.add_assoc] at hend

theorem digitValue_space {c : UInt8} (h : isspace c = true) : digitValue c = 36 := by
  rw [isspace, Bool.or_eq_true, Bool.and_eq_true, decide_eq_true_eq, decide_eq_true_eq, decide_eq_true_eq] at h
  rcases h with rfl | ⟨-, h⟩
  · rfl
  · have h13 : c.toNat ≤ 13 := h
    rw [digitValue, if_neg (fun hc => ?_), if_neg (fun hc => ?_), if_neg (fun hc => ?_)]
    · exact absurd (UInt8.le_iff_toNat_le.1 hc.1) (by simp; omega)
    · exact absurd (UInt8.le_iff_toNat_le.1 hc.1) (by simp; omega)
    · exact absurd (UInt8.le_iff_toNat_le.1 hc.1) (by simp; omega)

/-- Where digits stand and no letter follows them, `strtol` gives their number, cut off at the greatest `long` and
narrowed to an `int`. -/
theorem strtol_eq (hbase : base ≤ 33) (hat : At buffer p ds) (hne : ds ≠ []) (hds : ∀ c ∈ ds, digitValue c < base)
    (hpe : p + ds.length ≤ pe) (hend : digitValue (buffer (p + ds.length)) = 36) :
    strtol base buffer p pe = (min (value base ds : Int) (2 ^ 63 - 1)).bmod (2 ^ 32) := by
  obtain ⟨c, ds, rfl⟩ := List.exists_cons_of_ne_nil hne
  have hc : digitValue (buffer p) < base := by
    rw [hat.head]
    exact hds c (List.mem_cons_self ..)
  have hskip : skipSpaces buffer (pe - p) p = p := by
    cases pe - p with
    | zero => rfl
    | succ n =>
      rw [skipSpaces, if_neg fun h => ?_]
      rw [digitValue_space h] at hc
      omega
  have hminus : ¬ buffer p = 45 := fun h => by
    rw [h, show digitValue 45 = 36 from rfl] at hc
    omega
  have hplus : ¬ buffer p = 43 := fun h => by
    rw [h, show digitValue 43 = 36 from rfl] at hc
    omega
  have hx : ¬ (buffer (p + 1) = 120 ∨ buffer (p + 1) = 88) := fun h => by
    have h33 : digitValue (buffer (p + 1)) = 33 := by rcases h with h | h <;> rw [h] <;> rfl
    cases ds with
    | nil =>
      rw [List.length_singleton, h33] at hend
      cases hend
    | cons d ds =>
      rw [hat.tail.head] at h33
      have := hds d (by simp)
      omega
  have hdigits : digitsAt base buffer (pe - p) p 0 = value base (c :: ds) :=
    digitsAt_eq hat hds (by omega) (by omega)
  rw [strtol]
  simp only [hskip, hminus, hplus, hx, or_self, if_false, false_and, and_false, hdigits]

/-- A number that an `int` holds is given as it is. -/
theorem strtol_digits (hbase : base ≤ 33) (hat : At buffer p ds) (hne : ds ≠ []) (hds : ∀ c ∈ ds, digitValue c < base)
    (hpe : p + ds.length ≤ pe) (hend : digitValue (buffer (p + ds.length)) = 36) (hv : value base ds < 2 ^ 31) :
    strtol base buffer p pe = value base ds := by
  rw [strtol_eq hbase hat hne hds hpe hend, Int.min_eq_left (by omega)]
  exact Int.bmod_eq_of_le_mul_two (by omega) (by omega)

end CLib
