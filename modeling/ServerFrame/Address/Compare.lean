/-
`Address::operator<`, `==` and `!=`, and `UnixAddress` (`address.cc`): addresses are compared by their bytes, as far as
both go and then by their lengths. A path of a `UnixAddress` is followed by a NUL, unless it begins with one.
-/
import ServerFrame.Http.Request
import Mathlib.Order.Basic

namespace ServerFrame.Addresses

open Http (bytes)

/-! ## Comparing addresses -/

/-- `memcmp` of two places of the same size. -/
def memcmp : List UInt8 → List UInt8 → Int
  | a :: as, b :: bs => if a = b then memcmp as bs else if a < b then -1 else 1
  | [], _ | _, [] => 0

/-- `Address::operator<`, on what `getAddr()` and `getAddrLen()` give. -/
def less (a b : List UInt8) : Bool :=
  let minlen := min a.length b.length
  let res := memcmp (a.take minlen) (b.take minlen)
  if res < 0 then true
  else if res > 0 then false
  else decide (a.length < b.length)

/-- `Address::operator==`. -/
def equal (a b : List UInt8) : Bool := a.length == b.length && memcmp a b == 0

/-- `Address::operator!=`. -/
def differ (a b : List UInt8) : Bool := !equal a b

theorem less_cons (a b : UInt8) (as bs : List UInt8) :
    less (a :: as) (b :: bs) = if a = b then less as bs else decide (a < b) := by
  simp only [less, List.length_cons, Nat.add_min_add_right, List.take_succ_cons, memcmp]
  by_cases hab : a = b
  · simp [hab]
  · by_cases hlt : a < b
    · simp [hab, hlt]
    · simp [hab, hlt]

/-- The order of addresses is the one of their bytes. -/
theorem less_iff : ∀ {a b : List UInt8}, less a b = true ↔ a < b
  | [], [] => by decide
  | [], b :: bs => by simp [less, memcmp]
  | a :: as, [] => by simp [less, memcmp]
  | a :: as, b :: bs => by
    rw [less_cons, List.cons_lt_cons_iff]
    by_cases hab : a = b
    · subst hab
      rw [if_pos rfl, less_iff]
      simp
    · rw [if_neg hab]
      simp [hab]

theorem equal_iff : ∀ {a b : List UInt8}, equal a b = true ↔ a = b
  | [], [] => by decide
  | [], b :: bs => by simp [equal]
  | a :: as, [] => by simp [equal]
  | a :: as, b :: bs => by
    have ih := equal_iff (a := as) (b := bs)
    simp only [equal, Bool.and_eq_true, beq_iff_eq] at ih ⊢
    rw [List.length_cons, List.length_cons, memcmp, List.cons.injEq, ← ih]
    by_cases hab : a = b
    · simp [hab]
    · by_cases hlt : a < b <;> simp [hab, hlt]

/-! ## Unix addresses -/

/-- `sizeof(sun_path)` and `offsetof(sockaddr_un, sun_path)`. -/
def sunPathSize : Nat := 108

def sunPathOffset : Nat := 2

/-- `UnixAddress`: the path of `m_addr`, and `m_length`. -/
structure UnixAddress where
  sunPath : List UInt8
  length : Nat
  size : sunPath.length = sunPathSize
  fits : length ≤ sunPathOffset + sunPathSize

/-- `std::logic_error("path too long")`. -/
inductive PathTooLong
  | pathTooLong
deriving DecidableEq

namespace UnixAddress

/-- `m_length` in the constructor, which is 32 bits wide. -/
def pathLength (path : List UInt8) : UInt32 :=
  let length := UInt32.ofNat (path.length + 1)
  if path.head? = some 0 then length - 1 else length

/-- `UnixAddress(path)`. -/
def create (path : List UInt8) : Except PathTooLong UnixAddress :=
  if h : (pathLength path).toNat > sunPathSize then .error .pathTooLong
  else .ok {
    sunPath := ((path ++ [0]).take (pathLength path).toNat ++ List.replicate sunPathSize 0).take sunPathSize
    length := (pathLength path).toNat + sunPathOffset
    size := by
      rw [List.length_take, List.length_append, List.length_replicate]
      omega
    fits := by omega }

/-- `getAddr()`, as far as `getAddrLen()` goes; `AF_UNIX` as the host stores it comes first. -/
def memory (family : List UInt8) (a : UnixAddress) : List UInt8 := (family ++ a.sunPath).take a.length

/-- `UnixAddress::insert`: what it puts out. -/
def insert (a : UnixAddress) : List UInt8 :=
  if a.length > sunPathOffset ∧ a.sunPath.head? = some 0 then
    bytes "\\0" ++ (a.sunPath.drop 1).take (a.length - sunPathOffset - 1)
  else a.sunPath.takeWhile (· ≠ 0)

/-- What the constructor copies of a path: with its NUL, or without it where the path begins with one. -/
def copied (path : List UInt8) : List UInt8 := if path.head? = some 0 then path else path ++ [0]

variable {path q : List UInt8} {a b : UnixAddress}

theorem pathLength_eq (h : path.length + 1 < 2 ^ 32) : (pathLength path).toNat = (copied path).length := by
  have hlength : (UInt32.ofNat (path.length + 1)).toNat = path.length + 1 := by
    rw [UInt32.toNat_ofNat']
    exact Nat.mod_eq_of_lt h
  unfold pathLength copied
  split
  · have hle : (1 : UInt32) ≤ UInt32.ofNat (path.length + 1) := by
      rw [UInt32.le_iff_toNat_le, hlength]
      exact Nat.succ_le_succ (Nat.zero_le _)
    rw [UInt32.toNat_sub_of_le _ _ hle, hlength]
    rfl
  · rw [hlength, List.length_append]
    rfl

theorem take_copied : (path ++ [0]).take (copied path).length = copied path := by
  unfold copied
  split
  · exact List.take_left
  · exact List.take_length

theorem create_iff (h : path.length + 1 < 2 ^ 32) :
    (∃ a, create path = .ok a) ↔ (copied path).length ≤ sunPathSize := by
  rw [← pathLength_eq h]
  unfold create
  split
  · rename_i hlong
    exact iff_of_false (fun ⟨a, ha⟩ => by cases ha) (Nat.not_le.2 hlong)
  · rename_i hshort
    exact iff_of_true ⟨_, rfl⟩ (Nat.le_of_not_lt hshort)

/-- What is copied is followed by the zeros of `memset`. -/
theorem create_spec (h : path.length + 1 < 2 ^ 32) (ha : create path = .ok a) :
    a.length = (copied path).length + sunPathOffset ∧ ∃ zeros, a.sunPath = copied path ++ zeros := by
  have hlength := pathLength_eq h
  unfold create at ha
  split at ha
  · cases ha
  · rename_i hshort
    cases ha
    refine ⟨congrArg (· + sunPathOffset) hlength, ?_⟩
    rw [hlength] at hshort
    change ∃ zeros, ((path ++ [0]).take (pathLength path).toNat ++ List.replicate sunPathSize 0).take sunPathSize = _
    rw [hlength, take_copied, List.take_append, List.take_of_length_le (Nat.le_of_not_lt hshort)]
    exact ⟨_, rfl⟩

/-- The bytes of an address are those that were copied. -/
theorem memory_eq {family : List UInt8} (hfamily : family.length = sunPathOffset) (h : path.length + 1 < 2 ^ 32)
    (ha : create path = .ok a) : a.memory family = family ++ copied path := by
  obtain ⟨hlength, zeros, hpath⟩ := create_spec h ha
  rw [memory, hlength, hpath, ← List.append_assoc]
  exact List.take_left' (by rw [List.length_append, hfamily, Nat.add_comm])

/-- Two paths are copied alike only where they are the same, or empty and a NUL. -/
theorem copied_inj : copied path = copied q ↔
    path = q ∨ (path = [] ∨ path = [0]) ∧ (q = [] ∨ q = [0]) := by
  have hhead : ∀ {l m : List UInt8}, l.head? = some 0 → m.head? ≠ some 0 → l = m ++ [0] → m = [] ∧ l = [0] := by
    rintro l m hl hm rfl
    cases m with
    | nil => exact ⟨rfl, rfl⟩
    | cons c m => exact absurd hl hm
  unfold copied
  by_cases hp : path.head? = some 0
  · by_cases hq : q.head? = some 0
    · rw [if_pos hp, if_pos hq]
      refine ⟨.inl, ?_⟩
      rintro (h | ⟨rfl | rfl, rfl | rfl⟩)
      · exact h
      · rfl
      · cases hp
      · cases hq
      · rfl
    · rw [if_pos hp, if_neg hq]
      constructor
      · intro h
        obtain ⟨hq', hp'⟩ := hhead hp hq h
        exact .inr ⟨.inr hp', .inl hq'⟩
      · rintro (rfl | ⟨rfl | rfl, rfl | rfl⟩)
        · exact absurd hp hq
        · cases hp
        · cases hp
        · rfl
        · exact absurd rfl hq
  · by_cases hq : q.head? = some 0
    · rw [if_neg hp, if_pos hq]
      constructor
      · intro h
        obtain ⟨hp', hq'⟩ := hhead hq hp h.symm
        exact .inr ⟨.inl hp', .inr hq'⟩
      · rintro (rfl | ⟨rfl | rfl, rfl | rfl⟩)
        · exact absurd hq hp
        · cases hq
        · rfl
        · exact absurd rfl hp
        · exact absurd rfl hp
    · rw [if_neg hp, if_neg hq, List.append_left_inj]
      refine ⟨.inl, ?_⟩
      rintro (h | ⟨rfl | rfl, rfl | rfl⟩)
      · exact h
      · rfl
      · exact absurd rfl hq
      · exact absurd rfl hp
      · rfl

theorem takeWhile_nul (l zeros : List UInt8) : (l ++ 0 :: zeros).takeWhile (· ≠ 0) = l.takeWhile (· ≠ 0) := by
  induction l with
  | nil => rfl
  | cons c l ih =>
    by_cases hc : c = 0
    · simp [hc]
    · rw [List.cons_append, List.takeWhile_cons_of_pos (by simpa using hc), ih,
        List.takeWhile_cons_of_pos (by simpa using hc)]

/-- A path is put out up to its first NUL; an empty one, or one that begins with a NUL, after the two characters that
stand for it. -/
theorem insert_eq (h : path.length + 1 < 2 ^ 32) (ha : create path = .ok a) :
    a.insert = if path = [] ∨ path.head? = some 0 then bytes "\\0" ++ path.drop 1 else path.takeWhile (· ≠ 0) := by
  obtain ⟨hlength, zeros, hpath⟩ := create_spec h ha
  unfold insert
  rw [hlength, hpath]
  unfold copied
  by_cases hnul : path.head? = some 0
  · cases path with
    | nil => cases hnul
    | cons c path =>
      rw [if_pos hnul, if_pos ⟨by simp, hnul⟩, if_pos (.inr hnul), List.cons_append, List.drop_one, List.tail_cons,
        List.drop_one, List.tail_cons]
      congr 1
      exact List.take_left' (by rw [List.length_cons]; omega)
  · cases path with
    | nil => rfl
    | cons c path =>
      have hne : ¬ (c :: path = [] ∨ (c :: path).head? = some 0) := fun hor => hor.elim (fun h => by cases h) hnul
      rw [if_neg hnul, if_neg hne, if_neg fun hand => hnul hand.2, List.append_assoc]
      exact takeWhile_nul _ _

end UnixAddress

/-! ## Main results -/

/-- The order of addresses is a strict one, in which two that are not equal stand one before the other. -/
theorem addresses_are_ordered (a b c : List UInt8) :
    less a a = false ∧ (less a b = true → less b c = true → less a c = true) ∧
      (differ a b = true ↔ less a b = true ∨ less b a = true) ∧ ¬ (less a b = true ∧ less b a = true) := by
  have hirrefl : ∀ a : List UInt8, ¬ a < a := fun a => Std.Irrefl.irrefl (r := fun a b : List UInt8 => a < b) a
  have htrans : ∀ {a b c : List UInt8}, a < b → b < c → a < c := fun {a b c} => IsTrans.trans a b c
  rw [Bool.eq_false_iff, ne_eq, less_iff, less_iff, less_iff, less_iff, less_iff, differ, Bool.not_eq_true',
    Bool.eq_false_iff, ne_eq, equal_iff]
  refine ⟨hirrefl a, htrans, ⟨fun hne => ?_, ?_⟩, fun h => hirrefl a (htrans h.1 h.2)⟩
  · by_contra hnot
    rw [not_or] at hnot
    exact hne (Std.Trichotomous.trichotomous (r := fun a b : List UInt8 => a < b) a b hnot.1 hnot.2)
  · rintro (h | h) rfl
    · exact hirrefl a h
    · exact hirrefl a h

/-- A path makes an address when it fits with its NUL, or without it where it begins with one. Two of them are equal
where the paths are, but for the empty path and the single NUL. -/
theorem unix_addresses {p q : List UInt8} (hp : p.length + 1 < 2 ^ 32) (hq : q.length + 1 < 2 ^ 32)
    {family : List UInt8} (hfamily : family.length = sunPathOffset) :
    ((∃ a, UnixAddress.create p = .ok a) ↔ p.length + (if p.head? = some 0 then 0 else 1) ≤ sunPathSize) ∧
      ∀ a b, UnixAddress.create p = .ok a → UnixAddress.create q = .ok b →
        a.insert = (if p = [] ∨ p.head? = some 0 then bytes "\\0" ++ p.drop 1 else p.takeWhile (· ≠ 0)) ∧
        (equal (a.memory family) (b.memory family) = true ↔
          p = q ∨ (p = [] ∨ p = [0]) ∧ (q = [] ∨ q = [0])) := by
  refine ⟨?_, fun a b ha hb => ⟨UnixAddress.insert_eq hp ha, ?_⟩⟩
  · rw [UnixAddress.create_iff hp, UnixAddress.copied]
    split <;> simp
  · rw [equal_iff, UnixAddress.memory_eq hfamily hp ha, UnixAddress.memory_eq hfamily hq hb, List.append_cancel_left_eq]
    exact UnixAddress.copied_inj

/-- The empty path and a single NUL, on a host that stores the low byte first. -/
theorem unix_addresses_empty : (∃ a, UnixAddress.create [] = .ok a) ∧
    ∀ a b, UnixAddress.create [] = .ok a → UnixAddress.create [0] = .ok b →
      a.insert = bytes "\\0" ∧ equal (a.memory [1, 0]) (b.memory [1, 0]) = true := by
  have h := unix_addresses (p := []) (q := [0]) (by decide) (by decide) (show [1, 0].length = sunPathOffset from rfl)
  refine ⟨h.1.2 (by decide), fun a b ha hb => ?_⟩
  obtain ⟨hinsert, hequal⟩ := h.2 a b ha hb
  exact ⟨hinsert, hequal.2 (.inr ⟨.inl rfl, .inr rfl⟩)⟩

end ServerFrame.Addresses
