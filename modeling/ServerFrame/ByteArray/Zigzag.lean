/-
`EncodeZigzag32` and `EncodeZigzag64` (`bytearray.cc`) with the signed operations they make. The negation, and the
doubling of a value that is not negative, come before the conversion to the unsigned type: they have no result for the
smallest value and for the upper half of the values that are not negative. Where they have one, the mapping is right.
-/
import ServerFrame.ByteArray.RoundTrip
import Mathlib.Algebra.Ring.Int.Defs
import Mathlib.Logic.Equiv.Defs

namespace ServerFrame.Codec

/-- What an operation does whose exact result is no value of its signed type. -/
inductive Undefined
  | overflow
  deriving DecidableEq, Repr

/-- An operation on signed values of `w` bits, by its exact result. -/
def signed (w : Nat) (exact : Int) : Except Undefined (BitVec w) :=
  if -2 ^ (w - 1) ≤ exact ∧ exact < 2 ^ (w - 1) then .ok (.ofInt w exact) else .error .overflow

/-- What `EncodeZigzag32` and `EncodeZigzag64` share: only the first branch casts, and it negates before. -/
def signedZigzag {w : Nat} (v : BitVec w) : Except Undefined (BitVec w) :=
  if v.toInt < 0 then (signed w (-v.toInt)).map fun negated => negated * 2 - 1
  else signed w (v.toInt * 2)

/-- `EncodeZigzag32(v)`. -/
def signedZigzag32 (v : Int32) : Except Undefined UInt32 := (signedZigzag v.toBitVec).map .ofBitVec

/-- `EncodeZigzag64(v)`. -/
def signedZigzag64 (v : Int64) : Except Undefined UInt64 := (signedZigzag v.toBitVec).map .ofBitVec

/-- The number that zigzag gives an integer. -/
def zigzag (v : Int) : Int := if v < 0 then -2 * v - 1 else 2 * v

/-- The encoder does with `v` what zigzag is for: it has a result, which is the number of `v`, which is what the
decoder takes for `v` and the only such number, and which is not below that of a value of the same sign and no greater
magnitude. -/
def Zigzags {α β : Type} (toInt : α → Int) (toNat : β → Nat) (encode : α → Except Undefined β) (decode : β → α)
    (v : α) : Prop :=
  ∃ u, encode v = .ok u ∧ (toNat u : Int) = zigzag (toInt v) ∧ (∀ u', decode u' = v ↔ u' = u) ∧
    ∀ v', (toInt v' < 0 ↔ toInt v < 0) → (toInt v').natAbs ≤ (toInt v).natAbs →
      ∃ u', encode v' = .ok u' ∧ toNat u' ≤ toNat u

/-! ## Any width -/

section Width

variable {w : Nat} {v : BitVec w}

theorem signed_ok {exact : Int} (hlo : -2 ^ (w - 1) ≤ exact) (hhi : exact < 2 ^ (w - 1)) :
    signed w exact = .ok (.ofInt w exact) := if_pos ⟨hlo, hhi⟩

theorem signed_error {exact : Int} (h : exact < -2 ^ (w - 1) ∨ 2 ^ (w - 1) ≤ exact) :
    signed w exact = .error .overflow := if_neg (by omega)

theorem zigzag_le {a b : Int} (hsign : a < 0 ↔ b < 0) (habs : a.natAbs ≤ b.natAbs) : zigzag a ≤ zigzag b := by
  unfold zigzag
  split <;> split <;> omega

/-- The number of a value, also where the operations wrap around. -/
theorem encodeZigzag_eq (hw : 0 < w) (v : BitVec w) : ((encodeZigzag v).toNat : Int) = zigzag v.toInt := by
  have hv := v.isLt
  have hcond := BitVec.toInt_eq_toNat_cond v
  rw [toNat_encodeZigzag hw, zigzag]
  split
  · split at hcond <;> omega
  · split at hcond <;> omega

theorem encode_decodeZigzag (hw : 0 < w) (u : BitVec w) : encodeZigzag (decodeZigzag u) = u := by
  have hu := u.isLt
  have hcond := BitVec.toInt_eq_toNat_cond (decodeZigzag u)
  have hpow : 2 ^ w = 2 * 2 ^ (w - 1) := by
    rw [← Nat.pow_succ', Nat.succ_eq_add_one, Nat.sub_add_cancel hw]
  have hdecode := toNat_decodeZigzag hw u
  apply BitVec.eq_of_toNat_eq
  rw [toNat_encodeZigzag hw]
  -- an even number is that of a value that is not negative, an odd one that of a negative value
  rcases Nat.mod_two_eq_zero_or_one u.toNat with heven | hodd
  · rw [if_pos heven] at hdecode
    rw [if_pos (by omega)] at hcond
    rw [if_neg (by omega)]
    omega
  · rw [if_neg (by omega)] at hdecode
    rw [if_neg (by omega)] at hcond
    rw [if_pos (by omega)]
    omega

/-- What the decoder takes for a value is its number alone. -/
theorem decodeZigzag_eq_iff (hw : 0 < w) {u : BitVec w} : decodeZigzag u = v ↔ u = encodeZigzag v := by
  constructor
  · rintro rfl
    exact (encode_decodeZigzag hw u).symm
  · rintro rfl
    exact decode_encodeZigzag hw v

/-- The exact result, where it is a value of the type, is what wrapping around gives. -/
theorem signedZigzag_ok (hlo : -2 ^ (w - 1) < v.toInt) (hhi : 2 * v.toInt < 2 ^ (w - 1)) :
    signedZigzag v = .ok (encodeZigzag v) := by
  rw [signedZigzag, encodeZigzag]
  split
  · rename_i hneg
    rw [signed_ok (by omega) (by omega), BitVec.ofInt_neg, BitVec.ofInt_toInt]
    rfl
  · rename_i hpos
    rw [signed_ok (by omega) (by omega), BitVec.ofInt_mul, BitVec.ofInt_toInt]
    rfl

theorem signedZigzag_error (h : ¬ (-2 ^ (w - 1) < v.toInt ∧ 2 * v.toInt < 2 ^ (w - 1))) :
    signedZigzag v = .error .overflow := by
  have hmin := BitVec.le_toInt v
  rw [signedZigzag]
  split
  · rename_i hneg
    rw [signed_error (.inr (by omega))]
    rfl
  · rename_i hpos
    have hlo : -2 ^ (w - 1) < v.toInt := by
      have := Int.pow_pos (n := 2) (m := w - 1) (by decide)
      omega
    exact signed_error (.inr (by omega))

/-- The encoder of two types of `w` bits, one signed and one not, does what zigzag is for exactly on the values whose
negation, or whose double, is a value of the type. -/
theorem zigzags_iff {α β : Type} (hw : 0 < w) (f : α ≃ BitVec w) (g : β ≃ BitVec w) {v : α} :
    Zigzags (fun a => (f a).toInt) (fun b => (g b).toNat) (fun a => (signedZigzag (f a)).map g.symm)
        (fun b => f.symm (decodeZigzag (g b))) v ↔
      -2 ^ (w - 1) < (f v).toInt ∧ 2 * (f v).toInt < 2 ^ (w - 1) := by
  have hok : ∀ {a : α}, -2 ^ (w - 1) < (f a).toInt → 2 * (f a).toInt < 2 ^ (w - 1) →
      (signedZigzag (f a)).map g.symm = .ok (g.symm (encodeZigzag (f a))) := by
    intro a hlo hhi
    rw [signedZigzag_ok hlo hhi]
    rfl
  have hnumber : ∀ a, ((g (g.symm (encodeZigzag (f a)))).toNat : Int) = zigzag (f a).toInt := by
    intro a
    rw [Equiv.apply_symm_apply]
    exact encodeZigzag_eq hw (f a)
  dsimp only [Zigzags]
  constructor
  · rintro ⟨u, hu, -⟩
    by_contra hout
    rw [signedZigzag_error hout] at hu
    cases hu
  · rintro ⟨hlo, hhi⟩
    refine ⟨_, hok hlo hhi, hnumber v, ?_, ?_⟩
    · intro u
      rw [Equiv.symm_apply_eq, decodeZigzag_eq_iff hw, ← Equiv.eq_symm_apply]
    · intro v' hsign habs
      refine ⟨_, hok (a := v') (by omega) (by omega), ?_⟩
      have hle := zigzag_le hsign habs
      rw [← hnumber v, ← hnumber v'] at hle
      exact Int.ofNat_le.1 hle

end Width

/-! ## The two widths -/

theorem encode_decodeZigzag32 (u : UInt32) : encodeZigzag32 (decodeZigzag32 u) = u := by
  unfold encodeZigzag32 decodeZigzag32
  rw [Int32.toBitVec_ofBitVec, encode_decodeZigzag (by decide), UInt32.ofBitVec_toBitVec]

theorem encode_decodeZigzag64 (u : UInt64) : encodeZigzag64 (decodeZigzag64 u) = u := by
  unfold encodeZigzag64 decodeZigzag64
  rw [Int64.toBitVec_ofBitVec, encode_decodeZigzag (by decide), UInt64.ofBitVec_toBitVec]

theorem zigzags32_iff {v : Int32} : Zigzags Int32.toInt UInt32.toNat signedZigzag32 decodeZigzag32 v ↔
    -2 ^ 31 < v.toInt ∧ v.toInt < 2 ^ 30 := by
  have h := zigzags_iff (w := 32) (by decide) ⟨Int32.toBitVec, .ofBitVec, Int32.ofBitVec_toBitVec, fun _ => rfl⟩
    ⟨UInt32.toBitVec, .ofBitVec, UInt32.ofBitVec_toBitVec, fun _ => rfl⟩ (v := v)
  refine h.trans (and_congr_right fun _ => ?_)
  change 2 * v.toInt < 2 ^ 31 ↔ _
  omega

theorem zigzags64_iff {v : Int64} : Zigzags Int64.toInt UInt64.toNat signedZigzag64 decodeZigzag64 v ↔
    -2 ^ 63 < v.toInt ∧ v.toInt < 2 ^ 62 := by
  have h := zigzags_iff (w := 64) (by decide) ⟨Int64.toBitVec, .ofBitVec, Int64.ofBitVec_toBitVec, fun _ => rfl⟩
    ⟨UInt64.toBitVec, .ofBitVec, UInt64.ofBitVec_toBitVec, fun _ => rfl⟩ (v := v)
  refine h.trans (and_congr_right fun _ => ?_)
  change 2 * v.toInt < 2 ^ 63 ↔ _
  omega

/-- The encoders have a result without an operation that has none, which then is the number of the value, is undone by
the decoder and nothing else, and keeps the order of magnitudes, exactly on the values above the smallest one and below
half of the range of those that are not negative. -/
theorem zigzag_defined_iff (v : Int32) (v' : Int64) :
    (Zigzags Int32.toInt UInt32.toNat signedZigzag32 decodeZigzag32 v ↔ -2 ^ 31 < v.toInt ∧ v.toInt < 2 ^ 30) ∧
    (Zigzags Int64.toInt UInt64.toNat signedZigzag64 decodeZigzag64 v' ↔ -2 ^ 63 < v'.toInt ∧ v'.toInt < 2 ^ 62) :=
  ⟨zigzags32_iff, zigzags64_iff⟩

/-- `2 ^ 30` is doubled as an `int`. -/
theorem doubling_not_defined : ¬ ∀ v : Int32, Zigzags Int32.toInt UInt32.toNat signedZigzag32 decodeZigzag32 v := by
  intro hall
  have h := (zigzags32_iff.1 (hall 1073741824)).2
  revert h
  decide

end ServerFrame.Codec
