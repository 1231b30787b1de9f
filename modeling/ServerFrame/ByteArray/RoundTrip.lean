/-
The typed readers undo the typed writers: each reads off exactly the bytes of its value, whatever follows, so that
values of all kinds can follow each other.
-/
import ServerFrame.ByteArray.Codec
import ServerFrame.Lib.Readers

namespace ServerFrame.Codec

open Digits Readers

/-! ## Fixed width -/

section Fixed

variable {k n : Nat} (host endian : Endian)

theorem bytes_byteswap : bytes k (byteswap k n) = (bytes k n).reverse := by
  have := bytes_ofBytes (bytes k n).reverse
  rwa [List.length_reverse, length_bytes] at this

theorem byteswap_byteswap (h : n < 256 ^ k) : byteswap k (byteswap k n) = n := by
  rw [byteswap, bytes_byteswap, List.reverse_reverse, ofBytes_bytes k n h]

theorem byteswap_lt : byteswap k n < 256 ^ k := by
  have := ofBytes_lt (bytes k n).reverse
  rwa [List.length_reverse, length_bytes] at this

@[simp] theorem length_toMemory : (toMemory host k n).length = k := by
  cases host <;> simp [toMemory]

theorem ofMemory_toMemory (h : n < 256 ^ k) : ofMemory host (toMemory host k n) = n := by
  cases host with
  | little => exact ofBytes_bytes k n h
  | big =>
    show ofBytes (bytes k n).reverse.reverse = n
    rw [List.reverse_reverse, ofBytes_bytes k n h]

/-- The bytes handed to `write`: the digits in the order `m_endian` says, on either host. -/
theorem flatten_writeFixed :
    (writeFixed host endian k n).flatten = if endian = .big then (bytes k n).reverse else bytes k n := by
  cases host <;> cases endian <;> simp [writeFixed, toMemory, bytes_byteswap]

/-- One value of `k` bytes as the host has it in memory. -/
theorem reads_memory (h : n < 256 ^ k) {α : Type} (f : Nat → α) :
    Reads (Readers.read k >>= fun buf => pure (f (ofMemory host buf.1))) (toMemory host k n) (f n) := by
  have hmem : f (ofMemory host (toMemory host k n)) = f n := by rw [ofMemory_toMemory host h]
  exact (Reads.read (length_toMemory host)).ret hmem

theorem reads_fixed (h : n < 256 ^ k) :
    Reads (readFixed Readers.read host endian k) (writeFixed host endian k n).flatten n := by
  unfold writeFixed readFixed
  rw [List.flatten_singleton]
  by_cases he : endian = host
  · simpa [he] using reads_memory host h id
  · simpa [he, byteswap_byteswap h] using reads_memory host (byteswap_lt (k := k) (n := n)) (byteswap k)

theorem reads_byte (b : UInt8) : Reads (readFuint8 Readers.read host) [b] b := by
  have hb : toMemory host 1 b.toNat = [b] := by cases host <;> simp [toMemory, bytes]
  rw [← hb]
  have := reads_memory host (k := 1) b.toNat_lt UInt8.ofNat
  rwa [UInt8.ofNat_toNat] at this

end Fixed

/-! ## Variable length -/

theorem varint_eq (v : Nat) :
    varint v = if v < 128 then [UInt8.ofNat v] else UInt8.ofNat (v % 128 + 128) :: varint (v / 128) := by
  have hlow : v &&& 0x7f ||| 0x80 = v % 128 + 128 := by
    rw [show (0x7f : Nat) = 2 ^ 7 - 1 from rfl, Nat.and_two_pow_sub_one_eq_mod, Nat.or_comm,
      show (0x80 : Nat) = 2 ^ 7 * 1 from rfl, ← Nat.two_pow_add_eq_or_of_lt (by omega)]
    omega
  rw [varint, hlow, Nat.shiftRight_eq_div_pow]
  by_cases h : v < 128
  · rw [if_neg (by omega), if_pos h]
  · rw [if_pos (by omega), if_neg h]

/-- A group of seven bits put above the bits read so far. -/
theorem or_group {w i result x : Nat} (hr : result < 2 ^ i) (hw : x * 2 ^ i < 2 ^ w) :
    result ||| x <<< i % 2 ^ w = result + x * 2 ^ i := by
  rw [Nat.shiftLeft_eq, Nat.mod_eq_of_lt hw, ← Nat.shiftLeft_eq, Nat.or_comm, ← Nat.shiftLeft_add_eq_or_of_lt hr,
    Nat.shiftLeft_eq, Nat.add_comm]

/-- The loop of the reader over the bytes of `v`, from shift `i` on: induction on the rounds left. -/
theorem reads_varint (host : Endian) (w : Nat) {n i result v : Nat} (h0 : 0 < n) (hn : v < 2 ^ (7 * n))
    (hr : result < 2 ^ i) (hw : result + v * 2 ^ i < 2 ^ w) :
    Reads (readVarint Readers.read host w n i result) (varint v) (result + v * 2 ^ i) := by
  induction n generalizing i result v with
  | zero => omega
  | succ n ih =>
    rw [varint_eq, readVarint]
    by_cases hv : v < 128
    · have hb : (UInt8.ofNat v).toNat = v := by
        rw [UInt8.toNat_ofNat']
        omega
      have hlt : UInt8.ofNat v < 0x80 := by
        rw [UInt8.lt_iff_toNat_lt, hb]
        exact hv
      rw [if_pos hv]
      refine (reads_byte host (UInt8.ofNat v)).bind (m := []) ?_
      rw [if_pos hlt, hb, or_group hr (by omega)]
      exact Reads.pure _
    · have hb : (UInt8.ofNat (v % 128 + 128)).toNat = v % 128 + 128 := by
        rw [UInt8.toNat_ofNat']
        omega
      have hge : ¬ UInt8.ofNat (v % 128 + 128) < 0x80 := by
        rw [UInt8.lt_iff_toNat_lt, hb, show (0x80 : UInt8).toNat = 128 from rfl]
        omega
      have hlow : (UInt8.ofNat (v % 128 + 128) &&& 0x7f).toNat = v % 128 := by
        rw [UInt8.toNat_and, hb, show (0x7f : UInt8).toNat = 2 ^ 7 - 1 from rfl, Nat.and_two_pow_sub_one_eq_mod]
        omega
      -- what is read so far and the rest of the value
      have hsplit : v % 128 * 2 ^ i + v / 128 * 2 ^ (i + 7) = v * 2 ^ i := by
        rw [Nat.pow_add, Nat.mul_comm (2 ^ i), ← Nat.mul_assoc, ← Nat.add_mul]
        congr 1
        omega
      rw [if_neg hv]
      refine (reads_byte host (UInt8.ofNat (v % 128 + 128))).bind (m := varint (v / 128)) ?_
      rw [if_neg hge, hlow, or_group hr (by omega), ← hsplit, ← Nat.add_assoc]
      have hq : v / 128 < 2 ^ (7 * n) := by
        rw [Nat.div_lt_iff_lt_mul (by decide), show (128 : Nat) = 2 ^ 7 from rfl, ← Nat.pow_add]
        exact hn
      have hlo : v % 128 * 2 ^ i ≤ 127 * 2 ^ i := Nat.mul_le_mul_right _ (by omega)
      refine ih ?_ hq ?_ (by omega)
      · rcases Nat.eq_zero_or_pos n with rfl | hpos
        · rw [Nat.mul_zero, Nat.pow_zero] at hq
          omega
        · exact hpos
      · rw [Nat.pow_add]
        omega

/-! ## Zigzag -/

section Zigzag

variable {w : Nat}

theorem toNat_one (hw : 0 < w) : (1 : BitVec w).toNat = 1 := BitVec.toNat_one hw

theorem toNat_two : (2 : BitVec w).toNat = 2 % 2 ^ w := BitVec.toNat_ofNat 2 w

theorem toNat_encodeZigzag (hw : 0 < w) (v : BitVec w) :
    (encodeZigzag v).toNat = if v.toInt < 0 then 2 * (2 ^ w - v.toNat) - 1 else 2 * v.toNat := by
  have hpow : 2 ^ w = 2 * 2 ^ (w - 1) := by
    rw [← Nat.pow_succ', Nat.succ_eq_add_one, Nat.sub_add_cancel hw]
  have hv := v.isLt
  have hpos := Nat.two_pow_pos (w - 1)
  have hneg : v.toInt < 0 ↔ 2 ^ w ≤ 2 * v.toNat := by
    rw [BitVec.toInt_eq_toNat_cond]
    split <;> omega
  unfold encodeZigzag
  split
  · next h =>
    rw [hneg] at h
    have hdouble : (-v * 2).toNat = 2 * (2 ^ w - v.toNat) % 2 ^ w := by
      rw [BitVec.toNat_mul, toNat_two, Nat.mul_mod_mod, BitVec.toNat_neg, Nat.mod_mul_mod, Nat.mul_comm]
    rw [BitVec.toNat_sub, hdouble, toNat_one hw]
    -- only the smallest value reaches `2 ^ w` when doubled
    rcases Nat.lt_or_ge (2 * (2 ^ w - v.toNat)) (2 ^ w) with hlt | hge
    · rw [Nat.mod_eq_of_lt hlt, show 2 ^ w - 1 + 2 * (2 ^ w - v.toNat) = 2 * (2 ^ w - v.toNat) - 1 + 2 ^ w by omega,
        Nat.add_mod_right, Nat.mod_eq_of_lt (by omega)]
    · rw [show 2 * (2 ^ w - v.toNat) = 2 ^ w by omega, Nat.mod_self, Nat.add_zero, Nat.mod_eq_of_lt (by omega)]
  · next h =>
    rw [hneg] at h
    rw [BitVec.toNat_mul, toNat_two, Nat.mul_mod_mod, Nat.mod_eq_of_lt (by omega), Nat.mul_comm]

theorem toNat_decodeZigzag (hw : 0 < w) (v : BitVec w) :
    (decodeZigzag v).toNat = if v.toNat % 2 = 0 then v.toNat / 2 else 2 ^ w - 1 - v.toNat / 2 := by
  have hlow : v &&& 1 = if v.toNat % 2 = 0 then 0 else 1 := by
    apply BitVec.eq_of_toNat_eq
    rw [BitVec.toNat_and, toNat_one hw, Nat.and_one_is_mod]
    rcases Nat.mod_two_eq_zero_or_one v.toNat with h | h
    · rw [if_pos h, h]
      rfl
    · rw [if_neg (by omega), h, toNat_one hw]
  unfold decodeZigzag
  rw [hlow]
  split
  · simp [Nat.shiftRight_eq_div_pow]
  · rw [show -(1 : BitVec w) = BitVec.allOnes w from BitVec.neg_one_eq_allOnes, BitVec.xor_allOnes, BitVec.toNat_not,
      BitVec.toNat_ushiftRight, Nat.shiftRight_eq_div_pow, Nat.pow_one]

theorem decode_encodeZigzag (hw : 0 < w) (v : BitVec w) : decodeZigzag (encodeZigzag v) = v := by
  have hv := v.isLt
  apply BitVec.eq_of_toNat_eq
  rw [toNat_decodeZigzag hw, toNat_encodeZigzag hw]
  split <;> split <;> omega

end Zigzag

/-! ## All kinds -/

section Values

variable (host endian : Endian)

theorem reads_uint32 (v : UInt32) : Reads (readUint32 Readers.read host) (writeUint32 v).flatten v := by
  have hv := v.toNat_lt
  rw [writeUint32, List.flatten_singleton]
  refine (reads_varint host 32 (by decide) ?_ (by decide) ?_).ret ?_ <;> first | omega | simp

theorem reads_uint64 (v : UInt64) : Reads (readUint64 Readers.read host) (writeUint64 v).flatten v := by
  have hv := v.toNat_lt
  rw [writeUint64, List.flatten_singleton]
  refine (reads_varint host 64 (by decide) ?_ (by decide) ?_).ret ?_ <;> first | omega | simp

theorem reads_fuint32 (v : UInt32) :
    Reads (readFuint32 Readers.read host endian) (writeFuint32 host endian v).flatten v :=
  (reads_fixed host endian (k := 4) v.toNat_lt).ret UInt32.ofNat_toNat

theorem reads_fuint64 (v : UInt64) :
    Reads (readFuint64 Readers.read host endian) (writeFuint64 host endian v).flatten v :=
  (reads_fixed host endian (k := 8) v.toNat_lt).ret UInt64.ofNat_toNat

theorem decode_encodeZigzag32 (v : Int32) : decodeZigzag32 (encodeZigzag32 v) = v := by
  unfold decodeZigzag32 encodeZigzag32
  rw [UInt32.toBitVec_ofBitVec, decode_encodeZigzag (by decide), Int32.ofBitVec_toBitVec]

theorem decode_encodeZigzag64 (v : Int64) : decodeZigzag64 (encodeZigzag64 v) = v := by
  unfold decodeZigzag64 encodeZigzag64
  rw [UInt64.toBitVec_ofBitVec, decode_encodeZigzag (by decide), Int64.ofBitVec_toBitVec]

theorem reads_str (v : Str) : Reads (readStr Readers.read v.size) v.bytes v :=
  (Reads.read (UInt64.toNat_ofNat_of_lt' v.size_lt).symm).ret rfl

/-- Each reader takes off exactly the bytes of its value. -/
theorem reads_value (v : Value) : Reads (v.kind.read Readers.read host endian) (v.write host endian).flatten v := by
  cases v with
  | fint8 v =>
    rw [Value.write, writeFint8, List.flatten_singleton]
    exact (reads_memory host (k := 1) v.toUInt8.toNat_lt fun n => (UInt8.ofNat n).toInt8).ret (by simp)
  | fuint8 v =>
    rw [Value.write, writeFuint8, List.flatten_singleton]
    exact (reads_memory host (k := 1) v.toNat_lt UInt8.ofNat).ret (by simp)
  | fint16 v => exact ((reads_fixed host endian (k := 2) v.toUInt16.toNat_lt).ret (by simp)).ret rfl
  | fuint16 v => exact ((reads_fixed host endian (k := 2) v.toNat_lt).ret UInt16.ofNat_toNat).ret rfl
  | fint32 v => exact ((reads_fixed host endian (k := 4) v.toUInt32.toNat_lt).ret (by simp)).ret rfl
  | fuint32 v => exact (reads_fuint32 host endian v).ret rfl
  | fint64 v => exact ((reads_fixed host endian (k := 8) v.toUInt64.toNat_lt).ret (by simp)).ret rfl
  | fuint64 v => exact (reads_fuint64 host endian v).ret rfl
  | int32 v => exact ((reads_uint32 host (encodeZigzag32 v)).ret (decode_encodeZigzag32 v)).ret rfl
  | uint32 v => exact (reads_uint32 host v).ret rfl
  | int64 v => exact ((reads_uint64 host (encodeZigzag64 v)).ret (decode_encodeZigzag64 v)).ret rfl
  | uint64 v => exact (reads_uint64 host v).ret rfl
  | float v => exact (reads_fuint32 host endian v).ret rfl
  | double v => exact (reads_fuint64 host endian v).ret rfl
  | stringF64 v =>
    rw [Value.write, writeStringF64, List.flatten_append, List.flatten_singleton]
    exact ((reads_fuint64 host endian v.size).bind (reads_str v)).ret rfl
  | stringVint v =>
    rw [Value.write, writeStringVint, List.flatten_append, List.flatten_singleton]
    exact ((reads_uint64 host v.size).bind (reads_str v)).ret rfl

/-- The digits of a value of `k` bytes, most significant first. -/
def mostSignificantFirst (k n : Nat) : List UInt8 := (List.range k).reverse.map fun i => UInt8.ofNat (n / 256 ^ i)

theorem reverse_bytes (k n : Nat) : (bytes k n).reverse = mostSignificantFirst k n := by
  rw [bytes_eq_map, mostSignificantFirst, List.map_reverse]

theorem flatten_write_fixed {v : Value} {k n : Nat} (h : v.fixed = some (k, n)) :
    (v.write host endian).flatten =
      if endian = .big then mostSignificantFirst k n else (mostSignificantFirst k n).reverse := by
  rw [← reverse_bytes, List.reverse_reverse]
  cases v with
  | fint8 v | fuint8 v =>
    cases h
    cases host <;> simp [Value.write, writeFint8, writeFuint8, toMemory, bytes]
  | fint16 v | fuint16 v | fint32 v | fuint32 v | fint64 v | fuint64 v | float v | double v =>
    cases h
    exact flatten_writeFixed host endian
  | int32 | uint32 | int64 | uint64 | stringF64 | stringVint => cases h

/-- Reading back a sequence of values of all kinds returns the sequence and leaves nothing, for either setting on
either host; and the setting is the order in which the bytes of the values of fixed width appear. -/
theorem typed_round_trip (val : Bool) (l : List Value) :
    ((l.map Value.kind).mapM (Kind.read Readers.read host (setIsLittleEndian val)))
      (l.flatMap fun v => (v.write host (setIsLittleEndian val)).flatten) = some (l, []) ∧
    (∀ (v : Value) k n, v.fixed = some (k, n) → (v.write host (setIsLittleEndian val)).flatten =
      if val then (mostSignificantFirst k n).reverse else mostSignificantFirst k n) ∧
    ((∀ (v : Value) k n, v.fixed = some (k, n) →
        (v.write host (setIsLittleEndian val)).flatten = mostSignificantFirst k n) ↔
      setIsLittleEndian val = .big) := by
  refine ⟨?_, ?_, ?_⟩
  · have hread := Reads.mapM (reads_value host (setIsLittleEndian val)) l []
    rwa [List.append_nil] at hread
  · intro v k n hv
    rw [flatten_write_fixed host _ hv]
    cases val <;> rfl
  · constructor
    · intro h
      have h1 := h (.fuint16 1) 2 1 rfl
      rw [flatten_write_fixed host _ rfl] at h1
      by_contra hne
      rw [if_neg hne] at h1
      revert h1
      decide
    · intro he v k n hv
      rw [flatten_write_fixed host _ hv, if_pos he]

end Values

end ServerFrame.Codec
