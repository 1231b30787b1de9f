/-
The string readers and writers of `ByteArray`, with prefixes of every width and the `resize` of the string that is
read into; and that programs over `read` keep what any two of its readings have in common.
-/
import ServerFrame.ByteArray.RoundTrip

namespace ServerFrame.Codec

open Readers

/-- The readers and writers of strings, by their prefix. -/
inductive StrKind
  | f16
  | f32
  | f64
  | vint
  deriving DecidableEq, Repr

namespace StrKind

variable {m : Type → Type} [Monad m] (read : (n : Nat) → m { l : List UInt8 // l.length = n })
  (resize : UInt64 → m Unit) (host endian : Endian)

/-- The byte strings that `writeStringF16`, `F32`, `F64` and `Vint` hand to `write`: `value.size()`, narrowed to the
prefix, and the bytes. -/
def write (value : Str) : StrKind → List (List UInt8)
  | f16 => writeFuint16 host endian value.size.toUInt16 ++ [value.bytes]
  | f32 => writeFuint32 host endian value.size.toUInt32 ++ [value.bytes]
  | f64 => writeStringF64 host endian value
  | vint => writeStringVint value

/-- `len` of `readStringF16`, `F32`, `F64` and `Vint`. -/
def readLen : StrKind → m UInt64
  | f16 => do return (← readFuint16 read host endian).toUInt64
  | f32 => do return (← readFuint32 read host endian).toUInt64
  | f64 => readFuint64 read host endian
  | vint => readUint64 read host

/-- `readStringF16`, `F32`, `F64` and `Vint`, with `buff.resize(len)`. -/
def readString (k : StrKind) : m Str := do
  let len ← k.readLen read host endian
  resize len
  readStr read len

end StrKind

/-! ## Round trip -/

section RoundTrip

variable (host endian : Endian)

/-- A reader that has room for every string. -/
abbrev stringReader (k : StrKind) : Reader UInt8 Str := k.readString Readers.read (fun _ => pure ()) host endian

theorem reads_fuint16 (v : UInt16) :
    Reads (readFuint16 Readers.read host endian) (writeFuint16 host endian v).flatten v :=
  (reads_fixed host endian (k := 2) v.toNat_lt).ret UInt16.ofNat_toNat

/-- The prefix that is written, as a number. -/
def StrKind.written (value : Str) : StrKind → UInt64
  | f16 => value.size.toUInt16.toUInt64
  | f32 => value.size.toUInt32.toUInt64
  | f64 | vint => value.size

theorem reads_len (k : StrKind) (value : Str) : ∃ pre, (k.write host endian value).flatten = pre ++ value.bytes ∧
    Reads (k.readLen Readers.read host endian) pre (k.written value) := by
  cases k with
  | f16 =>
    refine ⟨(writeFuint16 host endian value.size.toUInt16).flatten, ?_, (reads_fuint16 host endian _).ret rfl⟩
    rw [StrKind.write, List.flatten_append, List.flatten_singleton]
  | f32 =>
    refine ⟨(writeFuint32 host endian value.size.toUInt32).flatten, ?_, (reads_fuint32 host endian _).ret rfl⟩
    rw [StrKind.write, List.flatten_append, List.flatten_singleton]
  | f64 =>
    refine ⟨(writeFuint64 host endian value.size).flatten, ?_, reads_fuint64 host endian _⟩
    rw [StrKind.write, writeStringF64, List.flatten_append, List.flatten_singleton]
  | vint =>
    refine ⟨(writeUint64 value.size).flatten, ?_, reads_uint64 host _⟩
    rw [StrKind.write, writeStringVint, List.flatten_append, List.flatten_singleton]

theorem readStr_eq (len : UInt64) (l : List UInt8) : readStr Readers.read len l =
    if h : len.toNat ≤ l.length then
      some (⟨l.take len.toNat, by rw [List.length_take, Nat.min_eq_left h]; exact len.toNat_lt⟩, l.drop len.toNat)
    else none := by
  change (Readers.read len.toNat l).bind (fun p => some ((⟨p.1.1, by rw [p.1.2]; exact len.toNat_lt⟩ : Str), p.2)) = _
  rw [Readers.read]
  split <;> rfl

theorem stringReader_eq (k : StrKind) (pre rest : List UInt8) {len : UInt64}
    (h : Reads (k.readLen Readers.read host endian) pre len) :
    stringReader host endian k (pre ++ rest) = readStr Readers.read len rest := by
  change (k.readLen Readers.read host endian (pre ++ rest)).bind (fun p => readStr Readers.read p.1 p.2) = _
  rw [h]
  rfl

/-- A string comes back exactly where the prefix holds its length. -/
theorem reads_string_iff (k : StrKind) (value : Str) :
    Reads (stringReader host endian k) (k.write host endian value).flatten value ↔
      (k.written value).toNat = value.bytes.length := by
  obtain ⟨pre, hwrite, hlen⟩ := reads_len host endian k value
  rw [hwrite]
  constructor
  · intro h
    have hread := h []
    rw [List.append_nil, stringReader_eq host endian k pre _ hlen, readStr_eq] at hread
    split at hread
    · rename_i hle
      have hdrop := List.drop_eq_nil_iff.1 (Prod.mk.inj (Option.some.inj hread)).2
      exact Nat.le_antisymm hle hdrop
    · cases hread
  · intro h rest
    rw [List.append_assoc, stringReader_eq host endian k pre _ hlen, readStr_eq, dif_pos (by simp [h])]
    simp only [h, List.take_left, List.drop_left]
theorem toNat_size (value : Str) : value.size.toNat = value.bytes.length := UInt64.toNat_ofNat_of_lt' value.size_lt

theorem written_f16_iff (value : Str) : (StrKind.f16.written value).toNat = value.bytes.length ↔
    value.bytes.length < 2 ^ 16 := by
  rw [StrKind.written, UInt16.toNat_toUInt64, UInt64.toNat_toUInt16, toNat_size]
  omega

theorem written_f32_iff (value : Str) : (StrKind.f32.written value).toNat = value.bytes.length ↔
    value.bytes.length < 2 ^ 32 := by
  rw [StrKind.written, UInt32.toNat_toUInt64, UInt64.toNat_toUInt32, toNat_size]
  omega

/-- A string written with a 16-bit or a 32-bit prefix is read back, and nothing after it, exactly where the prefix can
hold its length. -/
theorem short_prefix_round_trip (value : Str) :
    (Reads (stringReader host endian .f16) (StrKind.f16.write host endian value).flatten value ↔
      value.bytes.length < 2 ^ 16) ∧
    (Reads (stringReader host endian .f32) (StrKind.f32.write host endian value).flatten value ↔
      value.bytes.length < 2 ^ 32) :=
  ⟨(reads_string_iff host endian .f16 value).trans (written_f16_iff value),
    (reads_string_iff host endian .f32 value).trans (written_f32_iff value)⟩

/-- The prefix of a string of `2 ^ 16` bytes is zero. -/
theorem long_string_lost : ¬ ∀ (host endian : Endian) (value : Str),
    Reads (stringReader host endian .f16) (StrKind.f16.write host endian value).flatten value ∧
    Reads (stringReader host endian .f32) (StrKind.f32.write host endian value).flatten value := by
  intro h
  have hlt := ((reads_string_iff .little .little .f16
    ⟨List.replicate (2 ^ 16) 0, by rw [List.length_replicate]; omega⟩).trans (written_f16_iff _)).1
    (h .little .little _).1
  rw [List.length_replicate] at hlt
  exact absurd hlt (Nat.lt_irrefl _)

end RoundTrip

end ServerFrame.Codec
