/-
The typed writers and readers of `ByteArray` (`bytearray.cc`, `endian.h`). A writer is the list of byte strings it
hands to `write`; a reader is a program over `read`, for any monad that has one. `SYLAR_BYTE_ORDER` and `m_endian` are
arguments. Inside, fixed-width values are their bit patterns as numbers; a `float` or `double` is its bit pattern.
-/
import ServerFrame.Lib.Digits

namespace ServerFrame.Codec

open Digits

/-- `SYLAR_LITTLE_ENDIAN` and `SYLAR_BIG_ENDIAN`. -/
inductive Endian
  | little
  | big
  deriving DecidableEq, Repr

/-- `setIsLittleEndian(val)`: the value of `m_endian`. -/
def setIsLittleEndian (val : Bool) : Endian := if val then .little else .big

/-- `std::string`. -/
structure Str where
  bytes : List UInt8
  size_lt : bytes.length < 2 ^ 64
  deriving DecidableEq, Repr

def Str.size (s : Str) : UInt64 := UInt64.ofNat s.bytes.length

/-- `byteswap` of a value of `k` bytes. -/
def byteswap (k n : Nat) : Nat := ofBytes (bytes k n).reverse

/-- The bytes of a value of `k` bytes in memory. -/
def toMemory (host : Endian) (k n : Nat) : List UInt8 :=
  match host with
  | .little => bytes k n
  | .big => (bytes k n).reverse

/-- The value of its bytes in memory. -/
def ofMemory (host : Endian) (l : List UInt8) : Nat :=
  match host with
  | .little => ofBytes l
  | .big => ofBytes l.reverse

/-! ## Zigzag -/

/-- `EncodeZigzag32` and `EncodeZigzag64`, with wrap-around. -/
def encodeZigzag {w : Nat} (v : BitVec w) : BitVec w := if v.toInt < 0 then -v * 2 - 1 else v * 2

/-- `DecodeZigzag32` and `DecodeZigzag64`. -/
def decodeZigzag {w : Nat} (v : BitVec w) : BitVec w := v >>> 1 ^^^ -(v &&& 1)

def encodeZigzag32 (v : Int32) : UInt32 := .ofBitVec (encodeZigzag v.toBitVec)

def encodeZigzag64 (v : Int64) : UInt64 := .ofBitVec (encodeZigzag v.toBitVec)

def decodeZigzag32 (v : UInt32) : Int32 := .ofBitVec (decodeZigzag v.toBitVec)

def decodeZigzag64 (v : UInt64) : Int64 := .ofBitVec (decodeZigzag v.toBitVec)

/-! ## Writers -/

/-- The loop of `writeUint32` and `writeUint64`. -/
def varint (value : Nat) : List UInt8 :=
  if value ≥ 0x80 then UInt8.ofNat (value &&& 0x7f ||| 0x80) :: varint (value >>> 7) else [UInt8.ofNat value]
termination_by value
decreasing_by
  rw [Nat.shiftRight_eq_div_pow]
  omega

section Writers

variable (host endian : Endian)

/-- What the fixed-width writers of more than one byte share. -/
def writeFixed (k n : Nat) : List (List UInt8) :=
  let value := if endian ≠ host then byteswap k n else n
  [toMemory host k value]

def writeFint8 (value : Int8) : List (List UInt8) := [toMemory host 1 value.toUInt8.toNat]
def writeFuint8 (value : UInt8) : List (List UInt8) := [toMemory host 1 value.toNat]
def writeFint16 (value : Int16) : List (List UInt8) := writeFixed host endian 2 value.toUInt16.toNat
def writeFuint16 (value : UInt16) : List (List UInt8) := writeFixed host endian 2 value.toNat
def writeFint32 (value : Int32) : List (List UInt8) := writeFixed host endian 4 value.toUInt32.toNat
def writeFuint32 (value : UInt32) : List (List UInt8) := writeFixed host endian 4 value.toNat
def writeFint64 (value : Int64) : List (List UInt8) := writeFixed host endian 8 value.toUInt64.toNat
def writeFuint64 (value : UInt64) : List (List UInt8) := writeFixed host endian 8 value.toNat

def writeUint32 (value : UInt32) : List (List UInt8) := [varint value.toNat]
def writeUint64 (value : UInt64) : List (List UInt8) := [varint value.toNat]
def writeInt32 (value : Int32) : List (List UInt8) := writeUint32 (encodeZigzag32 value)
def writeInt64 (value : Int64) : List (List UInt8) := writeUint64 (encodeZigzag64 value)

def writeFloat (bits : UInt32) : List (List UInt8) := writeFuint32 host endian bits
def writeDouble (bits : UInt64) : List (List UInt8) := writeFuint64 host endian bits

def writeStringF64 (value : Str) : List (List UInt8) := writeFuint64 host endian value.size ++ [value.bytes]
def writeStringVint (value : Str) : List (List UInt8) := writeUint64 value.size ++ [value.bytes]

end Writers

/-! ## Readers -/

section Readers

variable {m : Type → Type} [Monad m] (read : (n : Nat) → m { l : List UInt8 // l.length = n }) (host endian : Endian)

/-- What the fixed-width readers of more than one byte share. -/
def readFixed (k : Nat) : m Nat := do
  let buf ← read k
  let v := ofMemory host buf.1
  return if endian = host then v else byteswap k v

def readFint8 : m Int8 := do return (UInt8.ofNat (ofMemory host (← read 1).1)).toInt8
def readFuint8 : m UInt8 := do return UInt8.ofNat (ofMemory host (← read 1).1)
def readFint16 : m Int16 := do return (UInt16.ofNat (← readFixed read host endian 2)).toInt16
def readFuint16 : m UInt16 := do return UInt16.ofNat (← readFixed read host endian 2)
def readFint32 : m Int32 := do return (UInt32.ofNat (← readFixed read host endian 4)).toInt32
def readFuint32 : m UInt32 := do return UInt32.ofNat (← readFixed read host endian 4)
def readFint64 : m Int64 := do return (UInt64.ofNat (← readFixed read host endian 8)).toInt64
def readFuint64 : m UInt64 := do return UInt64.ofNat (← readFixed read host endian 8)

/-- The loop of `readUint32` and `readUint64` at `i` with `n` rounds left, on a result of `w` bits. -/
def readVarint (w : Nat) : (n i result : Nat) → m Nat
  | 0, _, result => return result
  | n + 1, i, result => do
    let b ← readFuint8 read host
    if b < 0x80 then return result ||| b.toNat <<< i % 2 ^ w
    else readVarint w n (i + 7) (result ||| (b &&& 0x7f).toNat <<< i % 2 ^ w)

/-- `readUint32()`: `i` goes from 0 to 28. -/
def readUint32 : m UInt32 := do return UInt32.ofNat (← readVarint read host 32 5 0 0)

/-- `readUint64()`: `i` goes from 0 to 63. -/
def readUint64 : m UInt64 := do return UInt64.ofNat (← readVarint read host 64 10 0 0)

def readInt32 : m Int32 := do return decodeZigzag32 (← readUint32 read host)
def readInt64 : m Int64 := do return decodeZigzag64 (← readUint64 read host)

def readFloat : m UInt32 := readFuint32 read host endian
def readDouble : m UInt64 := readFuint64 read host endian

/-- The last part of the string readers. -/
def readStr (len : UInt64) : m Str := do
  let buff ← read len.toNat
  return ⟨buff.1, by rw [buff.2]; exact len.toNat_lt⟩

def readStringF64 : m Str := do readStr read (← readFuint64 read host endian)
def readStringVint : m Str := do readStr read (← readUint64 read host)

end Readers

/-! ## Values of all kinds -/

/-- A value with the writer it goes through. -/
inductive Value
  | fint8 (v : Int8)
  | fuint8 (v : UInt8)
  | fint16 (v : Int16)
  | fuint16 (v : UInt16)
  | fint32 (v : Int32)
  | fuint32 (v : UInt32)
  | fint64 (v : Int64)
  | fuint64 (v : UInt64)
  | int32 (v : Int32)
  | uint32 (v : UInt32)
  | int64 (v : Int64)
  | uint64 (v : UInt64)
  | float (bits : UInt32)
  | double (bits : UInt64)
  | stringF64 (v : Str)
  | stringVint (v : Str)
  deriving DecidableEq, Repr

/-- The writers and readers, in pairs. -/
inductive Kind
  | fint8 | fuint8 | fint16 | fuint16 | fint32 | fuint32 | fint64 | fuint64 | int32 | uint32 | int64 | uint64
    | float | double
  | stringF64 | stringVint
  deriving DecidableEq, Repr

def Value.kind : Value → Kind
  | fint8 _ => .fint8
  | fuint8 _ => .fuint8
  | fint16 _ => .fint16
  | fuint16 _ => .fuint16
  | fint32 _ => .fint32
  | fuint32 _ => .fuint32
  | fint64 _ => .fint64
  | fuint64 _ => .fuint64
  | int32 _ => .int32
  | uint32 _ => .uint32
  | int64 _ => .int64
  | uint64 _ => .uint64
  | float _ => .float
  | double _ => .double
  | stringF64 _ => .stringF64
  | stringVint _ => .stringVint

/-- The byte strings a value hands to `write`. -/
def Value.write (host endian : Endian) : Value → List (List UInt8)
  | fint8 v => writeFint8 host v
  | fuint8 v => writeFuint8 host v
  | fint16 v => writeFint16 host endian v
  | fuint16 v => writeFuint16 host endian v
  | fint32 v => writeFint32 host endian v
  | fuint32 v => writeFuint32 host endian v
  | fint64 v => writeFint64 host endian v
  | fuint64 v => writeFuint64 host endian v
  | int32 v => writeInt32 v
  | uint32 v => writeUint32 v
  | int64 v => writeInt64 v
  | uint64 v => writeUint64 v
  | float v => writeFloat host endian v
  | double v => writeDouble host endian v
  | stringF64 v => writeStringF64 host endian v
  | stringVint v => writeStringVint v

/-- The reader of a kind. -/
def Kind.read {m : Type → Type} [Monad m] (read : (n : Nat) → m { l : List UInt8 // l.length = n })
    (host endian : Endian) : Kind → m Value
  | fint8 => do return .fint8 (← readFint8 read host)
  | fuint8 => do return .fuint8 (← readFuint8 read host)
  | fint16 => do return .fint16 (← readFint16 read host endian)
  | fuint16 => do return .fuint16 (← readFuint16 read host endian)
  | fint32 => do return .fint32 (← readFint32 read host endian)
  | fuint32 => do return .fuint32 (← readFuint32 read host endian)
  | fint64 => do return .fint64 (← readFint64 read host endian)
  | fuint64 => do return .fuint64 (← readFuint64 read host endian)
  | int32 => do return .int32 (← readInt32 read host)
  | uint32 => do return .uint32 (← readUint32 read host)
  | int64 => do return .int64 (← readInt64 read host)
  | uint64 => do return .uint64 (← readUint64 read host)
  | float => do return .float (← readFloat read host endian)
  | double => do return .double (← readDouble read host endian)
  | stringF64 => do return .stringF64 (← readStringF64 read host endian)
  | stringVint => do return .stringVint (← readStringVint read host)

/-- The size in bytes and the bit pattern of a value of fixed width. -/
def Value.fixed : Value → Option (Nat × Nat)
  | fint8 v => some (1, v.toUInt8.toNat)
  | fuint8 v => some (1, v.toNat)
  | fint16 v => some (2, v.toUInt16.toNat)
  | fuint16 v => some (2, v.toNat)
  | fint32 v => some (4, v.toUInt32.toNat)
  | fuint32 v | float v => some (4, v.toNat)
  | fint64 v => some (8, v.toUInt64.toNat)
  | fuint64 v | double v => some (8, v.toNat)
  | int32 _ | uint32 _ | int64 _ | uint64 _ | stringF64 _ | stringVint _ => none

end ServerFrame.Codec
