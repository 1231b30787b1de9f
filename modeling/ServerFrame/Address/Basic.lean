/-
IPv4 and IPv6 addresses and their masks (`address.cc`, `address.h`, `endian.h`), on a host of either byte order. What
C++ leaves undefined on the way is a fault: a shift by the width of `int`, an overflow of `int`, an index outside of
`s6_addr`.
-/
import ServerFrame.ByteArray.Codec
import Mathlib.Algebra.Ring.Nat
import Mathlib.Algebra.Ring.Int.Defs

namespace ServerFrame.Addresses

open Codec (Endian)

inductive Fault
  | shift
  | overflow
  | index
  deriving DecidableEq, Repr

/-! ## Byte order -/

/-- `bswap_16`. -/
def bswap16 (x : BitVec 16) : BitVec 16 := x.extractLsb' 0 8 ++ x.extractLsb' 8 8

/-- `bswap_32`. -/
def bswap32 (x : BitVec 32) : BitVec 32 :=
  x.extractLsb' 0 8 ++ x.extractLsb' 8 8 ++ x.extractLsb' 16 8 ++ x.extractLsb' 24 8

section ByteOrder

variable (host : Endian)

/-- `byteswapOnLittleEndian` at `uint16_t`. -/
def byteswapOnLittleEndian16 (t : BitVec 16) : BitVec 16 := if host = .little then bswap16 t else t

/-- `byteswapOnLittleEndian` at `uint32_t`. -/
def byteswapOnLittleEndian (t : BitVec 32) : BitVec 32 := if host = .little then bswap32 t else t

end ByteOrder

/-! ## The mask -/

/-- `1 << n` in `int`: the bit of the sign makes it the least one. -/
def shiftOne (n : Nat) : Except Fault Int := if n < 32 then .ok (Int.bmod (2 ^ n) (2 ^ 32)) else .error .shift

/-- `a - b` in `int`. -/
def subInt (a b : Int) : Except Fault Int :=
  if -2147483648 ≤ a - b ∧ a - b < 2147483648 then .ok (a - b) else .error .overflow

/-- `CreateMask<T>(bits)` for a `T` of `w` bits. The shift amount is a `size_t`. -/
def createMask (w : Nat) (bits : UInt32) : Except Fault (BitVec w) := do
  let one ← shiftOne (UInt64.ofNat w - bits.toUInt64).toNat
  let mask ← subInt one 1
  return BitVec.ofInt w mask

/-! ## IPv4 -/

structure SockaddrIn where
  sinFamily : BitVec 16
  sinPort : BitVec 16
  /-- The word of `sin_addr` as the host reads it. -/
  sAddr : BitVec 32
  sinZero : BitVec 64
  deriving DecidableEq, Repr

/-- `AF_INET`. -/
def afInet : BitVec 16 := 2

structure IPv4Address where
  addr : SockaddrIn
  deriving DecidableEq, Repr

namespace IPv4Address

variable (host : Endian) (a : IPv4Address)

/-- The address with another word, as `sockaddr_in baddr(m_addr)` is changed. -/
def withAddr (v : BitVec 32) : IPv4Address := { addr := { a.addr with sAddr := v } }

/-- `IPv4Address::broadcastAddress(prefix_len)`; `none` is `nullptr`. -/
def broadcastAddress (prefixLen : UInt32) : Except Fault (Option IPv4Address) := do
  if prefixLen > 32 then
    return none
  let mask ← createMask 32 prefixLen
  return some (a.withAddr (a.addr.sAddr ||| byteswapOnLittleEndian host mask))

/-- `IPv4Address::networdAddress(prefix_len)`. -/
def networdAddress (prefixLen : UInt32) : Except Fault (Option IPv4Address) := do
  if prefixLen > 32 then
    return none
  let mask ← createMask 32 prefixLen
  return some (a.withAddr (a.addr.sAddr &&& byteswapOnLittleEndian host mask))

/-- `IPv4Address::subnetMask(prefix_len)`. -/
def subnetMask (prefixLen : UInt32) : Except Fault (Option IPv4Address) := do
  let mask ← createMask 32 prefixLen
  return some {
    addr := { sinFamily := afInet, sinPort := 0, sAddr := ~~~byteswapOnLittleEndian host mask, sinZero := 0 } }

end IPv4Address

/-! ## IPv6 -/

structure SockaddrIn6 where
  sin6Family : BitVec 16
  sin6Port : BitVec 16
  sin6Flowinfo : BitVec 32
  s6Addr : Vector (BitVec 8) 16
  sin6ScopeId : BitVec 32
  deriving DecidableEq

/-- `AF_INET6`. -/
def afInet6 : BitVec 16 := 10

structure IPv6Address where
  addr : SockaddrIn6
  deriving DecidableEq

/-- `s6_addr[i]`. -/
def load (bytes : Vector (BitVec 8) 16) (i : Nat) : Except Fault (BitVec 8) :=
  if h : i < 16 then .ok bytes[i] else .error .index

/-- `s6_addr[i] = v`. -/
def store (bytes : Vector (BitVec 8) 16) (i : Nat) (v : BitVec 8) : Except Fault (Vector (BitVec 8) 16) :=
  if h : i < 16 then .ok (bytes.set i v) else .error .index

/-- The loop that stores one value at the indices from `i` up to `stop`. -/
def fill (v : BitVec 8) (i stop : Nat) (bytes : Vector (BitVec 8) 16) : Except Fault (Vector (BitVec 8) 16) :=
  (List.range' i (stop - i)).foldlM (fun bytes i => store bytes i v) bytes

namespace IPv6Address

variable (a : IPv6Address)

/-- The address with other bytes, as `sockaddr_in6 baddr(m_addr)` is changed. -/
def withAddr (v : Vector (BitVec 8) 16) : IPv6Address := { addr := { a.addr with s6Addr := v } }

/-- `IPv6Address::broadcastAddress(prefix_len)`. -/
def broadcastAddress (prefixLen : UInt32) : Except Fault (Option IPv6Address) := do
  let k := (prefixLen / 8).toNat
  let mask ← createMask 8 (prefixLen % 8)
  let b ← load a.addr.s6Addr k
  let bytes ← store a.addr.s6Addr k (b ||| mask)
  return some (a.withAddr (← fill 0xff (k + 1) 16 bytes))

/-- `IPv6Address::networdAddress(prefix_len)`. -/
def networdAddress (prefixLen : UInt32) : Except Fault (Option IPv6Address) := do
  let k := (prefixLen / 8).toNat
  let mask ← createMask 8 (prefixLen % 8)
  let b ← load a.addr.s6Addr k
  let bytes ← store a.addr.s6Addr k (b &&& mask)
  return some (a.withAddr (← fill 0 (k + 1) 16 bytes))

/-- `IPv6Address::subnetMask(prefix_len)`. -/
def subnetMask (prefixLen : UInt32) : Except Fault (Option IPv6Address) := do
  let k := (prefixLen / 8).toNat
  let mask ← createMask 8 (prefixLen % 8)
  let bytes ← store (Vector.replicate 16 0) k (~~~mask)
  let bytes ← fill 0xff 0 k bytes
  return some {
    addr := { sin6Family := afInet6, sin6Port := 0, sin6Flowinfo := 0, s6Addr := bytes, sin6ScopeId := 0 } }

end IPv6Address

end ServerFrame.Addresses
