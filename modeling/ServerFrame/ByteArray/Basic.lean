/-
`ByteArray` (`bytearray.h`, `bytearray.cc`): a chain of blocks of one size with a position, a size, a
capacity and a cached pointer to the current node. A node is its block of bytes, the chain a list
from `m_root` on, and a pointer into the chain the number of its node. Memory that `new char[]` leaves
uninitialised is an argument of the operation that allocates, by flat position. Sizes are natural
numbers and the `ceil` of `addCapacity` is exact.
-/
import ServerFrame.Lib.Blocks

namespace ServerFrame.Buffers

open Blocks

/-- How an operation ends early: the exception `std::out_of_range`, or a null node dereferenced. -/
inductive Fault
  | outOfRange
  | nullNode
  deriving DecidableEq, Repr

/-- `ByteArray`, without the byte order, which only the typed readers and writers use. -/
structure ByteArray where
  baseSize : Nat
  position : Nat
  capacity : Nat
  size : Nat
  nodes : List (List UInt8)
  cur : Option Nat
  deriving DecidableEq, Repr

/-- `Node(size)` as the node of number `k`. -/
def newNode (memory : Nat → UInt8) (size k : Nat) : List UInt8 := (List.range size).map fun j => memory (k * size + j)

namespace ByteArray

/-- `ByteArray(base_size)`. -/
def init (memory : Nat → UInt8) (base_size : Nat) : ByteArray :=
  { baseSize := base_size, position := 0, capacity := base_size, size := 0,
    nodes := [newNode memory base_size 0], cur := some 0 }

variable (s : ByteArray)

def getReadSize : Nat := s.size - s.position

def getCapacity : Nat := s.capacity - s.position

/-- The pointer to the node of number `i`: null past the end of the chain. -/
def nodeAt (i : Nat) : Option Nat := if i < s.nodes.length then some i else none

/-- `ByteArray::addCapacity(size)`. -/
def addCapacity (memory : Nat → UInt8) (size : Nat) : ByteArray :=
  if size = 0 then s
  else
    let old_capacity := s.getCapacity
    if old_capacity ≥ size then s
    else
      let count := (size - old_capacity) ⌈/⌉ s.baseSize
      { s with
        nodes := s.nodes ++ (List.range count).map fun i => newNode memory s.baseSize (s.nodes.length + i)
        capacity := s.capacity + count * s.baseSize
        cur := if old_capacity = 0 then (if count = 0 then none else some s.nodes.length) else s.cur }

/-- The loop of `write` over the chain from the current node on. It returns the chain, the position,
and by how many nodes the current one has moved. The last part of the bytes moves the position by
the node's whole rest `ncap`. -/
def writeLoop : List (List UInt8) → (npos ncap position : Nat) → List UInt8 →
    Except Fault (List (List UInt8) × Nat × Nat)
  | chain, _, _, position, [] => .ok (chain, position, 0)
  | [], _, _, _, _ :: _ => .error .nullNode
  | node :: rest, npos, ncap, position, buf =>
    if ncap ≥ buf.length then
      .ok (store node npos buf :: rest, position + ncap, if node.length = npos + buf.length then 1 else 0)
    else
      match rest with
      | [] => .error .nullNode
      | next :: _ =>
        match writeLoop rest 0 next.length (position + ncap) (buf.drop ncap) with
        | .error f => .error f
        | .ok (rest, position, moved) => .ok (store node npos (buf.take ncap) :: rest, position, moved + 1)

/-- `ByteArray::write(buf, size)`. -/
def write (memory : Nat → UInt8) (buf : List UInt8) : Except Fault ByteArray :=
  if buf = [] then .ok s
  else
    let s := s.addCapacity memory buf.length
    match s.cur with
    | none => .error .nullNode
    | some c =>
      let npos := s.position % s.baseSize
      match s.nodes.drop c with
      | [] => .error .nullNode
      | node :: rest =>
        match writeLoop (node :: rest) npos (node.length - npos) s.position buf with
        | .error f => .error f
        | .ok (chain, position, moved) => .ok
          { s with
            nodes := s.nodes.take c ++ chain
            cur := s.nodeAt (c + moved)
            position
            size := if position > s.size then position else s.size }

/-- The loop of `read` over the chain from the current node on. -/
def readLoop : List (List UInt8) → (npos ncap position size : Nat) → Except Fault (List UInt8 × Nat × Nat)
  | _, _, _, position, 0 => .ok ([], position, 0)
  | [], _, _, _, _ + 1 => .error .nullNode
  | node :: rest, npos, ncap, position, size =>
    if ncap ≥ size then
      .ok ((node.drop npos).take size, position + size, if node.length = npos + size then 1 else 0)
    else
      match rest with
      | [] => .error .nullNode
      | next :: _ =>
        match readLoop rest 0 next.length (position + ncap) (size - ncap) with
        | .error f => .error f
        | .ok (buf, position, moved) => .ok ((node.drop npos).take ncap ++ buf, position, moved + 1)

/-- `ByteArray::read(buf, size)`: the bytes and the state after. The current node's size is read
before the loop, also when nothing is to be read. -/
def read (size : Nat) : Except Fault (List UInt8 × ByteArray) :=
  if size > s.getReadSize then .error .outOfRange
  else
    match s.cur with
    | none => .error .nullNode
    | some c =>
      let npos := s.position % s.baseSize
      match s.nodes.drop c with
      | [] => .error .nullNode
      | node :: rest =>
        match readLoop (node :: rest) npos (node.length - npos) s.position size with
        | .error f => .error f
        | .ok (buf, position, moved) => .ok (buf, { s with position, cur := s.nodeAt (c + moved) })

/-- The walk of `setPosition` from the root: the number of the node it ends at. -/
def seek : List (List UInt8) → (v i : Nat) → Except Fault Nat
  | [], _, _ => .error .nullNode
  | node :: rest, v, i =>
    if v > node.length then seek rest (v - node.length) (i + 1)
    else .ok (if v = node.length then i + 1 else i)

/-- `ByteArray::setPosition(v)`. -/
def setPosition (v : Nat) : Except Fault ByteArray :=
  if v > s.capacity then .error .outOfRange
  else
    match seek s.nodes v 0 with
    | .error f => .error f
    | .ok i => .ok { s with position := v, size := if v > s.size then v else s.size, cur := s.nodeAt i }

/-- `ByteArray::clear()`: the root keeps its bytes, the other nodes are freed. -/
def clear : ByteArray :=
  { s with position := 0, size := 0, capacity := s.baseSize, nodes := s.nodes.take 1, cur := some 0 }

end ByteArray

/-! ## Operations and what they show -/

/-- An operation; a write comes with what the memory it allocates holds. -/
inductive Op
  | write (memory : Nat → UInt8) (buf : List UInt8)
  | read (size : Nat)
  | setPosition (v : Nat)
  | clear

/-- What a caller sees of an operation. -/
inductive Outcome
  | done
  | bytes (buf : List UInt8)
  | threw
  deriving DecidableEq, Repr

/-- An outcome with `getPosition()` and `getSize()` after it. -/
structure Seen where
  outcome : Outcome
  position : Nat
  size : Nat
  deriving DecidableEq, Repr

/-- One operation; an exception leaves the state as it was, a null node ends the process. -/
def exec (s : ByteArray) : Op → Except Fault (ByteArray × Outcome)
  | .write memory buf =>
    match s.write memory buf with
    | .ok s' => .ok (s', .done)
    | .error .outOfRange => .ok (s, .threw)
    | .error .nullNode => .error .nullNode
  | .read size =>
    match s.read size with
    | .ok (buf, s') => .ok (s', .bytes buf)
    | .error .outOfRange => .ok (s, .threw)
    | .error .nullNode => .error .nullNode
  | .setPosition v =>
    match s.setPosition v with
    | .ok s' => .ok (s', .done)
    | .error .outOfRange => .ok (s, .threw)
    | .error .nullNode => .error .nullNode
  | .clear => .ok (s.clear, .done)

/-- What a caller sees of a sequence of operations, up to a crash. -/
def trace (s : ByteArray) : List Op → List (Except Fault Seen)
  | [] => []
  | op :: ops =>
    match exec s op with
    | .error f => [.error f]
    | .ok (s', out) => .ok ⟨out, s'.position, s'.size⟩ :: trace s' ops

end ServerFrame.Buffers
