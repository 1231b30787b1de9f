/-
`HttpSession::recvRequest` (`http_session.cc`) over `SocketStream::read` and `Stream::readFixSize`. The
socket is the bytes it will receive, in the pieces in which it hands them out: a read returns the
next piece, or the part of it that was asked for, and nothing once the peer has closed. A result
`<= 0` of a read is the empty piece. Lengths are natural numbers except where the source tests the
sign of an `int` or an `int64_t`.
-/
import ServerFrame.Http.Parser

namespace ServerFrame.Http

/-- `SocketStream`: what is still to be received, and whether the socket is open. -/
structure Session where
  input : List (List UInt8)
  connected : Bool := true
deriving DecidableEq, Repr

namespace Session

/-- `SocketStream::read(buffer, length)`. -/
def read (s : Session) (length : Nat) : List UInt8 × Session :=
  if !s.connected then ([], s)
  else
    match s.input with
    | [] => ([], s)
    | p :: ps => (p.take length, { s with input := if p.length ≤ length then ps else p.drop length :: ps })

def close (s : Session) : Session := { s with connected := false }

/-- The loop of `Stream::readFixSize` with `left` bytes to go, every turn of which reads at least one. -/
def readLoop : Nat → Session → Nat → List UInt8 → Option (List UInt8) × Session
  | 0, s, _, _ => (none, s)
  | turns + 1, s, left, buffer =>
    if left = 0 then (some buffer, s)
    else
      match s.read left with
      | ([], s) => (none, s)
      | (piece, s) => readLoop turns s (left - piece.length) (buffer ++ piece)

/-- `Stream::readFixSize(buffer, length)`: the bytes, where the length it returns as an `int` is positive. -/
def readFixSize (s : Session) (length : Nat) : Option (List UInt8) × Session :=
  match s.readLoop (length + 1) length [] with
  | (none, s) => (none, s)
  | (some buffer, s) => if toInt length ≤ 0 then (none, s) else (some buffer, s)

end Session

/-- What a call of `recvRequest` finds: the configured buffer size, what the memory of the new buffer
and of the new parser holds, and `boost::lexical_cast<uint64_t>`. -/
structure Env where
  bufferSize : Nat
  memory : Nat → UInt8
  object : HttpRequestParser
  cast : List UInt8 → Option UInt64

/-- The buffer after `read` has stored a piece at `offset`. -/
def store (data : Nat → UInt8) (offset : Nat) (piece : List UInt8) : Nat → UInt8 := fun i =>
  if offset ≤ i ∧ i < offset + piece.length then piece.getD (i - offset) 0 else data i

namespace HttpSession

/-- The `do` loop of `recvRequest`, every turn of which reads at least one byte: the parser, the buffer
and `offset` at its `break`. -/
def recvLoop (buffSize : Nat) : Nat → HttpRequestParser → (Nat → UInt8) → Nat → Session →
    Except Fault (Option (HttpRequestParser × (Nat → UInt8) × Nat) × Session)
  | 0, _, _, _, s => .ok (none, s)
  | turns + 1, parser, data, offset, s =>
    let piece := (s.read (buffSize - offset)).1
    let s := (s.read (buffSize - offset)).2
    if piece = [] then .ok (none, s.close)
    else
      let len := offset + piece.length
      match parser.execute (store data offset piece) len with
      | .error f => .error f
      | .ok (parser, data, nparse) =>
        if parser.hasError then .ok (none, s.close)
        else
          let offset := len - nparse
          if (offset : Int) = toInt buffSize then .ok (none, s.close)
          else if parser.isFinished then .ok (some (parser, data, offset), s)
          else recvLoop buffSize turns parser data offset s

/-- What follows the loop: the body. -/
def recvBody (cast : List UInt8 → Option UInt64) (parser : HttpRequestParser) (data : Nat → UInt8) (offset : Nat)
    (s : Session) : Option HttpRequest × Session :=
  let length := (parser.getContentLength cast).toNat
  -- an `int64_t`, which a length from `2 ^ 63` on makes negative
  if 0 < length ∧ length < 2 ^ 63 then
    if length ≤ offset then (some { parser.data with body := slice data 0 length }, s)
    else
      match s.readFixSize (length - offset) with
      | (none, s) => (none, s.close)
      | (some rest, s) => (some { parser.data with body := slice data 0 offset ++ rest }, s)
  else (some parser.data, s)

/-- `HttpSession::recvRequest()`, `none` for `nullptr`. -/
def recvRequest (env : Env) (s : Session) : Except Fault (Option HttpRequest × Session) :=
  match recvLoop env.bufferSize (s.input.flatten.length + 1) env.object.new env.memory 0 s with
  | .error f => .error f
  | .ok (none, s) => .ok (none, s)
  | .ok (some (parser, data, offset), s) => .ok (recvBody env.cast parser data offset s)

end HttpSession

end ServerFrame.Http
