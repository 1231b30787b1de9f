/-
`HttpConnection::recvResponse` (`http_connection.cc`) over the streams of `recvRequest`, with a body of a given length
or in chunks. What it prints and logs is left out.
-/
import ServerFrame.Http.ResponseParser
import ServerFrame.Http.Session

namespace ServerFrame.Http

/-- An `int` as a `size_t`. -/
def sizeT (n : Int) : Nat := (n % 2 ^ 64).toNat

namespace HttpConnection

/-- What a call of `recvResponse` finds: the configured buffer size, what the memory of the new buffer and of the new
parser holds, and `boost::lexical_cast<uint64_t>`. -/
structure Env where
  bufferSize : Nat
  memory : Nat → UInt8
  object : HttpResponseParser
  cast : List UInt8 → Option UInt64

/-- The buffer after a read of `piece` behind `len` bytes and `data[len] = '\0'`. -/
def fill (data : Nat → UInt8) (len : Nat) (piece : List UInt8) : Nat → UInt8 :=
  store (store data len piece) (len + piece.length) [0]

/-- The first `do` loop, every turn of which reads at least one byte: the parser, the buffer and `offset` at its
`break`. -/
def recvLoop (buffSize : Nat) : Nat → HttpResponseParser → (Nat → UInt8) → Nat → Session →
    Except ClientFault (Option (HttpResponseParser × (Nat → UInt8) × Nat) × Session)
  | 0, _, _, _, s => .ok (none, s)
  | turns + 1, parser, data, offset, s =>
    let piece := (s.read (buffSize - offset)).1
    let s := (s.read (buffSize - offset)).2
    if piece = [] then .ok (none, s.close)
    else
      let len := offset + piece.length
      match parser.execute (fill data offset piece) len false with
      | .error f => .error f
      | .ok (parser, data, nparse) =>
        if parser.hasError then .ok (none, s.close)
        else
          let offset := len - nparse
          if (offset : Int) = toInt buffSize then .ok (none, s.close)
          else if parser.isFinished then .ok (some (parser, data, offset), s)
          else recvLoop buffSize turns parser data offset s

/-! ## Chunks -/

/-- The inner `do` loop: the parser, the buffer and `len` when a line with the size of a chunk has been parsed. Every
turn but the first reads at least one byte. -/
def sizeLoop (buffSize : Nat) : Nat → Bool → HttpResponseParser → (Nat → UInt8) → Nat → Session →
    Except ClientFault (Option (HttpResponseParser × (Nat → UInt8) × Nat) × Session)
  | 0, _, _, _, _, s => .ok (none, s)
  | turns + 1, begin, parser, data, len, s =>
    let reads := !begin || len == 0
    let piece := if reads then (s.read (buffSize - len)).1 else []
    let s := if reads then (s.read (buffSize - len)).2 else s
    if reads ∧ piece = [] then .ok (none, s.close)
    else
      match parser.execute (fill data len piece) (len + piece.length) true with
      | .error f => .error f
      | .ok (parser, data, nparse) =>
        if parser.hasError then .ok (none, s.close)
        else
          let len := len + piece.length - nparse
          if (len : Int) = toInt buffSize then .ok (none, s.close)
          else if parser.isFinished then .ok (some (parser, data, len), s)
          else sizeLoop buffSize turns false parser data len s

/-- The loop that reads what is `left` of a chunk and its line end: the buffer and the body. -/
def payloadLoop (buffSize : Nat) : Nat → Int → (Nat → UInt8) → List UInt8 → Session →
    Option ((Nat → UInt8) × List UInt8) × Session
  | 0, _, _, _, s => (none, s)
  | turns + 1, left, data, body, s =>
    if left ≤ 0 then (some (data, body), s)
    else
      let length := sizeT (if left > toInt buffSize then toInt buffSize else left)
      match s.read length with
      | ([], s) => (none, s.close)
      | (piece, s) => payloadLoop buffSize turns (left - piece.length) (store data 0 piece) (body ++ piece) s

/-- A chunk after its size line, and its line end: the buffer, `len` and the body. -/
def chunk (buffSize : Nat) (contentLen : Int) (data : Nat → UInt8) (len : Nat) (body : List UInt8) (s : Session) :
    Except ClientFault (Option ((Nat → UInt8) × Nat × List UInt8) × Session) :=
  if 2 ^ 31 ≤ contentLen + 2 then .error .overflow
  else if contentLen + 2 ≤ len then
    match mkString data 0 (sizeT contentLen) with
    | .error f => .error (.abort f)
    | .ok payload =>
      let n := contentLen.toNat + 2
      .ok (some (HttpRequestParser.memmove data n (len - n), len - n, body ++ payload), s)
  else
    let left := contentLen - len + 2
    match payloadLoop buffSize (left.toNat + 1) left data (body ++ slice data 0 len) s with
    | (none, s) => .ok (none, s)
    | (some (data, body), s) =>
      -- `resize` of a body of less than two bytes
      if body.length < 2 then .error (.abort .lengthError)
      else .ok (some (data, 0, body.take (body.length - 2)), s)

/-- The outer `do` loop, every turn of which parses at least one byte: the parser and the body. -/
def chunkLoop (buffSize : Nat) : Nat → HttpResponseParser → (Nat → UInt8) → Nat → List UInt8 → Session →
    Except ClientFault (Option (HttpResponseParser × List UInt8) × Session)
  | 0, _, _, _, _, s => .ok (none, s)
  | turns + 1, parser, data, len, body, s =>
    match sizeLoop buffSize (s.input.flatten.length + 2) true parser data len s with
    | .error f => .error f
    | .ok (none, s) => .ok (none, s)
    | .ok (some (parser, data, len), s) =>
      match chunk buffSize parser.parser.contentLen data len body s with
      | .error f => .error f
      | .ok (none, s) => .ok (none, s)
      | .ok (some (data, len, body), s) =>
        if parser.parser.chunksDone then .ok (some (parser, body), s)
        else chunkLoop buffSize turns parser data len body s

/-! ## The response -/

/-- `parser->getData()` with the body, if there is one. -/
def withBody (data : HttpResponse) (body : List UInt8) : HttpResponse :=
  if body = [] then data else { data with body }

/-- The path of a response that is not in chunks: the body. -/
def recvBody (cast : List UInt8 → Option UInt64) (parser : HttpResponseParser) (data : Nat → UInt8) (offset : Nat)
    (s : Session) : Option HttpResponse × Session :=
  let length := (parser.getContentLength cast).toNat
  -- an `int64_t`, which a length from `2 ^ 63` on makes negative
  if 0 < length ∧ length < 2 ^ 63 then
    if length ≤ offset then (some (withBody parser.data (slice data 0 length)), s)
    else
      match s.readFixSize (length - offset) with
      | (none, s) => (none, s.close)
      | (some rest, s) => (some (withBody parser.data (slice data 0 offset ++ rest)), s)
  else (some (withBody parser.data []), s)

/-- `HttpConnection::recvResponse()`, `none` for `nullptr`. -/
def recvResponse (env : Env) (s : Session) : Except ClientFault (Option HttpResponse × Session) :=
  match recvLoop env.bufferSize (s.input.flatten.length + 1) env.object.new env.memory 0 s with
  | .error f => .error f
  | .ok (none, s) => .ok (none, s)
  | .ok (some (parser, data, offset), s) =>
    if parser.parser.chunked then
      match chunkLoop env.bufferSize (offset + s.input.flatten.length + 1) parser data offset [] s with
      | .error f => .error f
      | .ok (none, s) => .ok (none, s)
      | .ok (some (parser, body), s) => .ok (some (withBody parser.data body), s)
    else .ok (recvBody env.cast parser data offset s)

end HttpConnection

end ServerFrame.Http
