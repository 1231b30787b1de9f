/-
`httpclient_parser` (`httpclient_parser.h`, the functions of `httpclient_parser.rl`) and `HttpResponseParser`
(`http_parser.cc`), over memory and offsets as the parser of requests. The constructor and
`httpclient_parser_init` leave `m_error` and `status` as the memory of the object had them.
-/
import ServerFrame.Http.ClientGrammar
import ServerFrame.Http.Parser
import ServerFrame.Lib.Firsts
import ServerFrame.Lib.Strtol

namespace ServerFrame.Http

open Ragel CLib

/-! ## The response -/

/-- `HttpResponse`, with what its constructor leaves. -/
structure HttpResponse where
  status : Int := 200
  version : UInt8 := 0x11
  close : Bool := true
  websocket : Bool := false
  body : List UInt8 := []
  reason : List UInt8 := []
  headers : MapType := []
  cookies : List (List UInt8) := []
deriving DecidableEq, Repr

namespace HttpResponse

def setHeader (r : HttpResponse) (key val : List UInt8) : HttpResponse :=
  { r with headers := r.headers.assign key val }

/-- `getHeaderAs<uint64_t>(key, def)`. -/
def getHeaderAs (cast : List UInt8 → Option UInt64) (r : HttpResponse) (key : List UInt8) (default : UInt64) : UInt64 :=
  match r.headers.find key with
  | none => default
  | some val => (cast val).getD default

end HttpResponse

/-! ## The parser -/

/-- How a call ends that does not return: as a call of the other parser does, by a copy that starts before the
buffer, or by an overflow of an `int`. -/
inductive ClientFault
  | abort (f : Fault)
  | outOfBounds
  | overflow
deriving DecidableEq, Repr

/-- `httpclient_parser`, without the callbacks and their `data`, which never change. -/
structure ClientParser where
  cs : State ClientAction
  bodyStart : Nat
  contentLen : Int
  status : Int
  chunked : Bool
  chunksDone : Bool
  close : Bool
  nread : Nat
  mark : Nat
  fieldStart : Nat
  fieldLen : Nat
deriving DecidableEq

/-- `httpclient_parser_first_final`: of the final states the one that has no transition, and so the first that the
compiler numbers. -/
def firstFinal (cs : State ClientAction) : Bool := cs.final && cs.all fun e => e.firsts == 0#256

namespace ClientParser

/-- `httpclient_parser_init`. -/
def init (parser : ClientParser) : ClientParser :=
  { parser with
    cs := ClientGrammar.main.start
    bodyStart := 0
    contentLen := -1
    chunked := false
    chunksDone := false
    mark := 0
    nread := 0
    fieldLen := 0
    fieldStart := 0
    close := false }

/-- The registers as `httpclient_parser_execute` starts with them. -/
def reset (parser : ClientParser) :
    ClientParser := { parser with nread := 0, mark := 0, fieldLen := 0, fieldStart := 0 }

/-- `httpclient_parser_has_error`. -/
def hasError (parser : ClientParser) : Bool := parser.cs.isEmpty

/-- `httpclient_parser_is_finished`. -/
def isFinished (parser : ClientParser) : Bool := firstFinal parser.cs

end ClientParser

/-- `HttpResponseParser`. -/
structure HttpResponseParser where
  parser : ClientParser
  data : HttpResponse
  error : Int
deriving DecidableEq

namespace HttpResponseParser

/-- `HttpResponseParser()` over what the object was before. -/
def new (object : HttpResponseParser) : HttpResponseParser :=
  { object with data := {}, parser := object.parser.init }

def setError (h : HttpResponseParser) (v : Int) : HttpResponseParser := { h with error := v }

/-! ## Callbacks -/

section Callbacks

variable (h : HttpResponseParser) (buffer : Nat → UInt8)

def onResponseReason (start length : Nat) : Except Fault HttpResponseParser := do
  return { h with data := { h.data with reason := ← mkString buffer start length } }

def onResponseStatus (start pe : Nat) : HttpResponseParser :=
  { h with data := { h.data with status := strtol 10 buffer start pe } }

def onResponseVersion (start length : Nat) : HttpResponseParser :=
  let text : Nat → UInt8 := fun i => buffer (start + i)
  if strncmp length text (cstr (bytes "HTTP/1.1")) then { h with data := { h.data with version := 0x11 } }
  else if strncmp length text (cstr (bytes "HTTP/1.0")) then { h with data := { h.data with version := 0x10 } }
  else h.setError 1001

def onResponseHttpField (field flen value vlen : Nat) : Except Fault HttpResponseParser := do
  if flen = 0 then return h
  return { h with data := h.data.setHeader (← mkString buffer field flen) (← mkString buffer value vlen) }

end Callbacks

/-! ## The machine at work -/

section Exec

variable (buffer : Nat → UInt8) (pe : Nat)

/-- An action at the byte `fpc`. The callbacks for chunks and for the end of the header do nothing. -/
def act (fpc : Nat) (h : HttpResponseParser) : ClientAction → Except Fault HttpResponseParser
  | .mark | .startValue => .ok { h with parser := { h.parser with mark := fpc } }
  | .startField => .ok { h with parser := { h.parser with fieldStart := fpc } }
  | .writeField => .ok { h with parser := { h.parser with fieldLen := len h.parser.fieldStart fpc } }
  | .writeContentLen => .ok { h with parser := { h.parser with contentLen := strtol 10 buffer h.parser.mark pe } }
  | .writeConnectionClose => .ok { h with parser := { h.parser with close := true } }
  | .writeValue =>
    h.onResponseHttpField buffer h.parser.fieldStart h.parser.fieldLen h.parser.mark (len h.parser.mark fpc)
  | .reasonPhrase => h.onResponseReason buffer h.parser.mark (len h.parser.mark fpc)
  | .statusCode =>
    .ok ({ h with parser := { h.parser with status := strtol 10 buffer h.parser.mark pe } }.onResponseStatus buffer
      h.parser.mark pe)
  | .httpVersion => .ok (h.onResponseVersion buffer h.parser.mark (len h.parser.mark fpc))
  | .chunkSize =>
    let contentLen := strtol 16 buffer h.parser.mark pe
    .ok { h with parser := { h.parser with chunked := true, contentLen, chunksDone := contentLen ≤ 0 } }
  | .transChunked => .ok { h with parser := { h.parser with chunked := true } }
  | .done => .ok { h with parser := { h.parser with bodyStart := fpc + 1 } }

/-- The actions of one transition, up to the `fbreak` of `done`. -/
def acts (fpc : Nat) : HttpResponseParser → List ClientAction → Except Fault (HttpResponseParser × Bool)
  | h, [] => .ok (h, false)
  | h, a :: as =>
    match h.act buffer pe fpc a with
    | .error f => .error f
    | .ok h => if a = .done then .ok (h, true) else acts fpc h as

/-- `write exec`: the next `n` bytes from `p` on. It returns the state and the place where it stopped,
which is before the byte on which the machine fails. -/
def exec : (n p : Nat) → State ClientAction → HttpResponseParser →
    Except Fault (HttpResponseParser × State ClientAction × Nat)
  | 0, p, cs, h => .ok (h, cs, p)
  | n + 1, p, cs, h =>
    if (cs.step (buffer p)).isEmpty then .ok (h, [], p)
    else
      match h.acts buffer pe p (cs.acts (buffer p)) with
      | .error f => .error f
      | .ok (h, true) => .ok (h, cs.step (buffer p), p + 1)
      | .ok (h, false) => exec n (p + 1) (cs.step (buffer p)) h

/-- `httpclient_parser_execute(parser, buffer, len, off)`: the parser and its result, `none` for -1. -/
def parserExecute (h : HttpResponseParser) (off : Nat) : Except Fault (HttpResponseParser × Option Nat) :=
  if ¬ off ≤ pe then .error .assertion
  else if buffer pe ≠ 0 then .error .assertion
  else if (pe : Int) - off ≠ toInt pe - toInt off then .error .assertion
  else
    match exec buffer pe (pe - off) off h.parser.cs { h with parser := h.parser.reset } with
    | .error f => .error f
    | .ok (h, cs, p) =>
      let parser := { h.parser with cs, nread := p - off }
      if parser.nread ≤ pe ∧ parser.bodyStart ≤ pe then
        let checked := parser.mark < pe ∧ parser.fieldLen ≤ pe ∧ parser.fieldStart < pe
        .ok ({ h with parser }, if checked then some parser.nread else none)
      else .error .assertion

end Exec

/-- `HttpResponseParser::execute(data, len, chunck)`: the parser, the buffer and the number of bytes parsed. -/
def execute (h : HttpResponseParser) (data : Nat → UInt8) (len : Nat) (chunck : Bool) :
    Except ClientFault (HttpResponseParser × (Nat → UInt8) × Nat) :=
  let h := if chunck then { h with parser := h.parser.init } else h
  match h.parserExecute data len 0 with
  | .error f => .error (.abort f)
  | .ok (_, none) => .error .outOfBounds
  | .ok (h, some offset) => .ok (h, HttpRequestParser.memmove data offset (len - offset), offset)

def isFinished (h : HttpResponseParser) : Bool := h.parser.isFinished

def hasError (h : HttpResponseParser) : Bool := h.error != 0 || h.parser.hasError

def getContentLength (cast : List UInt8 → Option UInt64) (h : HttpResponseParser) : UInt64 :=
  h.data.getHeaderAs cast (bytes "content-length") 0

end HttpResponseParser

end ServerFrame.Http
