/-
`http_parser` (`http11_parser.h`, the functions of `http11_parser.rl`) and `HttpRequestParser`
(`http_parser.cc`). A buffer is the memory from its first byte on, whatever it holds past the bytes
that were read, and a pointer into it an offset. A parser under construction is given as the object
was before, since the constructor and `http_parser_init` leave `m_error`, `query_start` and
`uri_relaxed` as they were. The log lines of the callbacks are left out.
-/
import ServerFrame.Http.Grammar
import ServerFrame.Http.Request

namespace ServerFrame.Http

open Ragel

/-- How a call ends that does not return: a failed `assert`, or the exception of a string too long. -/
inductive Fault
  | assertion
  | lengthError
deriving DecidableEq, Repr

/-- The value of a `size_t` as an `int`. -/
def toInt (n : Nat) : Int := (n : Int).bmod (2 ^ 32)

/-- The `length` bytes of the buffer from `at` on. -/
def slice (buffer : Nat → UInt8) (start length : Nat) : List UInt8 :=
  (List.range length).map fun i => buffer (start + i)

/-- `std::string(buffer + start, length)`. -/
def mkString (buffer : Nat → UInt8) (start length : Nat) : Except Fault (List UInt8) :=
  if length < 2 ^ 63 then .ok (slice buffer start length) else .error .lengthError

/-- `LEN(AT, FPC)` as the `size_t` it is passed as. -/
def len (at' fpc : Nat) : Nat := if at' ≤ fpc then fpc - at' else 2 ^ 64 - (at' - fpc)

/-! ## The parser -/

/-- `http_parser`, without the callbacks and their `data`, which never change. -/
structure HttpParser where
  cs : State Action
  bodyStart : Nat
  contentLen : Int
  nread : Nat
  mark : Nat
  fieldStart : Nat
  fieldLen : Nat
  queryStart : Nat
  xmlSent : Bool
  jsonSent : Bool
  uriRelaxed : Bool
deriving DecidableEq

namespace HttpParser

/-- `http_parser_init`. -/
def init (parser : HttpParser) : HttpParser :=
  { parser with
    cs := (Grammar.main parser.uriRelaxed).start
    bodyStart := 0
    contentLen := 0
    mark := 0
    nread := 0
    fieldLen := 0
    fieldStart := 0
    xmlSent := false
    jsonSent := false }

/-- The registers as `http_parser_execute` starts with them. -/
def reset (parser : HttpParser) : HttpParser := { parser with nread := 0, mark := 0, fieldLen := 0, fieldStart := 0 }

/-- `http_parser_has_error`. -/
def hasError (parser : HttpParser) : Bool := parser.cs.isEmpty

/-- `http_parser_is_finished`. -/
def isFinished (parser : HttpParser) : Bool := parser.cs.final

end HttpParser

/-- `HttpRequestParser`. -/
structure HttpRequestParser where
  parser : HttpParser
  data : HttpRequest
  error : Int
deriving DecidableEq

namespace HttpRequestParser

/-- `HttpRequestParser()` over what the object was before. -/
def new (object : HttpRequestParser) : HttpRequestParser :=
  { object with data := {}, parser := object.parser.init }

def setError (h : HttpRequestParser) (v : Int) : HttpRequestParser := { h with error := v }

/-! ## Callbacks -/

section Callbacks

variable (h : HttpRequestParser) (buffer : Nat → UInt8)

def onRequestMethod (start : Nat) : HttpRequestParser :=
  let m := charsToHttpMethod fun i => buffer (start + i)
  if m = .invalidMethod then h.setError 1000 else { h with data := { h.data with method := m } }

def onRequestFragment (start length : Nat) : Except Fault HttpRequestParser := do
  return { h with data := { h.data with fragment := ← mkString buffer start length } }

def onRequestPath (start length : Nat) : Except Fault HttpRequestParser := do
  return { h with data := { h.data with path := ← mkString buffer start length } }

def onRequestQuery (start length : Nat) : Except Fault HttpRequestParser := do
  return { h with data := { h.data with query := ← mkString buffer start length } }

def onRequestVersion (start length : Nat) : HttpRequestParser :=
  let text : Nat → UInt8 := fun i => buffer (start + i)
  if strncmp length text (cstr (bytes "HTTP/1.1")) then { h with data := { h.data with version := 0x11 } }
  else if strncmp length text (cstr (bytes "HTTP/1.0")) then { h with data := { h.data with version := 0x10 } }
  else h.setError 1001

def onRequestHttpField (field flen value vlen : Nat) : Except Fault HttpRequestParser := do
  if flen = 0 then return h
  return { h with data := h.data.setHeader (← mkString buffer field flen) (← mkString buffer value vlen) }

end Callbacks

/-! ## The machine at work -/

section Exec

variable (buffer : Nat → UInt8)

/-- An action at the byte `fpc`. The callbacks `on_request_uri` and `on_request_header_done` do
nothing. -/
def act (fpc : Nat) (h : HttpRequestParser) : Action → Except Fault HttpRequestParser
  | .mark | .startValue => .ok { h with parser := { h.parser with mark := fpc } }
  | .startField => .ok { h with parser := { h.parser with fieldStart := fpc } }
  | .writeField => .ok { h with parser := { h.parser with fieldLen := len h.parser.fieldStart fpc } }
  | .writeValue =>
    h.onRequestHttpField buffer h.parser.fieldStart h.parser.fieldLen h.parser.mark (len h.parser.mark fpc)
  | .requestMethod => .ok (h.onRequestMethod buffer h.parser.mark)
  | .requestUri => .ok h
  | .fragment => h.onRequestFragment buffer h.parser.mark (len h.parser.mark fpc)
  | .startQuery => .ok { h with parser := { h.parser with queryStart := fpc } }
  | .queryString => h.onRequestQuery buffer h.parser.queryStart (len h.parser.queryStart fpc)
  | .httpVersion => .ok (h.onRequestVersion buffer h.parser.mark (len h.parser.mark fpc))
  | .requestPath => h.onRequestPath buffer h.parser.mark (len h.parser.mark fpc)
  | .done =>
    if h.parser.xmlSent || h.parser.jsonSent then
      .ok { h with
        parser := { h.parser with
          bodyStart := h.parser.mark, contentLen := toInt (len h.parser.mark fpc + 1) } }
    else .ok { h with parser := { h.parser with bodyStart := fpc + 1 } }
  | .xml => .ok { h with parser := { h.parser with xmlSent := true } }
  | .json => .ok { h with parser := { h.parser with jsonSent := true } }

/-- The actions of one transition, up to the `fbreak` of `done`. -/
def acts (fpc : Nat) : HttpRequestParser → List Action → Except Fault (HttpRequestParser × Bool)
  | h, [] => .ok (h, false)
  | h, a :: as =>
    match h.act buffer fpc a with
    | .error f => .error f
    | .ok h => if a = .done then .ok (h, true) else acts fpc h as

/-- `write exec`: the next `n` bytes from `p` on. It returns the state and the place where it stopped,
which is before the byte on which the machine fails. -/
def exec : (n p : Nat) → State Action → HttpRequestParser → Except Fault (HttpRequestParser × State Action × Nat)
  | 0, p, cs, h => .ok (h, cs, p)
  | n + 1, p, cs, h =>
    if (cs.step (buffer p)).isEmpty then .ok (h, [], p)
    else
      match h.acts buffer p (cs.acts (buffer p)) with
      | .error f => .error f
      | .ok (h, true) => .ok (h, cs.step (buffer p), p + 1)
      | .ok (h, false) => exec n (p + 1) (cs.step (buffer p)) h

/-- `http_parser_execute(parser, buffer, len, off)`: the parser and `nread`. -/
def parserExecute (h : HttpRequestParser) (len off : Nat) : Except Fault (HttpRequestParser × Nat) :=
  if len = 0 then .ok (h, 0)
  else if ¬ off ≤ len then .error .assertion
  else if (len : Int) - off ≠ toInt len - toInt off then .error .assertion
  else
    match exec buffer (len - off) off h.parser.cs { h with parser := h.parser.reset } with
    | .error f => .error f
    | .ok (h, cs, p) =>
      let parser := { h.parser with cs := if h.parser.hasError then h.parser.cs else cs, nread := p - off }
      if parser.nread ≤ len ∧ parser.bodyStart ≤ len ∧ parser.mark < len ∧ parser.fieldLen ≤ len ∧
          parser.fieldStart < len then
        .ok ({ h with parser := parser }, parser.nread)
      else .error .assertion

end Exec

/-- `memmove(data, data + offset, n)`. -/
def memmove (data : Nat → UInt8) (offset n : Nat) : Nat → UInt8 := fun i => if i < n then data (i + offset) else data i

/-- `HttpRequestParser::execute(data, len)`: the parser, the buffer and the number of bytes parsed. -/
def execute (h : HttpRequestParser) (data : Nat → UInt8) (len : Nat) :
    Except Fault (HttpRequestParser × (Nat → UInt8) × Nat) := do
  let (h, offset) ← h.parserExecute data len 0
  return (h, memmove data offset (len - offset), offset)

def isFinished (h : HttpRequestParser) : Bool := h.parser.isFinished

def hasError (h : HttpRequestParser) : Bool := h.error != 0 || h.parser.hasError

def getContentLength (cast : List UInt8 → Option UInt64) (h : HttpRequestParser) : UInt64 :=
  h.data.getHeaderAs cast (bytes "content-length") 0

end HttpRequestParser

end ServerFrame.Http
