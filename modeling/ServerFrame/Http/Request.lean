/-
`HttpRequest` (`http.h`, `http.cc`) as far as the parser and the session use it. Strings are lists of
bytes; a `char*` is the memory from that place on, and a text in quotes the memory of its bytes with
a NUL after them.
-/
import ServerFrame.Lib.OrderedSet
import Mathlib.Data.List.Lex
import Mathlib.Algebra.Ring.Nat

namespace ServerFrame.Http

/-! ## Strings -/

/-- The bytes of a text in quotes. -/
def bytes (s : String) : List UInt8 := s.toList.map fun c => UInt8.ofNat c.toNat

/-- A text in quotes as a `char*`. -/
def cstr (s : List UInt8) : Nat → UInt8 := fun i => s.getD i 0

/-- `strncmp(a, b, n) == 0`. -/
def strncmp : Nat → (Nat → UInt8) → (Nat → UInt8) → Bool
  | 0, _, _ => true
  | n + 1, a, b => a 0 == b 0 && (a 0 == 0 || strncmp n (fun i => a (i + 1)) (fun i => b (i + 1)))

def tolower (c : UInt8) : UInt8 := if 65 ≤ c ∧ c ≤ 90 then c + 32 else c

/-- The C string of a string without a NUL is all of it. -/
theorem takeWhile_nul {s : List UInt8} (h : 0 ∉ s) : s.takeWhile (· != 0) = s := by
  refine List.takeWhile_eq_self_iff.2 fun c hc => bne_iff_ne.2 ?_
  rintro rfl
  exact h hc

/-- What `strcasecmp` compares of a string: the bytes before the first NUL, in lower case. -/
def folded (s : List UInt8) : List UInt8 := (s.takeWhile (· != 0)).map tolower

/-- `CaseInsensitiveLess`. -/
def CaseInsensitiveLess (lhs rhs : List UInt8) : Prop := folded lhs < folded rhs

instance : DecidableRel CaseInsensitiveLess := fun lhs rhs => inferInstanceAs (Decidable (folded lhs < folded rhs))

/-! ## Methods -/

/-- `HttpMethod`. -/
inductive HttpMethod
  | delete | get | head | post | put
  | connect | options | trace
  | copy | lock | mkcol | move | propfind | proppatch | search | unlock | bind | rebind | unbind | acl
  | report | mkactivity | checkout | merge
  | msearch | notify | subscribe | unsubscribe
  | patch | purge
  | mkcalendar
  | link | unlink
  | source
  | invalidMethod
deriving DecidableEq, Repr

/-- `HTTP_METHOD_MAP`: a method and its `#string`. The preprocessor stringifies `M - SEARCH` with its
blanks. -/
def httpMethodMap : List (HttpMethod × List UInt8) :=
  [(.delete, bytes "DELETE"), (.get, bytes "GET"), (.head, bytes "HEAD"), (.post, bytes "POST"), (.put, bytes "PUT"),
    (.connect, bytes "CONNECT"), (.options, bytes "OPTIONS"), (.trace, bytes "TRACE"),
    (.copy, bytes "COPY"), (.lock, bytes "LOCK"), (.mkcol, bytes "MKCOL"), (.move, bytes "MOVE"),
    (.propfind, bytes "PROPFIND"), (.proppatch, bytes "PROPPATCH"), (.search, bytes "SEARCH"),
    (.unlock, bytes "UNLOCK"), (.bind, bytes "BIND"), (.rebind, bytes "REBIND"), (.unbind, bytes "UNBIND"),
    (.acl, bytes "ACL"),
    (.report, bytes "REPORT"), (.mkactivity, bytes "MKACTIVITY"), (.checkout, bytes "CHECKOUT"),
    (.merge, bytes "MERGE"),
    (.msearch, bytes "M - SEARCH"), (.notify, bytes "NOTIFY"), (.subscribe, bytes "SUBSCRIBE"),
    (.unsubscribe, bytes "UNSUBSCRIBE"),
    (.patch, bytes "PATCH"), (.purge, bytes "PURGE"),
    (.mkcalendar, bytes "MKCALENDAR"),
    (.link, bytes "LINK"), (.unlink, bytes "UNLINK"),
    (.source, bytes "SOURCE")]

/-- `CharsToHttpMethod(m)`: the first method whose whole name stands at `m`. -/
def charsToHttpMethod (m : Nat → UInt8) : HttpMethod :=
  match httpMethodMap.find? fun x => strncmp x.2.length (cstr x.2) m with
  | some x => x.1
  | none => .invalidMethod

/-! ## The request -/

/-- `HttpRequest::MapType`, in the order of its iterators. -/
abbrev MapType := List (List UInt8 × List UInt8)

namespace MapType

/-- `m[key] = val`: an entry whose key differs in case only keeps its key. -/
def assign (key val : List UInt8) (m : MapType) : MapType :=
  OrderedSet.before CaseInsensitiveLess Prod.fst key m ++
    match OrderedSet.lowerBound CaseInsensitiveLess Prod.fst key m with
    | [] => [(key, val)]
    | x :: xs => if CaseInsensitiveLess key x.1 then (key, val) :: x :: xs else (x.1, val) :: xs

/-- The value at `m.find(key)`. -/
def find (key : List UInt8) (m : MapType) : Option (List UInt8) :=
  match OrderedSet.lowerBound CaseInsensitiveLess Prod.fst key m with
  | [] => none
  | x :: _ => if CaseInsensitiveLess key x.1 then none else some x.2

end MapType

/-- `HttpRequest`, with what its constructor leaves; the parameters and cookies, which nothing here
reads, are left out. -/
structure HttpRequest where
  method : HttpMethod := .get
  version : UInt8 := 0x11
  close : Bool := true
  websocket : Bool := false
  path : List UInt8 := bytes "/"
  query : List UInt8 := []
  fragment : List UInt8 := []
  body : List UInt8 := []
  headers : MapType := []
deriving DecidableEq, Repr

namespace HttpRequest

def setHeader (r : HttpRequest) (key val : List UInt8) : HttpRequest :=
  { r with headers := r.headers.assign key val }

/-- `getHeaderAs<uint64_t>(key, def)`, `cast` being `boost::lexical_cast<uint64_t>`, `none` where that
throws. -/
def getHeaderAs (cast : List UInt8 → Option UInt64) (r : HttpRequest) (key : List UInt8) (default : UInt64) : UInt64 :=
  match r.headers.find key with
  | none => default
  | some val => (cast val).getD default

end HttpRequest

end ServerFrame.Http
