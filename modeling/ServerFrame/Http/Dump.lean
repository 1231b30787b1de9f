/-
`HttpRequest::dump` (`http.cc`): what `HttpConnection::sendRequest` puts on the wire.
-/
import ServerFrame.Http.Session
import ServerFrame.Lib.Words

namespace ServerFrame.Http

/-- `HttpMethodToString(m)`. -/
def httpMethodToString (m : HttpMethod) : List UInt8 :=
  match httpMethodMap.find? fun x => x.1 = m with
  | some x => x.2
  | none => bytes "<unknown>"

/-- A number as `operator<<` prints it. -/
def decimal (n : Nat) : List UInt8 := bytes (toString n)

theorem decimal_digits (n : Nat) : ∀ c ∈ decimal n, 48 ≤ c.toNat ∧ c.toNat ≤ 57 := by
  intro c hc
  obtain ⟨d, hd, rfl⟩ := List.mem_map.1 hc
  rw [Nat.toString_eq_repr, Nat.toList_repr] at hd
  have hisDigit := Nat.isDigit_of_mem_toDigits (by decide) (by decide) hd
  simp only [Char.isDigit, Bool.and_eq_true, decide_eq_true_eq, UInt32.le_iff_toNat_le] at hisDigit
  obtain ⟨hlo, hhi⟩ := hisDigit
  have hlo' : 48 ≤ d.toNat := hlo
  have hhi' : d.toNat ≤ 57 := hhi
  have hnat : (UInt8.ofNat d.toNat).toNat = d.toNat := UInt8.toNat_ofNat_of_lt' (Nat.lt_of_le_of_lt hhi' (by decide))
  rw [hnat]
  exact ⟨hlo', hhi'⟩

/-- `strcasecmp(a, b) == 0`. -/
def strcasecmp (a b : List UInt8) : Bool := folded a = folded b

namespace HttpRequest

/-- A header line. -/
def dumpHeader (key val : List UInt8) : List UInt8 := key ++ bytes ": " ++ val ++ bytes "\r\n"

/-- The value of the `connection` line. -/
def connection (r : HttpRequest) : List UInt8 := if r.close then bytes "close" else bytes "keep-alive"

/-- `HttpRequest::dump(os)`. -/
def dump (r : HttpRequest) : List UInt8 :=
  httpMethodToString r.method ++ bytes " " ++ r.path ++ (if r.query = [] then [] else bytes "?") ++ r.query ++
    (if r.fragment = [] then [] else bytes "#") ++ r.fragment ++ bytes " HTTP/" ++ decimal (r.version >>> 4).toNat ++
    bytes "." ++ decimal (r.version &&& 0x0f).toNat ++ bytes "\r\n" ++
    (if !r.websocket then dumpHeader (bytes "connection") r.connection else []) ++
    (r.headers.flatMap fun i =>
      if !r.websocket && strcasecmp i.1 (bytes "connection") then [] else dumpHeader i.1 i.2) ++
    if r.body = [] then bytes "\r\n"
    else dumpHeader (bytes "content-length") (decimal r.body.length) ++ bytes "\r\n" ++ r.body

/-- The headers as a receiver should see them: those of the request and the lines that `dump` adds. -/
def sentHeaders (r : HttpRequest) : MapType :=
  let headers := r.headers.assign (bytes "connection") r.connection
  if r.body = [] then headers else headers.assign (bytes "content-length") (decimal r.body.length)

/-- The requests in question: the method is one of the table, the version 1.0 or 1.1; path, query and fragment are of
the grammar; the names of the headers, ordered as the map has them, are tokens, and their values hold neither a line
break nor a leading blank. -/
structure Sendable (relaxed : Bool) (r : HttpRequest) : Prop where
  method : r.method ≠ .invalidMethod
  version : r.version = 0x10 ∨ r.version = 0x11
  websocket : r.websocket = false
  path : (Grammar.relativePart relaxed 0).1.accepts r.path = true
  query : (Grammar.query relaxed 0).1.accepts r.query = true
  fragment : (Grammar.fragment relaxed 0).1.accepts r.fragment = true
  ordered : OrderedSet.Ordered CaseInsensitiveLess Prod.fst r.headers
  names : ∀ h ∈ r.headers, h.1 ≠ [] ∧ (∀ c ∈ h.1, Grammar.token.has c = true) ∧
    strcasecmp h.1 (bytes "connection") = false ∧ strcasecmp h.1 (bytes "content-length") = false
  values : ∀ h ∈ r.headers, 13 ∉ h.2 ∧ 10 ∉ h.2 ∧ h.2.head? ≠ some 32 ∧ h.2.head? ≠ some 9

/-- The request that is returned has what the request that was sent had. -/
structure Kept (r q : HttpRequest) : Prop where
  method : q.method = r.method
  path : q.path = r.path
  query : q.query = r.query
  fragment : q.fragment = r.fragment
  version : q.version = r.version
  body : q.body = r.body
  close : q.close = r.close
  headers : q.headers = r.sentHeaders

/-- A session that gets the bytes of `dump` in one read returns the request. -/
def RoundTrips (env : Env) (r : HttpRequest) : Prop :=
  ∃ q s, HttpSession.recvRequest env { input := [r.dump] } = .ok (some q, s) ∧ r.Kept q

end HttpRequest

end ServerFrame.Http
