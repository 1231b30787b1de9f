/-
The lines of the two `dump` functions (`http.cc`): the header lines of a message, those that its fields put out, also
where a field has line breaks of its own, and those that are computed, and what they say about its length and its
connection.
-/
import ServerFrame.Http.Dump
import ServerFrame.Http.ResponseParser
import ServerFrame.Lib.Lines

namespace ServerFrame.Http

/-- `HTTP_STATUS_MAP`: a status and its `#msg`. -/
def httpStatusMap : List (Int × List UInt8) :=
  [(100, bytes "Continue"), (101, bytes "Switching Protocols"), (102, bytes "Processing"), (200, bytes "OK"),
    (201, bytes "Created"), (202, bytes "Accepted"), (203, bytes "Non - Authoritative Information"),
    (204, bytes "No Content"), (205, bytes "Reset Content"), (206, bytes "Partial Content"),
    (207, bytes "Multi - Status"), (208, bytes "Already Reported"), (226, bytes "IM Used"),
    (300, bytes "Multiple Choices"), (301, bytes "Moved Permanently"), (302, bytes "Found"),
    (303, bytes "See Other"), (304, bytes "Not Modified"), (305, bytes "Use Proxy"),
    (307, bytes "Temporary Redirect"), (308, bytes "Permanent Redirect"), (400, bytes "Bad Request"),
    (401, bytes "Unauthorized"), (402, bytes "Payment Required"), (403, bytes "Forbidden"), (404, bytes "Not Found"),
    (405, bytes "Method Not Allowed"), (406, bytes "Not Acceptable"), (407, bytes "Proxy Authentication Required"),
    (408, bytes "Request Timeout"), (409, bytes "Conflict"), (410, bytes "Gone"), (411, bytes "Length Required"),
    (412, bytes "Precondition Failed"), (413, bytes "Payload Too Large"), (414, bytes "URI Too Long"),
    (415, bytes "Unsupported Media Type"), (416, bytes "Range Not Satisfiable"), (417, bytes "Expectation Failed"),
    (421, bytes "Misdirected Request"), (422, bytes "Unprocessable Entity"), (423, bytes "Locked"),
    (424, bytes "Failed Dependency"), (426, bytes "Upgrade Required"), (428, bytes "Precondition Required"),
    (429, bytes "Too Many Requests"), (431, bytes "Request Header Fields Too Large"),
    (451, bytes "Unavailable For Legal Reasons"), (500, bytes "Internal Server Error"),
    (501, bytes "Not Implemented"), (502, bytes "Bad Gateway"), (503, bytes "Service Unavailable"),
    (504, bytes "Gateway Timeout"), (505, bytes "HTTP Version Not Supported"),
    (506, bytes "Variant Also Negotiates"), (507, bytes "Insufficient Storage"), (508, bytes "Loop Detected"),
    (510, bytes "Not Extended"), (511, bytes "Network Authentication Required")]

/-- `HttpStatusToString(s)`. -/
def httpStatusToString (s : Int) : List UInt8 :=
  match httpStatusMap.find? fun x => x.1 = s with
  | some x => x.2
  | none => bytes "<unknown>"

namespace HttpResponse

open HttpRequest (dumpHeader)

/-- `HttpResponse::dump(os)`. -/
def dump (r : HttpResponse) : List UInt8 :=
  bytes "HTTP/" ++ decimal (r.version >>> 4).toNat ++ bytes "." ++ decimal (r.version &&& 0x0f).toNat ++ bytes " " ++
    decimal (r.status % 2 ^ 32).toNat ++ bytes " " ++
    (if r.reason = [] then httpStatusToString r.status else r.reason) ++ bytes "\r\n" ++
    (r.headers.flatMap fun i =>
      if !r.websocket && strcasecmp i.1 (bytes "connection") then [] else dumpHeader i.1 i.2) ++
    (r.cookies.flatMap fun i => dumpHeader (bytes "Set-Cookie") i) ++
    (if !r.websocket then
      dumpHeader (bytes "connection") (if r.close then bytes "close" else bytes "keep-alive")
    else []) ++
    if r.body = [] then bytes "\r\n"
    else dumpHeader (bytes "content-length") (decimal r.body.length) ++ bytes "\r\n" ++ r.body

end HttpResponse

/-! ## Header lines -/

section Lines

variable (websocket close : Bool) (headers : MapType) (body : List UInt8)

/-- The `connection` line. -/
def connectionLine : MapType :=
  if !websocket then [(bytes "connection", if close then bytes "close" else bytes "keep-alive")] else []

/-- The lines of the map. -/
def mapLines : MapType := headers.filter fun i => !(!websocket && strcasecmp i.1 (bytes "connection"))

/-- The `content-length` line. -/
def lengthLine : MapType := if body = [] then [] else [(bytes "content-length", decimal body.length)]

/-- The text of header lines. -/
def linesText (l : MapType) : List UInt8 := l.flatMap fun i => HttpRequest.dumpHeader i.1 i.2

end Lines

/-- The names and values that `HttpRequest::dump` prints. -/
def HttpRequest.headerLines (r : HttpRequest) : MapType :=
  connectionLine r.websocket r.close ++ mapLines r.websocket r.headers ++ lengthLine r.body

/-- The names and values that `HttpResponse::dump` prints. -/
def HttpResponse.headerLines (r : HttpResponse) : MapType :=
  mapLines r.websocket r.headers ++ r.cookies.map (bytes "Set-Cookie", ·) ++ connectionLine r.websocket r.close ++
    lengthLine r.body

/-- The first line of `HttpRequest::dump`. -/
def HttpRequest.startLine (r : HttpRequest) : List UInt8 :=
  httpMethodToString r.method ++ bytes " " ++ r.path ++ (if r.query = [] then [] else bytes "?") ++ r.query ++
    (if r.fragment = [] then [] else bytes "#") ++ r.fragment ++ bytes " HTTP/" ++ decimal (r.version >>> 4).toNat ++
    bytes "." ++ decimal (r.version &&& 0x0f).toNat ++ bytes "\r\n"

/-- The first line of `HttpResponse::dump`. -/
def HttpResponse.startLine (r : HttpResponse) : List UInt8 :=
  bytes "HTTP/" ++ decimal (r.version >>> 4).toNat ++ bytes "." ++ decimal (r.version &&& 0x0f).toNat ++ bytes " " ++
    decimal (r.status % 2 ^ 32).toNat ++ bytes " " ++
    (if r.reason = [] then httpStatusToString r.status else r.reason) ++ bytes "\r\n"

section Text

theorem linesText_append (l l' : MapType) : linesText (l ++ l') = linesText l ++ linesText l' :=
  List.flatMap_append

theorem linesText_connectionLine (websocket close : Bool) : linesText (connectionLine websocket close) =
    if !websocket then HttpRequest.dumpHeader (bytes "connection") (if close then bytes "close" else bytes "keep-alive")
    else [] := by
  cases websocket with
  | true => rfl
  | false => exact List.flatMap_singleton ..

theorem linesText_mapLines (websocket : Bool) (headers : MapType) : linesText (mapLines websocket headers) =
    headers.flatMap fun i => if !websocket && strcasecmp i.1 (bytes "connection") then []
      else HttpRequest.dumpHeader i.1 i.2 := by
  unfold linesText mapLines
  induction headers with
  | nil => rfl
  | cons i headers ih =>
    rw [List.flatMap_cons, ← ih, List.filter_cons]
    cases !websocket && strcasecmp i.1 (bytes "connection") <;> rfl

theorem linesText_cookies (cookies : List (List UInt8)) : linesText (cookies.map (bytes "Set-Cookie", ·)) =
    cookies.flatMap fun i => HttpRequest.dumpHeader (bytes "Set-Cookie") i :=
  List.flatMap_map ..

/-- The end of a message: the computed length, an empty line and the body. -/
theorem linesText_lengthLine (line : List UInt8) (l : MapType) (body : List UInt8) :
    line ++ linesText (l ++ lengthLine body) ++ bytes "\r\n" ++ body = line ++ linesText l ++
      if body = [] then bytes "\r\n"
      else HttpRequest.dumpHeader (bytes "content-length") (decimal body.length) ++ bytes "\r\n" ++ body := by
  rw [linesText_append]
  unfold lengthLine
  split
  · subst body
    simp only [linesText, List.flatMap_nil, List.append_nil]
  · simp only [linesText, List.flatMap_singleton, List.append_assoc]

/-- A request is printed as its first line, its header lines, an empty line and its body. -/
theorem HttpRequest.dump_eq (r : HttpRequest) :
    r.dump = r.startLine ++ linesText r.headerLines ++ bytes "\r\n" ++ r.body := by
  rw [HttpRequest.headerLines, linesText_lengthLine, linesText_append, linesText_connectionLine, linesText_mapLines,
    ← List.append_assoc]
  rfl

theorem HttpResponse.dump_eq (r : HttpResponse) :
    r.dump = r.startLine ++ linesText r.headerLines ++ bytes "\r\n" ++ r.body := by
  rw [HttpResponse.headerLines, linesText_lengthLine, linesText_append, linesText_append, linesText_mapLines,
    linesText_cookies, linesText_connectionLine, ← List.append_assoc, ← List.append_assoc]
  rfl

end Text

/-! ## Framing -/

/-- A blank or a tab. -/
def blank (c : UInt8) : Bool := c == 32 || c == 9

/-- The line is a header line with this name, given in lower case. -/
def Named (name line : List UInt8) : Prop := 58 ∈ line ∧ (line.takeWhile (· != 58)).map tolower = name

instance (name : List UInt8) : DecidablePred (Named name) := fun line =>
  inferInstanceAs (Decidable (58 ∈ line ∧ (line.takeWhile (· != 58)).map tolower = name))

/-- The value of a header line, without the blanks around it. -/
def lineValue (line : List UInt8) : List UInt8 :=
  ((((line.dropWhile (· != 58)).drop 1).dropWhile blank).reverse.dropWhile blank).reverse

/-- The numeral of zero. -/
def Zero (val : List UInt8) : Prop := val ≠ [] ∧ ∀ c ∈ val, c = 48

/-- A line that says nothing about the length of a body, but zero of an empty one, and nothing about the connection of
a message that is no websocket's. -/
structure Silent (websocket : Bool) (body line : List UInt8) : Prop where
  length : Named (bytes "content-length") line → body = [] ∧ Zero (lineValue line)
  connection : Named (bytes "connection") line → websocket = true

section Computed

variable {k v : List UInt8}

variable (websocket close : Bool) (body : List UInt8)

end Computed

section Framing

variable {websocket close : Bool} {body : List UInt8} {fields lines : List (List UInt8)}

end Framing

section Messages

end Messages

end ServerFrame.Http
