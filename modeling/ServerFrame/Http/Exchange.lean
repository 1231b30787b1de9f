/-
A request and its response over the two ends of a connection: what the client is given is what the servlet answered to
the request that the client sent.
-/
import ServerFrame.Http.Server

namespace ServerFrame.Http

open Ragel Streams

/-! ## The request -/

section Request

variable {env : Env} {r : HttpRequest}

/-- The text of the request is read as a stream that holds it. -/
theorem requestOf_dump (hr : r.Sendable env.object.parser.uriRelaxed) (hbig : r.dump.length < 2 ^ 31)
    (hs : r.method ≠ .msearch) (hrec : ∀ x ∈ r.allHeaders, Receivable x) (herror : env.object.error = 0)
    (hcast : env.cast (decimal r.body.length) = some (UInt64.ofNat r.body.length)) :
    requestOf env r.dump = .ok (some { r with close := true, headers := r.sentHeaders }) := by
  have hshort : r.body.length < 2 ^ 63 := by
    rw [dump_eq hr] at hbig
    simp only [List.length_append] at hbig
    omega
  have hbody : withBody env.cast { r with close := true, body := [], headers := r.sentHeaders } r.body =
      some { r with close := true, headers := r.sentHeaders } := withBody_sent hr hshort hcast
  have hsplit : r.dump = (r.requestLine ++ headersText r.allHeaders ++ [13, 10]) ++ r.body := by
    rw [dump_eq hr]
    simp only [List.append_assoc]
  rw [requestOf]
  revert hbig hsplit
  generalize htext : r.dump = text
  intro hbig hsplit
  have hp : Spells (cstr text) 0 text := spells_of_getD fun i _ => by rw [Nat.zero_add, cstr]
  revert hp
  generalize cstr text = buffer
  intro hp
  obtain ⟨h1, hfeeds, hdata, herr⟩ := feeds_allHeaders (h := env.object.new) hr htext (by omega) hs
    (List.append_nil r.allHeaders).symm hrec hp rfl
  have hlen := congrArg List.length hsplit
  simp only [List.length_append, List.length_cons, List.length_nil] at hlen
  rw [hsplit] at hp
  have hbreak := (spells_append.1 (spells_append.1 hp).1).2
  rw [List.length_append] at hbreak
  obtain ⟨h2, cs, hrun, hfin, hdata', herr'⟩ := exec_lineBreak (h := h1) hbreak r.body.length
  have hexec := hfeeds.exec_eq (show text.length = _ + (2 + r.body.length) by omega) hrun
  have hrest : text.drop (0 + (r.requestLine.length + (headersText r.allHeaders).length) + 2) = r.body := by
    rw [hsplit]
    exact List.drop_left' (by simp; omega)
  have herror2 : h2.error = 0 := herr'.trans (herr.trans herror)
  rw [assigned_eq hr] at hdata
  rw [exec_eq_perform] at hexec
  have hstart : env.object.new.parser.cs = (Grammar.main env.object.parser.uriRelaxed).start := rfl
  rw [hstart]
  revert hexec
  generalize (Grammar.main env.object.parser.uriRelaxed).start = start
  intro hexec
  rcases hperform : perform buffer env.object.new (events buffer text.length 0 start) with f | h'
  · rw [hperform] at hexec
    cases hexec
  · rw [hperform, Except.map, Except.ok.injEq, Prod.mk.injEq] at hexec
    obtain ⟨rfl, hhalt⟩ := hexec
    rw [Except.map, hhalt, if_pos ⟨herror2, hfin⟩, hdata', hdata, hrest, hbody]

/-- A call of `recvRequest` can take the request in these pieces: its headers can be sent, the error field of the
parser happens to be zero, the length of the body is read for the number that was printed, and every token comes with
one read. -/
structure Arrives (env : Env) (r : HttpRequest) (c : Cutting env r.dump) : Prop where
  sendable : r.Sendable env.object.parser.uriRelaxed
  method : r.method ≠ .msearch
  headers : ∀ x ∈ r.headers, Plausible x.1 ∧ 0 ∉ x.2 ∧ 127 ∉ x.2
  error : env.object.error = 0
  cast : env.cast (decimal r.body.length) = some (UInt64.ofNat r.body.length)
  length : r.dump.length < 2 ^ 31
  size : env.bufferSize < 2 ^ 31
  tokens : c.KeepsTokens

/-- The request as it is received. -/
def HttpRequest.arrived (r : HttpRequest) : HttpRequest := { r with close := true, headers := r.sentHeaders }

theorem recvRequest_of_arrives {c : Cutting env r.dump} (h : Arrives env r c) :
    ∃ s, HttpSession.recvRequest env { input := c.pieces } = .ok (some r.arrived, s) ∧ s.connected = true := by
  have hrequest := c.request_eq h.size h.length h.tokens
  rw [requestOf_dump h.sendable h.length h.method ((receivable_allHeaders h.sendable).2 h.headers) h.error h.cast,
    Cutting.request] at hrequest
  rcases hrecv : HttpSession.recvRequest env { input := c.pieces } with f | ⟨o, s⟩
  · rw [hrecv] at hrequest
    cases hrequest
  · rw [hrecv, Except.map, Except.ok.injEq] at hrequest
    obtain rfl : o = some r.arrived := hrequest
    exact ⟨s, rfl, (HttpSession.recvRequest_close hrecv).2⟩

end Request

/-! ## The exchange -/

section Exchange

variable {ω : Type} {fnmatch : List UInt8 → List UInt8 → Bool} {server : HttpServer ω} {env : Env} {r : HttpRequest}
  {c : Cutting env r.dump} {world world' : ω} {answer : HttpResponse} {sends : List Nat}

/-- The dispatcher answers the request as it is received with `answer`: it leaves the session to the server, and the
request one that is to be closed. -/
structure Answers (fnmatch : List UInt8 → List UInt8 → Bool) (server : HttpServer ω) (r : HttpRequest)
    (world : ω) (answer : HttpResponse) (world' : ω) : Prop where
  handle : ∀ session, ∃ request : HttpRequest, request.close = true ∧
    server.dispatch.handle fnmatch r.arrived (server.closing r.version) session world =
      ⟨request, answer, session, world'⟩

variable (sends) in
/-- The server sends the answer, and closes. -/
theorem handleClient_of_arrives (h : Arrives env r c) (hanswer : Answers fnmatch server r world answer world')
    (envs : List Env) : ∃ s : Session, s.connected = true ∧
      server.handleClient fnmatch (env :: envs) { session := { input := c.pieces }, sends } world =
        .ok (some (HttpServer.close (HttpSession.sendResponse { session := s, sends } answer).2, world')) := by
  obtain ⟨s, hrecv, hconn⟩ := recvRequest_of_arrives h
  obtain ⟨request, hclose, hhandle⟩ := hanswer.handle { session := s, sends }
  have hoffered : server.response r.arrived = server.closing r.version := HttpServer.response_of_close rfl
  refine ⟨s, hconn, ?_⟩
  rw [HttpServer.handleClient, HttpServer.handleLoop_of_close hrecv envs (hoffered ▸ hhandle) hclose, Except.map,
    Option.map_some, HttpServer.finish, Prod.map_apply, id_eq]

/-- A request that a client sends, where the calls of `send` take it, and that comes to the server with every token in
one read, is answered by the servlet of its path, once, and the connection is closed. What the server sends is a
beginning of the text of the answer, and all of it where its calls of `send` take it; of that, in whatever pieces of
which the first brings the header, the client makes the answer. -/
theorem exchange (out : Connection) (hout : out.Takes r.dump) (h : Arrives env r c)
    (hanswer : Answers fnmatch server r world answer world') (hlength : answer.dump.length < 2 ^ 63) (envs : List Env)
    (sends : List Nat) : (HttpConnection.sendRequest out r).2.sent = out.sent ++ r.dump ∧
    ∃ conn, server.handleClient fnmatch (env :: envs) { session := { input := c.pieces }, sends } world =
        .ok (some (conn, world')) ∧
      conn.session.connected = false ∧ conn.sent <+: answer.dump ∧
      ((∀ n ∈ sends, 0 < n ∧ n < 2 ^ 31) → answer.dump.length ≤ sends.sum → conn.sent = answer.dump ∧
        ∀ (client : HttpConnection.Env) first rest, HttpResponseParser.Sendable answer →
          HttpConnection.Awaits client answer first → (first :: rest).flatten = conn.sent → (∀ p ∈ rest, p ≠ []) →
          ∃ s', HttpConnection.recvResponse client { input := first :: rest } =
            .ok (some { HttpResponseParser.headOf answer with body := answer.body }, s')) := by
  obtain ⟨s, hconn, hrun⟩ := handleClient_of_arrives sends h hanswer envs
  have hbig := h.length
  obtain ⟨bytes, hbytes, hsent, -⟩ := Connection.writeFixSize_prefix hlength { session := s, sends }
  have hsentTo : (HttpServer.close (HttpSession.sendResponse { session := s, sends } answer).2).sent = bytes := by
    rw [HttpServer.sent_close, HttpSession.sendResponse, hsent, List.nil_append]
  refine ⟨?_, _, hrun, HttpServer.connected_close _, hsentTo ▸ hbytes, fun hsends henough => ?_⟩
  · rw [HttpConnection.sendRequest]
    exact (Connection.writeFixSize_all (by omega) hout).1
  · have hall := (Connection.writeFixSize_all hlength (c := { session := s, sends }) ⟨hconn, hsends, henough⟩).1
    rw [hsent, List.nil_append, List.nil_append] at hall
    rw [hsentTo, hall]
    refine ⟨rfl, fun client first rest hsendable hawaits hflat hne => ?_⟩
    have hstream : (first :: rest).flatten = answer.dump ++ [] := by rw [hflat, List.append_nil]
    exact HttpConnection.recvResponse_of_sent hsendable hawaits hne hstream

end Exchange

section Examples

set_option maxRecDepth 100000

open HttpServer (standard)

/-- The page that is not there. -/
def missing : HttpResponse :=
  { status := 404
    headers := [(bytes "Content-Type", bytes "text/html"), (bytes "Server", bytes "mysylar/1.0.0")]
    body := notFoundContent (bytes "mysylar/1.0") }

/-- A client with the default buffer size. -/
def browser : HttpConnection.Env :=
  { client with
    bufferSize := 4 * 1024
    cast := fun s => if s = decimal missing.body.length then some (UInt64.ofNat missing.body.length) else none }

def postedWhole : Cutting zeroed posted.dump := .ofPieces [posted.dump] (by decide) (by decide) (by decide)

theorem arrives_posted : Arrives zeroed posted postedWhole :=
  { sendable := sendable_posted
    method := by decide
    headers := by decide
    error := rfl
    cast := by decide
    length := by decide
    size := by decide
    tokens := by decide +kernel }

theorem answers_missing : Answers (· == ·) standard posted () missing () :=
  ⟨fun _ => ⟨posted.arrived, rfl, by rw [HttpServer.handle_standard]; rfl⟩⟩

theorem sendable_missing : HttpResponseParser.Sendable missing :=
  { version := by decide
    websocket := rfl
    status := by decide
    reason := by decide
    headers := fun x hx => by
      have hlines : mapLines false missing.headers = missing.headers := by decide
      rw [hlines] at hx
      rcases List.mem_pair.1 hx with rfl | rfl
      all_goals
        refine ⟨by decide, by decide, by decide, by decide, fun c hc => ?_⟩
        cases hc
        rfl
    cookies := fun x hx => by cases hx }

theorem exchange_missing : ∃ conn,
    standard.handleClient (· == ·) [zeroed] { session := { input := [posted.dump] }, sends := [4096] } () =
      .ok (some (conn, ())) ∧ conn.sent = missing.dump ∧
    ∃ s', HttpConnection.recvResponse browser { input := [missing.dump] } =
      .ok (some { HttpResponseParser.headOf missing with body := missing.body }, s') := by
  have hout : Connection.Takes { session := { input := [] }, sends := [4096] } posted.dump :=
    ⟨rfl, by decide, by decide⟩
  obtain ⟨-, conn, hrun, -, -, hsent⟩ := exchange _ hout arrives_posted answers_missing (by decide) [] [4096]
  obtain ⟨hall, hclient⟩ := hsent (by decide) (by decide)
  refine ⟨conn, hrun, hall, hclient browser missing.dump [] sendable_missing ?_ ?_ ?_⟩
  · exact ⟨rfl, by decide, by decide, by decide, by decide, by decide⟩
  · rw [hall]; simp
  · decide

end Examples

end ServerFrame.Http
