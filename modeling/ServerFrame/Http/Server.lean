/-
`HttpServer::handleClient` (`http_server.cc`) over the session, the dispatcher and the servlets (`servlet.cc`), and what
a client gets from it that sends a request (`HttpConnection::sendRequest`) and waits for the response.
-/
import ServerFrame.Http.ResponseTrip
import ServerFrame.Http.Servlet
import ServerFrame.Stream.Connection

namespace ServerFrame.Http

open Streams

/-! ## Sending -/

/-- `HttpSession::sendResponse(res)`. -/
def HttpSession.sendResponse (c : Connection) (res : HttpResponse) : Int × Connection := c.writeFixSize res.dump

/-- `HttpConnection::sendRequest(req)`. -/
def HttpConnection.sendRequest (c : Connection) (req : HttpRequest) : Int × Connection := c.writeFixSize req.dump

/-! ## Servlets -/

/-- What a servlet leaves of what it was given. -/
structure Handled (ω : Type) where
  request : HttpRequest
  response : HttpResponse
  session : Connection
  world : ω

/-- `Servlet::handle`, of which nobody reads the result: it may change the request, the response, the session and the
rest of the world. That of a `FunctionServlet` is its callback. -/
abbrev Servlet (ω : Type) := HttpRequest → HttpResponse → Connection → ω → Handled ω

section Servlets

variable {ω : Type} (fnmatch : List UInt8 → List UInt8 → Bool)

/-- `m_content` of a `NotFoundServlet`. -/
def notFoundContent (name : List UInt8) : List UInt8 :=
  bytes ("<html><head><title>404 Not Found" ++
    "</title></head><body><center><h1>404 Not Found</h1></center>" ++
    "<hr><center>") ++ name ++ bytes "</center></body></html>"

/-- `NotFoundServlet::handle`. -/
def notFoundServlet (name : List UInt8) : Servlet ω := fun request response session world =>
  let response := ({ response with status := 404 }.setHeader (bytes "Server") (bytes "mysylar/1.0.0")).setHeader
    (bytes "Content-Type") (bytes "text/html")
  ⟨request, { response with body := notFoundContent name }, session, world⟩

/-- `ServletDispatch::handle`, where a servlet may be `nullptr`. -/
def ServletDispatch.handle (d : ServletDispatch (Option (Servlet ω))) : Servlet ω :=
  fun request response session world =>
    match d.getMatchedServlet fnmatch request.path with
    | none => ⟨request, response, session, world⟩
    | some slt => slt request response session world

/-! ## The server -/

/-- `HttpServer`, with the name of its `TcpServer`. -/
structure HttpServer (ω : Type) where
  isKeepalive : Bool
  name : List UInt8
  dispatch : ServletDispatch (Option (Servlet ω))

namespace HttpServer

variable (server : HttpServer ω)

/-- The response that is handed to the servlet. -/
def response (req : HttpRequest) : HttpResponse :=
  { version := req.version, close := req.close || !server.isKeepalive : HttpResponse }.setHeader (bytes "Server")
    server.name

/-- The response is sent. -/
def finish (handled : Handled ω) : Connection × ω :=
  ((HttpSession.sendResponse handled.session handled.response).2, handled.world)

/-- The `do` loop of `handleClient`, each call of `recvRequest` with a parser and a buffer of its own; `none` where
those are used up. -/
def handleLoop : List Env → Connection → ω → Except Fault (Option (Connection × ω))
  | [], _, _ => .ok none
  | env :: envs, c, world =>
    match HttpSession.recvRequest env c.session with
    | .error f => .error f
    | .ok (none, session) => .ok (some ({ c with session }, world))
    | .ok (some req, session) =>
      let handled := server.dispatch.handle fnmatch req (server.response req) { c with session } world
      if !server.isKeepalive || handled.request.close then .ok (some (finish handled))
      else handleLoop envs (finish handled).1 (finish handled).2

def close (c : Connection) : Connection := { c with session := c.session.close }

theorem sent_close (c : Connection) : (close c).sent = c.sent := rfl

theorem connected_close (c : Connection) : (close c).session.connected = false := rfl

/-- `HttpServer::handleClient(client)`. -/
def handleClient (envs : List Env) (c : Connection) (world : ω) : Except Fault (Option (Connection × ω)) :=
  (server.handleLoop fnmatch envs c world).map (Option.map (Prod.map close id))

/-- A response that says that the connection is to be closed. -/
def closing (version : UInt8) : HttpResponse :=
  { version : HttpResponse }.setHeader (bytes "Server") server.name

/-- A server that reads one request, answers it, if there is one, with a response that says that the connection is to be
closed, and closes. -/
def serveOne (env : Env) (c : Connection) (world : ω) : Except Fault (Connection × ω) :=
  match HttpSession.recvRequest env c.session with
  | .error f => .error f
  | .ok (none, session) => .ok (close { c with session }, world)
  | .ok (some req, session) =>
    let handled := server.dispatch.handle fnmatch req (server.closing req.version) { c with session } world
    .ok (Prod.map close id (finish handled))

end HttpServer

end Servlets

/-! ## One request -/

section Received

variable {env : Env}

theorem HttpRequestParser.execute_close {h h' : HttpRequestParser} {data data' : Nat → UInt8} {len n : Nat}
    (hex : h.execute data len = .ok (h', data', n)) : h'.data.close = h.data.close := by
  obtain ⟨-, -, ⟨-, rfl⟩ | ⟨h1, hperform, -, rfl⟩⟩ := execute_ok hex
  · rfl
  · exact (perform_message hperform).2

theorem Session.connected_read (s : Session) (n : Nat) : (s.read n).2.connected = s.connected := by
  unfold read
  split
  · rfl
  · split <;> rfl

theorem Session.connected_readLoop (turns : Nat) (s : Session) (left : Nat) (buffer : List UInt8) :
    (readLoop turns s left buffer).2.connected = s.connected := by
  induction turns generalizing s left buffer with
  | zero => rfl
  | succ turns ih =>
    have hread := s.connected_read left
    rw [readLoop]
    split
    · rfl
    · split
      · rename_i h
        rwa [h] at hread
      · rename_i h
        rw [h] at hread
        exact (ih ..).trans hread

theorem Session.connected_readFixSize (s : Session) (n : Nat) : (s.readFixSize n).2.connected = s.connected := by
  have hloop := connected_readLoop (n + 1) s n []
  unfold readFixSize
  split
  · rename_i h
    rwa [h] at hloop
  · rename_i h
    rw [h] at hloop
    split <;> exact hloop

/-- The loop leaves the flag of the request as it is, and the socket open if it has found a request. -/
theorem HttpSession.recvLoop_close {buffSize turns offset offset' : Nat} {h h' : HttpRequestParser}
    {data data' : Nat → UInt8} {s s' : Session}
    (hloop : recvLoop buffSize turns h data offset s = .ok (some (h', data', offset'), s')) :
    h'.data.close = h.data.close ∧ s'.connected = s.connected := by
  induction turns generalizing h data offset s with
  | zero => cases hloop
  | succ turns ih =>
    rw [recvLoop] at hloop
    have hread := s.connected_read (buffSize - offset)
    split at hloop
    · cases hloop
    · simp only at hloop
      split at hloop
      · cases hloop
      · rename_i hex
        have hclose := HttpRequestParser.execute_close hex
        split at hloop
        · cases hloop
        · split at hloop
          · cases hloop
          · split at hloop
            · cases hloop
              exact ⟨hclose, hread⟩
            · exact ⟨(ih hloop).1.trans hclose, (ih hloop).2.trans hread⟩

/-- Every request that is received is to be closed, whatever it says, and its socket is still open if it was. -/
theorem HttpSession.recvRequest_close {s s' : Session} {q : HttpRequest}
    (h : recvRequest env s = .ok (some q, s')) : q.close = true ∧ s'.connected = s.connected := by
  rw [recvRequest] at h
  split at h
  · cases h
  · cases h
  · rename_i parser data offset s1 hloop
    obtain ⟨hclose, hconn⟩ := recvLoop_close hloop
    have hfresh : parser.data.close = true := hclose
    rw [Except.ok.injEq] at h
    have hread := s1.connected_readFixSize ((parser.getContentLength env.cast).toNat - offset)
    unfold recvBody at h
    dsimp only at h
    split at h
    · split at h
      · cases h
        exact ⟨hfresh, hconn⟩
      · split at h
        · cases h
        · rename_i heq
          cases h
          rw [heq] at hread
          exact ⟨hfresh, hread.trans hconn⟩
    · cases h
      exact ⟨hfresh, hconn⟩

end Received

namespace HttpServer

variable {ω : Type} {fnmatch : List UInt8 → List UInt8 → Bool} {server : HttpServer ω}

/-- The servlets that the dispatcher can find leave the flag of a request that is to be closed. -/
def KeepsFlags (fnmatch : List UInt8 → List UInt8 → Bool) (server : HttpServer ω) : Prop :=
  ∀ request response session world, request.close = true →
    (server.dispatch.handle fnmatch request response session world).request.close = true

section Turn

variable {env : Env} {c : Connection} {q : HttpRequest} {s : Session}
  (hrecv : HttpSession.recvRequest env c.session = .ok (some q, s))
include hrecv

/-- A turn in which a request is received that its servlet leaves to be closed is the last. -/
theorem handleLoop_of_close (envs : List Env) {world : ω} {handled : Handled ω}
    (hhandled : server.dispatch.handle fnmatch q (server.response q) { c with session := s } world = handled)
    (hclose : handled.request.close = true) :
    server.handleLoop fnmatch (env :: envs) c world = .ok (some (finish handled)) := by
  rw [handleLoop, hrecv]
  dsimp only
  rw [hhandled, hclose, Bool.or_true, if_pos rfl]

theorem serveOne_of_recv {world : ω} {handled : Handled ω}
    (hhandled : server.dispatch.handle fnmatch q (server.closing q.version) { c with session := s } world = handled) :
    server.serveOne fnmatch env c world = .ok (Prod.map close id (finish handled)) := by
  rw [serveOne, hrecv]
  dsimp only
  rw [hhandled]

end Turn

/-- A request that was received gets a response that says that the connection is to be closed. -/
theorem response_of_close {q : HttpRequest} (h : q.close = true) : server.response q = server.closing q.version := by
  rw [response, h, Bool.true_or, closing]

/-- A server answers one request and closes, whether it is told to keep its connections or not: no request that it
receives is one that is not to be closed. -/
theorem handleClient_eq_serveOne (h : server.KeepsFlags fnmatch) (env : Env) (envs : List Env) (c : Connection)
    (world : ω) : server.handleClient fnmatch (env :: envs) c world =
      (server.serveOne fnmatch env c world).map some := by
  rw [handleClient]
  rcases hrecv : HttpSession.recvRequest env c.session with f | ⟨_ | q, s⟩
  · rw [handleLoop, serveOne, hrecv]
    rfl
  · rw [handleLoop, serveOne, hrecv]
    rfl
  · obtain ⟨hclose, -⟩ := HttpSession.recvRequest_close hrecv
    have hoffered : server.response q = server.closing q.version := response_of_close hclose
    have hkept := h q (server.response q) { c with session := s } world hclose
    generalize hhandled : server.dispatch.handle fnmatch q (server.response q) { c with session := s } world = handled
    rw [hhandled] at hkept
    rw [handleLoop_of_close hrecv envs hhandled hkept, serveOne_of_recv hrecv (hoffered ▸ hhandled), Except.map,
      Except.map, Option.map_some]

section Standard

/-- A server without servlets that is told to keep its connections. -/
def standard : HttpServer Unit :=
  { isKeepalive := true
    name := bytes "mysylar/1.0.0"
    dispatch := .init (some (notFoundServlet (bytes "mysylar/1.0"))) }

theorem handle_standard (request : HttpRequest) (response : HttpResponse) (session : Connection) (world : Unit) :
    standard.dispatch.handle (· == ·) request response session world =
      notFoundServlet (bytes "mysylar/1.0") request response session world := rfl

theorem handleClient_eq_serveOne_standard : standard.KeepsFlags (· == ·) ∧
    standard.handleClient (· == ·) [zeroed, zeroed] { session := { input := [post, post] } } () =
      (standard.serveOne (· == ·) zeroed { session := { input := [post, post] } } ()).map some :=
  have hkeeps : standard.KeepsFlags (· == ·) := fun _ _ _ _ h => h
  ⟨hkeeps, handleClient_eq_serveOne hkeeps _ _ _ _⟩

end Standard

end HttpServer

end ServerFrame.Http
