/-
`TcpServer::bind` (`tcp_server.cc`): the sockets of all calls are kept in one list, and so may be the addresses that
failed, which belong to the caller. A call that fails clears the list, with the sockets of earlier calls; and it decides
whether it fails by a list that need not be empty before it.
-/
import ServerFrame.Socket.Addresses

namespace ServerFrame.Sockets

/-- `Socket::TCP`. -/
def tcp : Int := 1

/-- An address of a call, and what `::socket`, `::bind`, `getsockname` and `::listen` do for it. -/
structure Attempt where
  addr : Address
  created : Option (Nat × Address)
  bound : Option Address
  ok : Bool
  listening : Option Address

namespace Attempt

/-- `Socket::CreateTCP(addr)`, among the descriptors of the process. -/
def createTcp (a : Attempt) (kernel : Int → Option Endpoint) : World :=
  { World.init a.addr.family tcp 0 with kernel }

/-- The address gets a descriptor, which is bound and listens. -/
def up (a : Attempt) : Bool := a.created.isSome && a.bound.isSome && a.listening.isSome

/-- The socket of an address that is up. -/
def socket (a : Attempt) : Option Socket := do
  let (fd, _) ← a.created
  let name ← a.bound
  let _ ← a.listening
  return { sock := fd, family := a.addr.family, type := tcp, protocol := 0, isConnected := false,
           localAddress := if a.ok then some name else none, remoteAddress := none }

end Attempt

/-- `TcpServer`: its sockets, and the descriptors of the process. -/
structure TcpServer where
  socks : List Socket
  kernel : Int → Option Endpoint

namespace TcpServer

/-- `TcpServer(worker, accept_worker)`. -/
def init (kernel : Int → Option Endpoint) : TcpServer := { socks := [], kernel }

/-- The first loop of `bind`. A socket that is not kept is closed when its last pointer is gone. -/
def bindLoop : List Attempt → TcpServer → List Address → TcpServer × List Address
  | [], s, fails => (s, fails)
  | a :: as, s, fails =>
    let r := (a.createTcp s.kernel).bind a.addr a.created a.bound a.ok
    if !r.1 then bindLoop as { s with kernel := r.2.close.2.kernel } (fails ++ [a.addr])
    else
      let r := r.2.listen a.listening
      if !r.1 then bindLoop as { s with kernel := r.2.close.2.kernel } (fails ++ [a.addr])
      else bindLoop as { socks := s.socks ++ [r.2.socket], kernel := r.2.kernel } fails

/-- `m_socks.clear()`, which closes the sockets. -/
def clear (s : TcpServer) : TcpServer :=
  { socks := [], kernel := s.socks.foldl (fun kernel socket => (World.mk socket kernel).close.2.kernel) s.kernel }

/-- `TcpServer::bind(addrs, fails)`: what it returns, the server and `fails`. -/
def bind (s : TcpServer) (addrs : List Attempt) (fails : List Address) : Bool × TcpServer × List Address :=
  let r := bindLoop addrs s fails
  if r.2 ≠ [] then (false, r.1.clear, r.2) else (true, r.1, r.2)

end TcpServer

/-- A call of `bind`. -/
structure BindCall where
  addrs : List Attempt
  fails : List Address

namespace BindCall

variable (c : BindCall)

/-- The addresses that fail, and the sockets of the others. -/
def failed : List Address := (c.addrs.filter fun a => !a.up).map Attempt.addr

def sockets : List Socket := c.addrs.filterMap Attempt.socket

/-- Every address is bound and listens. -/
def AllUp : Prop := ∀ a ∈ c.addrs, a.up = true

/-- The call is all or nothing: it fails, leaves the sockets and adds the addresses that failed; or it succeeds, as it
does exactly where every address is up, and adds their sockets. -/
structure AllOrNothing (s : TcpServer) (r : Bool × TcpServer × List Address) : Prop where
  fails : r.1 = false → r.2.1.socks = s.socks ∧ r.2.2 = c.fails ++ c.failed
  succeeds : r.1 = true ↔ c.AllUp
  binds : r.1 = true → r.2.1.socks = s.socks ++ c.sockets

/-- The call, after the calls `l` on a new server: all its addresses are up and it gets no failures, or one is not up
and no call before has bound anything. -/
def Clean (l : List BindCall) : Prop :=
  c.AllUp ∧ c.fails = [] ∨ ¬ c.AllUp ∧ ∀ b ∈ l, b.AllUp → b.addrs = []

end BindCall

/-- A call of `bind` on the server. -/
def TcpServer.Step (s : TcpServer) (c : BindCall) (s' : TcpServer) : Prop := s' = (s.bind c.addrs c.fails).2.1

/-! ## One address -/

section Attempt

variable {a : Attempt} (kernel : Int → Option Endpoint)

theorem isSome_socket (a : Attempt) : a.socket.isSome = a.up := by
  rcases a with ⟨addr, - | ⟨fd, name⟩, - | bound, ok, - | listening⟩ <;> rfl

/-- `bind` of a new socket that gets a descriptor. -/
theorem bind_created {fd : Nat} {name bound : Address} (hcreated : a.created = some (fd, name))
    (hbound : a.bound = some bound) : (a.createTcp kernel).bind a.addr a.created a.bound a.ok =
      (true, { socket := { sock := fd, family := a.addr.family, type := tcp, protocol := 0, isConnected := false
                           localAddress := if a.ok then some bound else none, remoteAddress := none }
               kernel := Function.update (Function.update kernel fd (some ⟨name, none⟩)) fd
                 (some ⟨bound, none⟩) }) := by
  have hfd : (fd : Int) ≠ -1 := by omega
  rw [hcreated, hbound]
  simp [World.bind, World.validate, World.isValid, Attempt.createTcp, World.init, World.newSock, getLocalAddress_eq,
    World.sockname, World.peername, hfd]

/-- `bind` of a new socket that gets none, or whose descriptor is not bound. -/
theorem bind_failed (h : a.created = none ∨ a.bound = none) :
    ((a.createTcp kernel).bind a.addr a.created a.bound a.ok).1 = false := by
  rcases h with h | h
  · rw [h]
    rfl
  · rw [h]
    simp only [World.bind]
    split
    · rfl
    · split <;> rfl

theorem listen_valid_socket {w : World} (h : w.socket.sock ≠ -1) (listening : Option Address) :
    (w.listen listening).1 = listening.isSome ∧ (w.listen listening).2.socket = w.socket := by
  have hvalid : w.isValid = true := decide_eq_true h
  unfold World.listen
  rw [hvalid]
  cases listening <;> exact ⟨rfl, rfl⟩

/-- An address of the loop: its socket is kept, or it is one of those that failed. -/
theorem bindLoop_cons (a : Attempt) (as : List Attempt) (s : TcpServer) (fails : List Address) : ∃ kernel',
    TcpServer.bindLoop (a :: as) s fails =
      TcpServer.bindLoop as { socks := s.socks ++ a.socket.toList, kernel := kernel' }
        (fails ++ if a.up then [] else [a.addr]) := by
  rw [TcpServer.bindLoop]
  by_cases hbound : a.created = none ∨ a.bound = none
  · have hup : a.socket = none ∧ a.up = false := by
      rcases a with ⟨addr, created, bound, ok, listening⟩
      rcases hbound with rfl | rfl
      · exact ⟨rfl, rfl⟩
      · cases created <;> exact ⟨rfl, rfl⟩
    simp only [bind_failed s.kernel hbound, hup.1, hup.2, Bool.not_false, if_true, Option.toList_none, List.append_nil,
      Bool.false_eq_true, if_false]
    exact ⟨_, rfl⟩
  · rw [not_or] at hbound
    obtain ⟨⟨fd, name⟩, hfd⟩ := Option.ne_none_iff_exists'.1 hbound.1
    obtain ⟨bound, hname⟩ := Option.ne_none_iff_exists'.1 hbound.2
    rw [bind_created s.kernel hfd hname]
    dsimp only
    generalize hw : World.mk _ _ = w
    have hsock : w.socket.sock ≠ -1 := by
      rw [← hw]
      exact Int.ne_of_gt (Int.lt_of_lt_of_le (by decide) (Int.natCast_nonneg fd))
    obtain ⟨hlistens, hsocket⟩ := listen_valid_socket hsock a.listening
    rw [Bool.not_true, if_neg Bool.false_ne_true, hlistens, hsocket]
    rcases hlistening : a.listening with - | listening
    · have hsocket : a.socket = none := by
        rw [Attempt.socket, hfd, hname, hlistening]
        rfl
      have hup : a.up = false := by rw [← isSome_socket, hsocket, Option.isSome_none]
      rw [hsocket, hup, Option.toList_none, List.append_nil, if_neg Bool.false_ne_true]
      exact ⟨_, rfl⟩
    · have hsocket : a.socket = some w.socket := by
        rw [Attempt.socket, hfd, hname, hlistening, ← hw]
        rfl
      have hup : a.up = true := by rw [← isSome_socket, hsocket, Option.isSome_some]
      rw [hsocket, hup, Option.toList_some, if_pos rfl, List.append_nil]
      exact ⟨_, rfl⟩

theorem bindLoop_spec (as : List Attempt) (s : TcpServer) (fails : List Address) :
    (TcpServer.bindLoop as s fails).1.socks = s.socks ++ as.filterMap Attempt.socket ∧
      (TcpServer.bindLoop as s fails).2 = fails ++ (as.filter fun a => !a.up).map Attempt.addr := by
  induction as generalizing s fails with
  | nil =>
    rw [List.filterMap_nil, List.filter_nil, List.map_nil, List.append_nil, List.append_nil]
    exact ⟨rfl, rfl⟩
  | cons a as ih =>
    obtain ⟨kernel', hcons⟩ := bindLoop_cons a as s fails
    obtain ⟨hsocks, hfails⟩ := ih { socks := s.socks ++ a.socket.toList, kernel := kernel' }
      (fails ++ if a.up then [] else [a.addr])
    rw [hcons, hsocks, hfails, List.append_assoc, List.append_assoc]
    constructor
    · congr 1
      cases hsocket : a.socket with
      | none => rw [List.filterMap_cons_none hsocket, Option.toList_none, List.nil_append]
      | some socket => rw [List.filterMap_cons_some hsocket, Option.toList_some, List.singleton_append]
    · congr 1
      cases hup : a.up with
      | false => rw [List.filter_cons_of_pos (by rw [hup]; rfl), if_neg Bool.false_ne_true, List.map_cons,
          List.singleton_append]
      | true => rw [List.filter_cons_of_neg (by rw [hup]; exact Bool.false_ne_true), if_pos rfl, List.nil_append]

end Attempt

/-! ## One call -/

section Call

variable {c : BindCall} {s : TcpServer}

theorem failed_eq_nil_iff : c.failed = [] ↔ c.AllUp := by
  rw [BindCall.failed, List.map_eq_nil_iff, List.filter_eq_nil_iff]
  refine forall₂_congr fun a _ => ?_
  cases a.up <;> decide

/-- A call that succeeds. -/
theorem bind_true (hup : c.AllUp) (hfails : c.fails = []) :
    (s.bind c.addrs c.fails).1 = true ∧ (s.bind c.addrs c.fails).2.1.socks = s.socks ++ c.sockets := by
  obtain ⟨hsocks, hfailed⟩ := bindLoop_spec c.addrs s c.fails
  have hnone : (TcpServer.bindLoop c.addrs s c.fails).2 = [] := by
    rw [hfailed, hfails, List.nil_append]
    exact failed_eq_nil_iff.2 hup
  rw [TcpServer.bind, if_neg (not_not_intro hnone)]
  exact ⟨rfl, hsocks⟩

/-- A call that fails: no socket is left. -/
theorem bind_false (h : ¬ (c.AllUp ∧ c.fails = [])) : (s.bind c.addrs c.fails).1 = false ∧
    (s.bind c.addrs c.fails).2.1.socks = [] ∧ (s.bind c.addrs c.fails).2.2 = c.fails ++ c.failed := by
  obtain ⟨-, hfailed⟩ := bindLoop_spec c.addrs s c.fails
  have hsome : (TcpServer.bindLoop c.addrs s c.fails).2 ≠ [] := by
    rw [hfailed, Ne, List.append_eq_nil_iff]
    rintro ⟨hfails, hnone⟩
    exact h ⟨failed_eq_nil_iff.1 hnone, hfails⟩
  rw [TcpServer.bind, if_pos hsome]
  exact ⟨rfl, rfl, hfailed⟩

theorem allOrNothing_iff : c.AllOrNothing s (s.bind c.addrs c.fails) ↔
    c.AllUp ∧ c.fails = [] ∨ ¬ c.AllUp ∧ s.socks = [] := by
  by_cases h : c.AllUp ∧ c.fails = []
  · obtain ⟨htrue, hsocks⟩ := bind_true (s := s) h.1 h.2
    refine iff_of_true ⟨fun hfalse => ?_, iff_of_true htrue h.1, fun _ => hsocks⟩ (.inl h)
    rw [htrue] at hfalse
    cases hfalse
  · obtain ⟨hfalse, hsocks, hfails⟩ := bind_false (s := s) h
    constructor
    · rintro ⟨hrestored, hiff, -⟩
      refine .inr ⟨fun hup => ?_, ?_⟩
      · rw [hiff.2 hup] at hfalse
        cases hfalse
      · rw [← (hrestored hfalse).1, hsocks]
    · rintro (hclean | ⟨hdown, hnone⟩)
      · exact absurd hclean h
      · refine ⟨fun _ => ⟨by rw [hsocks, hnone], hfails⟩, iff_of_false ?_ hdown, fun htrue => ?_⟩
        · rw [hfalse]
          exact Bool.false_ne_true
        · rw [hfalse] at htrue
          cases htrue

/-- What a call that is all or nothing adds to the sockets. -/
def BindCall.added (c : BindCall) : List Socket := if c.addrs.all Attempt.up then c.sockets else []

theorem added_eq_nil_iff : c.added = [] ↔ (c.AllUp → c.addrs = []) := by
  have hall : c.addrs.all Attempt.up = true ↔ c.AllUp := List.all_eq_true
  rw [BindCall.added]
  by_cases hup : c.AllUp
  · rw [if_pos (hall.2 hup), forall_prop_of_true hup, BindCall.sockets, List.filterMap_eq_nil_iff]
    constructor
    · intro hnone
      refine List.eq_nil_iff_forall_not_mem.2 fun a ha => ?_
      have hsome := isSome_socket a
      rw [hnone a ha, hup a ha] at hsome
      cases hsome
    · intro hnil a ha
      rw [hnil] at ha
      cases ha
  · rw [if_neg (mt hall.1 hup)]
    exact iff_of_true rfl fun h => absurd h hup

theorem BindCall.AllOrNothing.socks (h : c.AllOrNothing s (s.bind c.addrs c.fails)) :
    (s.bind c.addrs c.fails).2.1.socks = s.socks ++ c.added := by
  have hall : c.addrs.all Attempt.up = true ↔ c.AllUp := List.all_eq_true
  rw [BindCall.added]
  cases hr : (s.bind c.addrs c.fails).1 with
  | true => rw [if_pos (hall.2 (h.succeeds.1 hr)), h.binds hr]
  | false =>
    have hdown : ¬ c.AllUp := by
      intro hup
      rw [h.succeeds.2 hup] at hr
      cases hr
    rw [if_neg (mt hall.1 hdown), (h.fails hr).1, List.append_nil]

end Call

/-! ## Runs -/

section Runs

variable {kernel : Int → Option Endpoint} {calls l : List BindCall} {c : BindCall} {s t : TcpServer}

theorem clean_iff (h : t.socks = l.flatMap BindCall.added) :
    c.Clean l ↔ c.AllOrNothing t (t.bind c.addrs c.fails) := by
  have hnone : t.socks = [] ↔ ∀ b ∈ l, b.AllUp → b.addrs = [] := by
    rw [h, List.flatMap_eq_nil_iff]
    exact forall₂_congr fun b _ => added_eq_nil_iff
  rw [allOrNothing_iff, hnone]
  rfl

/-- After calls that were all or nothing the server has the sockets of those that succeeded. -/
theorem socks_of_allOrNothing (hr : Lts.Run TcpServer.Step (.init kernel) l t)
    (h : ∀ l1 c l2 u, l = l1 ++ c :: l2 → Lts.Run TcpServer.Step (.init kernel) l1 u →
      c.AllOrNothing u (u.bind c.addrs c.fails)) : t.socks = l.flatMap BindCall.added := by
  induction hr with
  | nil => rfl
  | @snoc l t u c hr hs ih =>
    have hsocks := ih fun l1 d l2 v hl hv => h l1 d (l2 ++ [c]) v (by rw [hl]; simp) hv
    obtain rfl := hs
    rw [(h l c [] t rfl hr).socks, hsocks, List.flatMap_append, List.flatMap_singleton]

/-- After calls that were clean, too. -/
theorem socks_of_clean (hr : Lts.Run TcpServer.Step (.init kernel) l t)
    (h : ∀ l1 c l2, l = l1 ++ c :: l2 → c.Clean l1) : t.socks = l.flatMap BindCall.added := by
  induction hr with
  | nil => rfl
  | @snoc l t u c hr hs ih =>
    have hsocks := ih fun l1 d l2 hl => h l1 d (l2 ++ [c]) (by rw [hl]; simp)
    obtain rfl := hs
    rw [((clean_iff hsocks).1 (h l c [] rfl)).socks, hsocks, List.flatMap_append, List.flatMap_singleton]

/-- Over every sequence of calls of `bind` on a new server, with system calls that succeed or fail in any way and any
initial content of `fails`: every call is all or nothing exactly where every call either has all its addresses bound and
listening and `fails` empty before it, or comes while nothing has been bound. -/
theorem bind_all_or_nothing_iff (hr : Lts.Run TcpServer.Step (.init kernel) calls s) :
    (∀ l1 c l2 t, calls = l1 ++ c :: l2 → Lts.Run TcpServer.Step (.init kernel) l1 t →
      c.AllOrNothing t (t.bind c.addrs c.fails)) ↔ ∀ l1 c l2, calls = l1 ++ c :: l2 → c.Clean l1 := by
  constructor
  · rintro h l1 c l2 rfl
    obtain ⟨t, t', ht, -, -⟩ := hr.split_step
    refine (clean_iff (socks_of_allOrNothing ht fun m1 d m2 u hl hu => ?_)).2 (h l1 c l2 t rfl ht)
    exact h m1 d (m2 ++ c :: l2) u (by rw [hl]; simp) hu
  · rintro h l1 c l2 t rfl ht
    refine (clean_iff (socks_of_clean ht fun m1 d m2 hl => ?_)).1 (h l1 c l2 rfl)
    exact h m1 d (m2 ++ c :: l2) (by rw [hl]; simp)

/-- A call for one address on descriptor 3, which may not listen. -/
def bindTo (listening : Option Address) : BindCall :=
  { addrs := [⟨inet 80 1, some (3, inet 0 0), some (inet 80 1), true, listening⟩], fails := [] }

/-- A call whose one address fails, and one that succeeds after it. -/
theorem bind_all_or_nothing_iff_retry : ∃ t, (TcpServer.init fun _ => none).Step (bindTo none) t ∧
    (bindTo none).AllOrNothing (.init fun _ => none) ((TcpServer.init fun _ => none).bind (bindTo none).addrs []) ∧
    (bindTo (some (inet 80 1))).AllOrNothing t (t.bind (bindTo (some (inet 80 1))).addrs []) := by
  have hfirst : Lts.Run TcpServer.Step (.init fun _ => none) [bindTo none] _ := .single rfl
  have hr : Lts.Run TcpServer.Step (.init fun _ => none) [bindTo none, bindTo (some (inet 80 1))] _ := hfirst.snoc rfl
  have hup : (bindTo (some (inet 80 1))).AllUp := fun a ha => by rw [List.mem_singleton.1 ha]; rfl
  have hdown : ¬ (bindTo none).AllUp := fun h => absurd (h _ (List.mem_singleton.2 rfl)) (by decide)
  have hall := (bind_all_or_nothing_iff hr).2 fun l1 c l2 hl => by
    rcases l1 with - | ⟨b, - | ⟨b', l1⟩⟩
    · obtain ⟨rfl, -⟩ := List.cons.inj hl
      exact .inr ⟨hdown, fun b hb => by cases hb⟩
    · obtain ⟨rfl, hl'⟩ := List.cons.inj hl
      obtain ⟨rfl, -⟩ := List.cons.inj hl'
      exact .inl ⟨hup, rfl⟩
    · simp at hl
  exact ⟨_, rfl, hall [] _ _ _ rfl .nil, hall [bindTo none] _ [] _ rfl hfirst⟩

/-- A second call that fails takes away the socket of the first. -/
theorem earlier_sockets_lost : ¬ ∀ (kernel : Int → Option Endpoint) (calls : List BindCall) (s : TcpServer),
    Lts.Run TcpServer.Step (.init kernel) calls s → ∀ l1 c l2 t, calls = l1 ++ c :: l2 →
      Lts.Run TcpServer.Step (.init kernel) l1 t → c.AllOrNothing t (t.bind c.addrs c.fails) := by
  intro h
  have hfirst : Lts.Run TcpServer.Step (.init fun _ => none) [bindTo (some (inet 80 1))] _ := .single rfl
  have hsecond := h _ _ _ (hfirst.snoc rfl) [bindTo (some (inet 80 1))] (bindTo none) [] _ rfl hfirst
  have hsocks := (hsecond.fails rfl).1
  exact absurd (congrArg List.length hsocks) (by decide)

end Runs

end ServerFrame.Sockets
