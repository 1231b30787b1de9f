/-
`Socket` (`socket.cc`): the descriptor, the connected flag and the two cached addresses, over system calls that
succeed or fail in any way. `close` keeps the caches, so that after a second `connect` they may
name a descriptor that is gone; the main result says exactly in which runs they do not.
-/
import ServerFrame.Lib.Run
import Mathlib.Logic.Function.Basic

namespace ServerFrame.Sockets

/-- An address: its family and the bytes of the `sockaddr` behind it. -/
structure Address where
  family : Int
  data : List UInt8
  deriving DecidableEq, Repr

/-- `UnknownAddress(family)`. -/
def unknownAddress (family : Int) : Address := { family, data := List.replicate 14 0 }

/-- `Socket`. -/
structure Socket where
  sock : Int
  family : Int
  type : Int
  protocol : Int
  isConnected : Bool
  localAddress : Option Address
  remoteAddress : Option Address

/-- What the kernel knows of a descriptor: its own name and, when it is connected, its peer's. -/
structure Endpoint where
  sockname : Address
  peername : Option Address

/-- A socket object and the descriptors of the process. -/
structure World where
  socket : Socket
  kernel : Int → Option Endpoint

namespace World

variable (w : World)

/-- The local address of the current descriptor. -/
def sockname : Option Address := (w.kernel w.socket.sock).map (·.sockname)

/-- The peer of the connection on the current descriptor. -/
def peername : Option Address := (w.kernel w.socket.sock).bind (·.peername)

def isValid : Bool := w.socket.sock ≠ -1

/-- `Socket::getRemoteAddress()`, with a `getpeername` that may fail. -/
def getRemoteAddress (ok : Bool) : Address × World :=
  match w.socket.remoteAddress with
  | some address => (address, w)
  | none =>
    match if ok then w.peername else none with
    | none => (unknownAddress w.socket.family, w)
    | some result => (result, { w with socket := { w.socket with remoteAddress := some result } })

/-- `Socket::getLocalAddress()`, with a `getsockname` that may fail. -/
def getLocalAddress (ok : Bool) : Address × World :=
  match w.socket.localAddress with
  | some address => (address, w)
  | none =>
    match if ok then w.sockname else none with
    | none => (unknownAddress w.socket.family, w)
    | some result => (result, { w with socket := { w.socket with localAddress := some result } })

/-- `Socket::newSock()`, where `::socket` gives a descriptor and its first name, or fails. -/
def newSock (created : Option (Nat × Address)) : World :=
  match created with
  | some (fd, name) =>
    { socket := { w.socket with sock := fd }, kernel := Function.update w.kernel fd (some ⟨name, none⟩) }
  | none => { w with socket := { w.socket with sock := -1 } }

/-- The first lines of `bind` and `connect`: an invalid socket gets a descriptor. -/
def validate (created : Option (Nat × Address)) : World := if w.isValid then w else w.newSock created

/-- `Socket::bind(addr)`, where `::bind` names the descriptor or fails. -/
def bind (addr : Address) (created : Option (Nat × Address)) (bound : Option Address) (ok : Bool) : Bool × World :=
  let w := w.validate created
  if !w.isValid then (false, w)
  else if addr.family ≠ w.socket.family then (false, w)
  else
    match bound with
    | none => (false, w)
    | some name =>
      let named : World := { w with kernel := Function.update w.kernel w.socket.sock (some ⟨name, w.peername⟩) }
      (true, (named.getLocalAddress ok).2)

/-- `Socket::close()`. -/
def close : Bool × World :=
  if !w.socket.isConnected && w.socket.sock == -1 then (true, w)
  else if w.socket.sock ≠ -1 then
    (false, { socket := { w.socket with isConnected := false, sock := -1 }
              kernel := Function.update w.kernel w.socket.sock none })
  else (false, { w with socket := { w.socket with isConnected := false } })

/-- `Socket::connect(addr, timeout_ms)`, where `::connect` or `connect_with_timeout` gives the descriptor its name and
its peer, or fails. -/
def connect (addr : Address) (created : Option (Nat × Address)) (connected : Option (Address × Address))
    (okRemote okLocal : Bool) : Bool × World :=
  let w := w.validate created
  if !w.isValid then (false, w)
  else if addr.family ≠ w.socket.family then (false, w)
  else
    match connected with
    | none => (false, w.close.2)
    | some (name, peer) =>
      let w : World :=
        { socket := { w.socket with isConnected := true }
          kernel := Function.update w.kernel w.socket.sock (some ⟨name, some peer⟩) }
      (true, ((w.getRemoteAddress okRemote).2.getLocalAddress okLocal).2)

/-- `Socket::listen(backlog)`, where `::listen` may give the descriptor a name, or fails. -/
def listen (listening : Option Address) : Bool × World :=
  if !w.isValid then (false, w)
  else
    match listening with
    | none => (false, w)
    | some name => (true, { w with kernel := Function.update w.kernel w.socket.sock (some ⟨name, w.peername⟩) })

end World

/-- How a socket object is made. -/
inductive Creation
  /-- `CreateTCP`, `CreateTCPSocket`, `CreateTCPSocket6`, `CreateUnixTCPSocket`, `CreateUnixUDPSocket`. -/
  | create (family type protocol : Int)
  /-- `CreateUDP`, `CreateUDPSocket`, `CreateUDPSocket6`, which open the descriptor and set the flag. -/
  | createUdp (family type protocol : Int) (created : Option (Nat × Address))
  /-- `accept`, whose `init` takes the new descriptor. -/
  | accept (family type protocol : Int) (newsock : Nat) (endpoint : Endpoint) (okLocal okRemote : Bool)

/-- `Socket(family, type, protocol)`, before any descriptor is open. -/
def World.init (family type protocol : Int) : World :=
  { socket := { sock := -1, family, type, protocol, isConnected := false, localAddress := none, remoteAddress := none }
    kernel := fun _ => none }

def Creation.world : Creation → World
  | .create family type protocol => .init family type protocol
  | .createUdp family type protocol created =>
    let w := (World.init family type protocol).newSock created
    { w with socket := { w.socket with isConnected := true } }
  | .accept family type protocol newsock endpoint okLocal okRemote =>
    let w := World.init family type protocol
    let w : World := { socket := { w.socket with sock := newsock, isConnected := true }
                       kernel := Function.update w.kernel newsock (some endpoint) }
    ((w.getLocalAddress okLocal).2.getRemoteAddress okRemote).2

/-- `CreateUDP` and its kin got their descriptor. -/
def Creation.Created : Creation → Prop
  | .createUdp _ _ _ created => created.isSome
  | .create .. | .accept .. => True

/-- The calls on one socket object, with what its system calls do. -/
inductive Act
  | bind (addr : Address) (created : Option (Nat × Address)) (bound : Option Address) (ok : Bool)
  | connect (addr : Address) (created : Option (Nat × Address)) (connected : Option (Address × Address))
      (okRemote okLocal : Bool)
  | listen (listening : Option Address)
  | close
  | getLocalAddress (ok : Bool)
  | getRemoteAddress (ok : Bool)

/-- A socket object in use; `fresh` says that the last call, except for the two that read an address, is a
`connect` that has returned true. -/
structure Session where
  world : World
  fresh : Bool

namespace Session

def init (c : Creation) : Session := { world := c.world, fresh := false }

def next (s : Session) : Act → Session
  | .bind addr created bound ok => { world := (s.world.bind addr created bound ok).2, fresh := false }
  | .connect addr created connected okRemote okLocal =>
    let r := s.world.connect addr created connected okRemote okLocal
    { world := r.2, fresh := r.1 }
  | .listen listening => { world := (s.world.listen listening).2, fresh := false }
  | .close => { world := s.world.close.2, fresh := false }
  | .getLocalAddress ok => { s with world := (s.world.getLocalAddress ok).2 }
  | .getRemoteAddress ok => { s with world := (s.world.getRemoteAddress ok).2 }

def Step (s : Session) (a : Act) (s' : Session) : Prop := s' = s.next a

/-- After a `connect` that has returned true both addresses are those of the current descriptor, and a
connected socket has a descriptor. -/
def Described (s : Session) : Prop :=
  (s.fresh = true → ∀ ok, s.world.peername = some (s.world.getRemoteAddress ok).1 ∧
    s.world.sockname = some (s.world.getLocalAddress ok).1) ∧
  (s.world.socket.isConnected = true → s.world.socket.sock ≠ -1)

end Session

/-- The cache will give this name: it holds it, or it is empty and the system call succeeds (or the name is that
of an unknown address, which stands for a failure). -/
def Gives (family : Int) (cache : Option Address) (ok : Bool) (name : Address) : Prop :=
  cache = some name ∨ cache = none ∧ (ok = true ∨ name = unknownAddress family)

/-- A `connect` that returns true finds both caches empty, and the kernel says both names; or they are the same. -/
def Session.Uncached (s : Session) : Act → Prop
  | .connect addr created connected okRemote okLocal =>
    ∀ name peer, connected = some (name, peer) → (s.world.validate created).isValid = true →
      addr.family = s.world.socket.family →
      Gives s.world.socket.family s.world.socket.remoteAddress okRemote peer ∧
        Gives s.world.socket.family s.world.socket.localAddress okLocal name
  | _ => True

/-! ## The caches -/

section Caches

variable {w : World}

/-- Reading an address fills an empty cache if the system call succeeds. -/
theorem getRemoteAddress_eq (ok : Bool) : w.getRemoteAddress ok =
    let cache := w.socket.remoteAddress <|> if ok then w.peername else none
    (cache.getD (unknownAddress w.socket.family), { w with socket := { w.socket with remoteAddress := cache } }) := by
  obtain ⟨⟨sock, family, type, protocol, isConnected, localAddress, remoteAddress⟩, kernel⟩ := w
  cases remoteAddress with
  | some address => rfl
  | none =>
    simp only [World.getRemoteAddress]
    split
    · rename_i h
      simp [h]
    · rename_i h
      simp [h]

theorem getLocalAddress_eq (ok : Bool) : w.getLocalAddress ok =
    let cache := w.socket.localAddress <|> if ok then w.sockname else none
    (cache.getD (unknownAddress w.socket.family), { w with socket := { w.socket with localAddress := cache } }) := by
  obtain ⟨⟨sock, family, type, protocol, isConnected, localAddress, remoteAddress⟩, kernel⟩ := w
  cases localAddress with
  | some address => rfl
  | none =>
    simp only [World.getLocalAddress]
    split
    · rename_i h
      simp [h]
    · rename_i h
      simp [h]

/-- Filling the cache is the same as a system call that succeeds later. -/
theorem gives_fill {family : Int} {cache : Option Address} {ok : Bool} {name : Address} :
    Gives family (cache <|> if ok then some name else none) false name ↔ Gives family cache ok name := by
  cases cache with
  | some c => simp [Gives]
  | none => cases ok <;> simp [Gives]

/-- A cache that gives the name without a system call gives it with one. -/
theorem Gives.mono {family : Int} {cache : Option Address} {name : Address} (h : Gives family cache false name)
    (ok : Bool) : Gives family cache ok name := by
  rcases h with h | ⟨h, h' | h'⟩
  · exact .inl h
  · cases h'
  · exact .inr ⟨h, .inr h'⟩

/-- What is read is the name at every call exactly when the cache gives it without one. -/
theorem always_iff {family : Int} {cache name : Option Address} :
    (∀ ok : Bool, name = some ((cache <|> if ok then name else none).getD (unknownAddress family))) ↔
      ∃ address, name = some address ∧ Gives family cache false address := by
  constructor
  · intro h
    refine ⟨_, h false, ?_⟩
    cases cache with
    | some c => exact .inl rfl
    | none => exact .inr ⟨rfl, .inr rfl⟩
  · rintro ⟨address, rfl, rfl | ⟨rfl, h | rfl⟩⟩ ok
    · rfl
    · cases h
    · cases ok <;> rfl

/-- A connected socket has a descriptor. -/
def World.Valid (w : World) : Prop := w.socket.isConnected = true → w.socket.sock ≠ -1

theorem described_iff {s : Session} : s.Described ↔
    (s.fresh = true → (∃ peer, s.world.peername = some peer ∧
      Gives s.world.socket.family s.world.socket.remoteAddress false peer) ∧
      ∃ name, s.world.sockname = some name ∧ Gives s.world.socket.family s.world.socket.localAddress false name) ∧
    s.world.Valid := by
  simp only [Session.Described, getRemoteAddress_eq, getLocalAddress_eq, forall_and, always_iff]
  rfl

end Caches

/-! ## Steps -/

section Steps

variable {w : World}

theorem validate_cases (created : Option (Nat × Address)) (h : w.Valid) :
    (w.validate created).Valid ∧ (w.validate created).socket.family = w.socket.family ∧
      (w.validate created).socket.remoteAddress = w.socket.remoteAddress ∧
      (w.validate created).socket.localAddress = w.socket.localAddress := by
  unfold World.validate
  split
  · exact ⟨h, rfl, rfl, rfl⟩
  · rename_i hv
    have hsock : w.socket.sock = -1 := by simpa [World.isValid] using hv
    have hclosed : w.socket.isConnected ≠ true := fun hc => h hc hsock
    cases created with
    | some c => exact ⟨fun hc => absurd hc hclosed, rfl, rfl, rfl⟩
    | none => exact ⟨fun hc => absurd hc hclosed, rfl, rfl, rfl⟩

theorem close_valid : w.close.2.Valid := by
  unfold World.close
  split
  · rename_i h
    intro hc
    replace hc : w.socket.isConnected = true := hc
    rw [hc] at h
    cases h
  · split
    · intro hc
      cases hc
    · intro hc
      cases hc

theorem getLocalAddress_valid (ok : Bool) (h : w.Valid) : (w.getLocalAddress ok).2.Valid := by
  rw [getLocalAddress_eq]
  exact h

theorem bind_valid (addr : Address) (created : Option (Nat × Address)) (bound : Option Address) (ok : Bool)
    (h : w.Valid) : (w.bind addr created bound ok).2.Valid := by
  have hv := (validate_cases created h).1
  unfold World.bind
  generalize w.validate created = v at hv
  simp only
  split
  · exact hv
  · split
    · exact hv
    · cases bound with
      | none => exact hv
      | some name => exact getLocalAddress_valid ok hv

theorem listen_valid (listening : Option Address) (h : w.Valid) : (w.listen listening).2.Valid := by
  unfold World.listen
  split
  · exact h
  · cases listening with
    | none => exact h
    | some name => exact h

/-- A `connect` fails and leaves a valid socket, or names the descriptor and reads what is not cached. -/
theorem connect_cases (addr : Address) (created : Option (Nat × Address)) (connected : Option (Address × Address))
    (okRemote okLocal : Bool) (h : w.Valid) :
    let r := w.connect addr created connected okRemote okLocal
    (r.1 = false ∧ r.2.Valid ∧ ∀ name peer, connected = some (name, peer) →
      (w.validate created).isValid = true → addr.family ≠ w.socket.family) ∨
    ∃ name peer, r.1 = true ∧ connected = some (name, peer) ∧ (w.validate created).isValid = true ∧
      addr.family = w.socket.family ∧ r.2.Valid ∧ r.2.peername = some peer ∧ r.2.sockname = some name ∧
      r.2.socket.family = w.socket.family ∧
      r.2.socket.remoteAddress = (w.socket.remoteAddress <|> if okRemote then some peer else none) ∧
      r.2.socket.localAddress = (w.socket.localAddress <|> if okLocal then some name else none) := by
  obtain ⟨hv, hfamily, hremote, hlocal⟩ := validate_cases created h
  unfold World.connect
  generalize w.validate created = v at hv hfamily hremote hlocal
  simp only
  split
  · rename_i hinvalid
    refine .inl ⟨rfl, hv, fun name peer _ hvalid => ?_⟩
    simp [hvalid] at hinvalid
  · rename_i hvalid
    have hvalid : v.isValid = true := by simpa using hvalid
    split
    · rename_i hf
      exact .inl ⟨rfl, hv, fun _ _ _ _ => hfamily ▸ hf⟩
    · rename_i hf
      have hf : addr.family = v.socket.family := not_not.1 hf
      cases connected with
      | none => exact .inl ⟨rfl, close_valid, fun _ _ hc => by cases hc⟩
      | some c =>
        obtain ⟨name, peer⟩ := c
        have hsock : v.socket.sock ≠ -1 := by simpa [World.isValid] using hvalid
        refine .inr ⟨name, peer, rfl, rfl, hvalid, hf.trans hfamily, ?_⟩
        simp only [getLocalAddress_eq, getRemoteAddress_eq]
        refine ⟨fun _ => hsock, ?_, ?_, hfamily, ?_, ?_⟩
        · simp [World.peername]
        · simp [World.sockname]
        · simp [World.peername, hremote]
        · simp [World.sockname, hlocal]

theorem step_unique (s : Session) (a : Act) (t u : Session) (ht : s.Step a t) (hu : s.Step a u) : t = u :=
  ht.trans hu.symm

/-- One call keeps the addresses described exactly when it meets the condition. -/
theorem described_step {s s' : Session} {a : Act} (h : s.Described) (hs : s.Step a s') :
    s'.Described ↔ s.Uncached a := by
  obtain rfl := hs
  rw [described_iff] at h ⊢
  obtain ⟨hfresh, hvalid⟩ := h
  cases a with
  | bind addr created bound ok =>
    apply iff_of_true _ trivial
    refine ⟨fun hf => ?_, bind_valid addr created bound ok hvalid⟩
    cases hf
  | listen listening =>
    apply iff_of_true _ trivial
    refine ⟨fun hf => ?_, listen_valid listening hvalid⟩
    cases hf
  | close =>
    apply iff_of_true _ trivial
    refine ⟨fun hf => ?_, close_valid⟩
    cases hf
  | connect addr created connected okRemote okLocal =>
    simp only [Session.next]
    rcases connect_cases addr created connected okRemote okLocal hvalid with
      ⟨hfalse, hval, hno⟩ | ⟨name, peer, htrue, rfl, hv, hf, hval, hpeer, hname, hfamily, hremote, hlocal⟩
    · refine iff_of_true ⟨fun hf => ?_, hval⟩ fun name peer hc hv hf => absurd hf (hno name peer hc hv)
      rw [hfalse] at hf
      cases hf
    · rw [htrue, hpeer, hname, hfamily, hremote, hlocal]
      constructor
      · rintro ⟨hg, -⟩ name' peer' ⟨⟩ - -
        obtain ⟨⟨_, ⟨⟩, hr⟩, _, ⟨⟩, hl⟩ := hg rfl
        exact ⟨gives_fill.1 hr, gives_fill.1 hl⟩
      · intro hg
        obtain ⟨hr, hl⟩ := hg name peer rfl hv hf
        exact ⟨fun _ => ⟨⟨peer, rfl, gives_fill.2 hr⟩, name, rfl, gives_fill.2 hl⟩, hval⟩
  | getLocalAddress ok =>
    apply iff_of_true _ trivial
    simp only [Session.next, getLocalAddress_eq]
    refine ⟨fun hf => ?_, hvalid⟩
    obtain ⟨hr, name, hname, hl⟩ := hfresh hf
    refine ⟨hr, name, hname, ?_⟩
    rw [hname]
    exact gives_fill.2 (hl.mono ok)
  | getRemoteAddress ok =>
    apply iff_of_true _ trivial
    simp only [Session.next, getRemoteAddress_eq]
    refine ⟨fun hf => ?_, hvalid⟩
    obtain ⟨⟨peer, hpeer, hr⟩, hl⟩ := hfresh hf
    refine ⟨⟨peer, hpeer, ?_⟩, hl⟩
    rw [hpeer]
    exact gives_fill.2 (hr.mono ok)

end Steps

/-! ## Runs -/

theorem created_iff (c : Creation) : (Session.init c).Described ↔ c.Created := by
  have hiff : (Session.init c).Described ↔ c.world.Valid := by
    rw [described_iff]
    constructor
    · exact fun h => h.2
    · intro h
      refine ⟨fun hf => ?_, h⟩
      cases hf
  rw [hiff]
  cases c with
  | create family type protocol =>
    apply iff_of_true _ trivial
    intro hc
    cases hc
  | createUdp family type protocol created =>
    cases created with
    | some c => exact iff_of_true (fun _ => by simp [Creation.world, World.newSock]) rfl
    | none =>
      apply iff_of_false _ (by simp [Creation.Created])
      exact fun h => h rfl rfl
  | accept family type protocol newsock endpoint okLocal okRemote =>
    apply iff_of_true _ trivial
    simp [Creation.world, getRemoteAddress_eq, getLocalAddress_eq, World.Valid]

/-- The cached addresses describe the current descriptor. Over every sequence of calls on one socket object, with
system calls that succeed or fail in any way: after every `connect` that returns true the two
addresses read next are those of the current descriptor, and the flag always implies a
descriptor, exactly when the object was created with one where it says so and every `connect`
that returned true found empty caches and could ask the kernel (or found the same names). -/
theorem caches_describe (c : Creation) {as : List Act} {s : Session} (hr : Lts.Run Session.Step (.init c) as s) :
    (∀ l1 l2 t, as = l1 ++ l2 → Lts.Run Session.Step (.init c) l1 t → t.Described) ↔
      c.Created ∧ ∀ l1 a l2 t, as = l1 ++ a :: l2 → Lts.Run Session.Step (.init c) l1 t → t.Uncached a := by
  by_cases hc : c.Created
  · have hiff := hr.invariant_iff (K := Session.Uncached) step_unique ((created_iff c).2 hc)
      fun t a u => described_step
    rw [hiff]
    exact (and_iff_right hc).symm
  · apply iff_of_false
    · intro h
      exact hc ((created_iff c).1 (h [] as _ rfl .nil))
    · exact fun h => hc h.1

/-- An `AF_INET` address with this port and host. -/
def inet (port host : UInt8) : Address := { family := 2, data := [0, port, 10, 0, 0, host, 0, 0, 0, 0, 0, 0, 0, 0] }

/-- A call that opens descriptor 3 and connects it from the first port to the second host. -/
def connectTo (port host : UInt8) : Act :=
  .connect (inet 80 host) (some (3, inet 0 0)) (some (inet port 1, inet 80 host)) true true

/-- After a second connection the first peer is still what is read. -/
theorem reconnected_stale : ¬ ∀ (c : Creation) (as : List Act) (s : Session), c.Created →
    Lts.Run Session.Step (.init c) as s → s.Described := by
  intro h
  have hr : Lts.Run Session.Step (.init (.create 2 1 0)) [connectTo 40 2, .close, connectTo 41 3] _ :=
    .cons rfl (.cons rfl (.single rfl))
  have hpeer := ((h (.create 2 1 0) _ _ trivial hr).1 rfl true).1
  exact absurd hpeer (by decide)

/-- One connection on a new socket. -/
theorem caches_describe_first : ∃ s, Lts.Run Session.Step (.init (.create 2 1 0)) [connectTo 40 2] s ∧ s.Described := by
  have hr : Lts.Run Session.Step (.init (.create 2 1 0)) [connectTo 40 2] _ := .single rfl
  refine ⟨_, hr, (caches_describe (.create 2 1 0) hr).2 ⟨trivial, fun l1 a l2 t ha ht => ?_⟩ _ [] _ rfl hr⟩
  cases l1 with
  | nil =>
    obtain ⟨rfl, -⟩ := List.cons.inj ha
    obtain rfl : t = .init (.create 2 1 0) := ht.unique step_unique .nil
    rintro name peer ⟨⟩ - -
    exact ⟨.inr ⟨rfl, .inl rfl⟩, .inr ⟨rfl, .inl rfl⟩⟩
  | cons b l1 => simp at ha

end ServerFrame.Sockets
