/-
The life of a `TcpServer` (`tcp_server.cc`) across its calls and its tasks: the loops of `startAccept`, the task of
`stop` and the clients that are handled. Each of them holds a pointer to the server, which is destroyed with the last
one. The loops read `m_isStop` when they please, and the sockets are closed by the task of `stop`, which runs some time
after it: it wakes the loops that wait in `accept`, and then closes. `m_socks` has no lock; `bind` and each half of the
task of `stop` are taken to go through it at once.
-/
import ServerFrame.Lib.Run
import Mathlib

namespace ServerFrame.Accepting

/-- Where a call of `startAccept` is: at its test of `m_isStop`, in `sock->accept()`, in there held until the socket is
ready or the event cancelled, and with a client to schedule. -/
inductive Phase
  | test
  | accept
  | waiting
  | client (c : Nat)
deriving DecidableEq, Repr

/-- A call of `startAccept(sock)`. -/
structure Loop where
  sock : Nat
  phase : Phase
deriving DecidableEq, Repr

/-- The server and its tasks: `m_isStop`, `m_socks`, the sockets that are closed among all that were bound, the loops,
the tasks of `stop` that have not ended and how many of them have cancelled the events, the clients that were accepted
and those that were scheduled, the tasks of `handleClient` that have not ended, whether the caller holds a pointer, and
whether the server lives. -/
structure System where
  isStop : Bool := true
  socks : List Nat := []
  bound : List Nat := []
  closed : Nat → Bool := fun _ => false
  loops : List Loop := []
  stops : Nat := 0
  cancelled : Nat := 0
  accepted : List Nat := []
  scheduled : List Nat := []
  handling : Nat := 0
  held : Bool := true
  alive : Bool := true

/-- Calls of the server, and what its tasks do. -/
inductive Act
  | bind (added : List Nat) (ok : Bool)
  | start
  | stop
  | drop
  | cancel
  | cleanup
  | test (sock : Nat)
  | wait (sock : Nat)
  | wake (sock : Nat)
  | accept (sock : Nat) (client : Option Nat)
  | schedule (sock client : Nat)
  | handled
deriving DecidableEq

namespace System

variable (s : System)

/-- Someone holds a pointer to the server. -/
def used : Bool := s.held || !s.loops.isEmpty || decide (0 < s.stops) || decide (0 < s.handling)

/-- `close` of all sockets, and `m_socks.clear()`. -/
def closeAll : System := { s with closed := fun x => s.closed x || decide (x ∈ s.socks), socks := [] }

/-- Sockets that neither the server nor a loop holds are closed. -/
def closeUnheld : System :=
  { s with closed := fun x =>
      s.closed x || decide (x ∈ s.bound ∧ x ∉ s.socks ∧ ∀ a ∈ s.loops, a.sock ≠ x) }

/-- A pointer to the server is let go, and with the last one `~TcpServer` runs. -/
def release : System := if s.used then s else { s.closeAll with alive := false }

/-- A step of a loop. -/
def move (a : Loop) (phase : Phase) : System := { s with loops := ⟨a.sock, phase⟩ :: s.loops.erase a }

/-- A loop after `cancelAll` of the sockets of the server. -/
def wake (a : Loop) : Loop := if a.phase = .waiting ∧ a.sock ∈ s.socks then ⟨a.sock, .accept⟩ else a

/-- A step. The server is called by its caller and by the tasks that handle its clients. A closed socket accepts
nothing, and nobody is woken there: a loop that waits again between the `cancelAll` of `close` and its `close_f` waits
for ever. -/
def next (s : System) : Act → Option System
  | .bind added ok =>
    if s.held ∨ 0 < s.handling then
      let r := { s with bound := s.bound ++ added, socks := s.socks ++ added }
      some (if ok then r else closeUnheld { r with socks := [] })
    else none
  | .start =>
    if s.held ∨ 0 < s.handling then
      some (if s.isStop then { s with isStop := false, loops := s.loops ++ s.socks.map fun x => ⟨x, .test⟩ } else s)
    else none
  | .stop => if s.held ∨ 0 < s.handling then some { s with isStop := true, stops := s.stops + 1 } else none
  | .drop => if s.held then some (release { s with held := false }) else none
  | .cancel =>
    if s.cancelled < s.stops then some { s with loops := s.loops.map s.wake, cancelled := s.cancelled + 1 } else none
  | .cleanup =>
    if 0 < s.stops ∧ 0 < s.cancelled then
      some (release { s.closeAll with stops := s.stops - 1, cancelled := s.cancelled - 1 })
    else none
  | .test sock =>
    if ⟨sock, .test⟩ ∈ s.loops then
      some (if s.isStop then (closeUnheld { s with loops := s.loops.erase ⟨sock, .test⟩ }).release
        else s.move ⟨sock, .test⟩ .accept)
    else none
  | .wait sock =>
    if ⟨sock, .accept⟩ ∈ s.loops ∧ s.closed sock = false then some (s.move ⟨sock, .accept⟩ .waiting) else none
  | .wake sock =>
    if ⟨sock, .waiting⟩ ∈ s.loops ∧ s.closed sock = false then some (s.move ⟨sock, .waiting⟩ .accept) else none
  | .accept sock none => if ⟨sock, .accept⟩ ∈ s.loops then some (s.move ⟨sock, .accept⟩ .test) else none
  | .accept sock (some c) =>
    if ⟨sock, .accept⟩ ∈ s.loops ∧ s.closed sock = false ∧ c ∉ s.accepted then
      some { s.move ⟨sock, .accept⟩ (.client c) with accepted := s.accepted ++ [c] }
    else none
  | .schedule sock c =>
    if ⟨sock, .client c⟩ ∈ s.loops then
      some { s.move ⟨sock, .client c⟩ .test with scheduled := s.scheduled ++ [c], handling := s.handling + 1 }
    else none
  | .handled => if 0 < s.handling then some (release { s with handling := s.handling - 1 }) else none

/-- `TcpServer(worker, accept_worker)`. -/
def init : System := {}

def Step (s : System) (a : Act) (s' : System) : Prop := s.next a = some s'

/-- What a step comes to, branch by branch. -/
inductive Outcome (s : System) : Act → System → Prop
  | bound (added : List Nat) (hc : s.held = true ∨ 0 < s.handling) :
    Outcome s (.bind added true) { s with bound := s.bound ++ added, socks := s.socks ++ added }
  | unbound (added : List Nat) (hc : s.held = true ∨ 0 < s.handling) :
    Outcome s (.bind added false) (closeUnheld { s with bound := s.bound ++ added, socks := [] })
  | started (hc : s.held = true ∨ 0 < s.handling) (hstop : s.isStop = true) :
    Outcome s .start { s with isStop := false, loops := s.loops ++ s.socks.map fun x => ⟨x, .test⟩ }
  | running (hstop : s.isStop = false) : Outcome s .start s
  | stopped (hc : s.held = true ∨ 0 < s.handling) : Outcome s .stop { s with isStop := true, stops := s.stops + 1 }
  | dropped (hheld : s.held = true) : Outcome s .drop (release { s with held := false })
  | cancelled (hc : s.cancelled < s.stops) :
    Outcome s .cancel { s with loops := s.loops.map s.wake, cancelled := s.cancelled + 1 }
  | closed (hpos : 0 < s.stops) :
    Outcome s .cleanup (release { s.closeAll with stops := s.stops - 1, cancelled := s.cancelled - 1 })
  | ended {sock : Nat} (ha : ⟨sock, .test⟩ ∈ s.loops) (hstop : s.isStop = true) :
    Outcome s (.test sock) (closeUnheld { s with loops := s.loops.erase ⟨sock, .test⟩ }).release
  | entered {sock : Nat} (ha : ⟨sock, .test⟩ ∈ s.loops) (hstop : s.isStop = false) :
    Outcome s (.test sock) (s.move ⟨sock, .test⟩ .accept)
  | waits {sock : Nat} (ha : ⟨sock, .accept⟩ ∈ s.loops) (hopen : s.closed sock = false) :
    Outcome s (.wait sock) (s.move ⟨sock, .accept⟩ .waiting)
  | woken {sock : Nat} (ha : ⟨sock, .waiting⟩ ∈ s.loops) : Outcome s (.wake sock) (s.move ⟨sock, .waiting⟩ .accept)
  | failed {sock : Nat} (ha : ⟨sock, .accept⟩ ∈ s.loops) :
    Outcome s (.accept sock none) (s.move ⟨sock, .accept⟩ .test)
  | accepted {sock c : Nat} (ha : ⟨sock, .accept⟩ ∈ s.loops) (hopen : s.closed sock = false) (hc : c ∉ s.accepted) :
    Outcome s (.accept sock (some c)) { s.move ⟨sock, .accept⟩ (.client c) with accepted := s.accepted ++ [c] }
  | scheduled {sock c : Nat} (ha : ⟨sock, .client c⟩ ∈ s.loops) : Outcome s (.schedule sock c)
    { s.move ⟨sock, .client c⟩ .test with scheduled := s.scheduled ++ [c], handling := s.handling + 1 }
  | handled (hpos : 0 < s.handling) : Outcome s .handled (release { s with handling := s.handling - 1 })

theorem step_outcome {s s' : System} {act : Act} (h : s.Step act s') : s.Outcome act s' := by
  unfold Step next at h
  cases act with
  | bind added ok =>
    simp only [Option.ite_none_right_eq_some, Option.some.injEq] at h
    obtain ⟨hc, rfl⟩ := h
    cases ok with
    | true => exact .bound added hc
    | false => exact .unbound added hc
  | start =>
    simp only [Option.ite_none_right_eq_some, Option.some.injEq] at h
    obtain ⟨hc, rfl⟩ := h
    split
    · rename_i hstop
      exact .started hc hstop
    · rename_i hstop
      exact .running (Bool.eq_false_iff.2 hstop)
  | test sock =>
    simp only [Option.ite_none_right_eq_some, Option.some.injEq] at h
    obtain ⟨ha, rfl⟩ := h
    split
    · rename_i hstop
      exact .ended ha hstop
    · rename_i hstop
      exact .entered ha (Bool.eq_false_iff.2 hstop)
  | accept sock client =>
    cases client with
    | none =>
      simp only [Option.ite_none_right_eq_some, Option.some.injEq] at h
      obtain ⟨ha, rfl⟩ := h
      exact .failed ha
    | some c =>
      simp only [Option.ite_none_right_eq_some, Option.some.injEq] at h
      obtain ⟨⟨ha, hopen, hc⟩, rfl⟩ := h
      exact .accepted ha hopen hc
  | stop =>
    simp only [Option.ite_none_right_eq_some, Option.some.injEq] at h
    obtain ⟨hc, rfl⟩ := h
    exact .stopped hc
  | drop =>
    simp only [Option.ite_none_right_eq_some, Option.some.injEq] at h
    obtain ⟨hheld, rfl⟩ := h
    exact .dropped hheld
  | cancel =>
    simp only [Option.ite_none_right_eq_some, Option.some.injEq] at h
    obtain ⟨hc, rfl⟩ := h
    exact .cancelled hc
  | cleanup =>
    simp only [Option.ite_none_right_eq_some, Option.some.injEq] at h
    obtain ⟨⟨hpos, -⟩, rfl⟩ := h
    exact .closed hpos
  | wait sock =>
    simp only [Option.ite_none_right_eq_some, Option.some.injEq] at h
    obtain ⟨⟨ha, hopen⟩, rfl⟩ := h
    exact .waits ha hopen
  | wake sock =>
    simp only [Option.ite_none_right_eq_some, Option.some.injEq] at h
    obtain ⟨⟨ha, -⟩, rfl⟩ := h
    exact .woken ha
  | schedule sock c =>
    simp only [Option.ite_none_right_eq_some, Option.some.injEq] at h
    obtain ⟨ha, rfl⟩ := h
    exact .scheduled ha
  | handled =>
    simp only [Option.ite_none_right_eq_some, Option.some.injEq] at h
    obtain ⟨hpos, rfl⟩ := h
    exact .handled hpos

end System

/-! ## What holds all along -/

/-- The client that a loop has to schedule. -/
def Loop.client (a : Loop) : Option Nat :=
  match a.phase with
  | .client c => some c
  | .test | .accept | .waiting => none

/-- The clients that have been accepted and not been scheduled. -/
def inFlight (loops : List Loop) : List Nat := loops.filterMap Loop.client

/-- The clients, and who holds the sockets. -/
structure Kept (s : System) : Prop where
  nodup : s.accepted.Nodup
  clients : s.accepted.Perm (s.scheduled ++ inFlight s.loops)
  sockets : ∀ x ∈ s.bound, s.closed x = true ∨ x ∈ s.socks ∨ ∃ a ∈ s.loops, a.sock = x

/-- The server lives while someone holds a pointer to it. -/
structure Owned (s : System) : Prop where
  alive : s.alive = s.used
  socks : s.alive = false → s.socks = []

section Steps

variable {s s' : System} {a : Loop}

/-- A loop that moves is the only one to change. -/
theorem perm_move (ha : a ∈ s.loops) : s.loops.Perm (a :: s.loops.erase a) := List.perm_cons_erase ha

theorem inFlight_cons (a : Loop) (l : List Loop) : inFlight (a :: l) = a.client.toList ++ inFlight l := by
  cases h : a.client with
  | none => exact List.filterMap_cons_none h
  | some c => exact List.filterMap_cons_some h

theorem inFlight_move (ha : a ∈ s.loops) : (inFlight s.loops).Perm (a.client.toList ++ inFlight (s.loops.erase a)) := by
  rw [← inFlight_cons]
  exact (perm_move ha).filterMap _

/-- Sockets are held by the loops after a move as before it. -/
theorem holds_move (ha : a ∈ s.loops) (p : Phase) (x : Nat) :
    (∃ b ∈ (s.move a p).loops, b.sock = x) ↔ ∃ b ∈ s.loops, b.sock = x := by
  have hold : (∃ b ∈ s.loops, b.sock = x) ↔ ∃ b ∈ a :: s.loops.erase a, b.sock = x := by
    constructor
    · rintro ⟨b, hb, hx⟩
      exact ⟨b, (perm_move ha).mem_iff.1 hb, hx⟩
    · rintro ⟨b, hb, hx⟩
      exact ⟨b, (perm_move ha).mem_iff.2 hb, hx⟩
  rw [hold]
  simp [System.move]

theorem wake_sock (s : System) (a : Loop) : (s.wake a).sock = a.sock := by
  unfold System.wake
  split <;> rfl

theorem wake_client (s : System) (a : Loop) : (s.wake a).client = a.client := by
  unfold System.wake
  split
  · rename_i h
    obtain ⟨sock, phase⟩ := a
    obtain ⟨rfl, -⟩ := h
    rfl
  · rfl

theorem inFlight_wake (s : System) (l : List Loop) : inFlight (l.map s.wake) = inFlight l := by
  rw [inFlight, List.filterMap_map]
  exact List.filterMap_congr fun a _ => wake_client s a

namespace Kept

theorem closeAll (h : Kept s) : Kept s.closeAll where
  nodup := h.nodup
  clients := h.clients
  sockets x hx := by
    rcases h.sockets x hx with hc | hs | ha
    · exact .inl (by simp [System.closeAll, hc])
    · exact .inl (by simp [System.closeAll, hs])
    · exact .inr (.inr ha)

theorem release (h : Kept s) : Kept s.release := by
  unfold System.release
  split
  · exact h
  · exact ⟨h.closeAll.nodup, h.closeAll.clients, h.closeAll.sockets⟩

/-- Sockets that nobody holds are closed, whatever was let go. -/
theorem closeUnheld (hnodup : s.accepted.Nodup) (hclients : s.accepted.Perm (s.scheduled ++ inFlight s.loops)) :
    Kept s.closeUnheld where
  nodup := hnodup
  clients := hclients
  sockets x hx := by
    by_cases hs : x ∈ s.socks
    · exact .inr (.inl hs)
    · by_cases ha : ∃ a ∈ s.loops, a.sock = x
      · exact .inr (.inr ha)
      · refine .inl ?_
        have hx' : x ∈ s.bound := hx
        have hd : decide (x ∈ s.bound ∧ x ∉ s.socks ∧ ∀ a ∈ s.loops, a.sock ≠ x) = true :=
          decide_eq_true ⟨hx', hs, fun a hmem hsock => ha ⟨a, hmem, hsock⟩⟩
        change (s.closed x || _) = true
        rw [hd, Bool.or_true]

/-- A loop that moves, with the clients that the move leaves. -/
theorem move (h : Kept s) (ha : a ∈ s.loops) {p : Phase} {accepted scheduled : List Nat} {handling : Nat}
    (hnodup : accepted.Nodup)
    (hclients : (s.scheduled ++ (a.client.toList ++ inFlight (s.loops.erase a))).Perm s.accepted →
      accepted.Perm (scheduled ++ ((Loop.mk a.sock p).client.toList ++ inFlight (s.loops.erase a)))) :
    Kept { s.move a p with accepted, scheduled, handling } where
  nodup := hnodup
  clients := by
    have hperm := hclients ((h.clients.trans ((inFlight_move ha).append_left _)).symm)
    change accepted.Perm (scheduled ++ inFlight (⟨a.sock, p⟩ :: s.loops.erase a))
    rw [inFlight_cons]
    exact hperm
  sockets x hx := by
    have hheld := holds_move ha p x
    rcases h.sockets x hx with hc | hs | hl
    · exact .inl hc
    · exact .inr (.inl hs)
    · exact .inr (.inr (hheld.2 hl))

end Kept

namespace Owned

theorem of_used (ha : s.alive = true) (hu : s.used = true) : Owned s where
  alive := ha.trans hu.symm
  socks h := by
    rw [ha] at h
    cases h

theorem release (ha : s.alive = true) : Owned s.release := by
  unfold System.release
  split
  · rename_i hu
    exact of_used ha hu
  · rename_i hu
    exact ⟨(Bool.eq_false_iff.2 hu).symm, fun _ => rfl⟩

theorem alive_of_loop (h : Owned s) (ha : a ∈ s.loops) : s.alive = true := by
  have hne : s.loops.isEmpty = false := List.isEmpty_eq_false_iff.2 (List.ne_nil_of_mem ha)
  rw [h.alive, System.used, hne]
  simp

theorem alive_of_stop (h : Owned s) (hpos : 0 < s.stops) : s.alive = true := by
  rw [h.alive, System.used]
  simp [hpos]

theorem alive_of_call (h : Owned s) (hc : s.held = true ∨ 0 < s.handling) : s.alive = true := by
  rw [h.alive, System.used]
  rcases hc with hc | hc <;> simp [hc]

/-- Who may call the server keeps it alive. -/
theorem of_call (h : Owned s) (hc : s.held = true ∨ 0 < s.handling) (ha : s'.alive = s.alive) (hh : s'.held = s.held)
    (hn : s'.handling = s.handling) : Owned s' := by
  refine of_used (ha.trans (h.alive_of_call hc)) ?_
  rw [← hh, ← hn] at hc
  rw [System.used]
  rcases hc with hc | hc <;> simp [hc]

theorem of_loop (ha : s.alive = true) (hl : s.loops ≠ []) : Owned s := by
  refine of_used ha ?_
  rw [System.used, List.isEmpty_eq_false_iff.2 hl]
  simp

end Owned

/-- A step keeps the clients and the sockets. -/
theorem kept_step {act : Act} (h : Kept s) (hs : System.Step s act s') : Kept s' := by
  cases System.step_outcome hs with
  | bound added =>
    refine ⟨h.nodup, h.clients, fun x hx => ?_⟩
    rcases List.mem_append.1 hx with hx | hx
    · rcases h.sockets x hx with hc | hs | ha
      · exact .inl hc
      · exact .inr (.inl (List.mem_append_left _ hs))
      · exact .inr (.inr ha)
    · exact .inr (.inl (List.mem_append_right _ hx))
  | unbound added => exact Kept.closeUnheld h.nodup h.clients
  | started =>
    have hflight : inFlight (s.socks.map fun x => ⟨x, .test⟩) = [] := by simp [inFlight, Loop.client]
    refine ⟨h.nodup, ?_, fun x hx => ?_⟩
    · change s.accepted.Perm (s.scheduled ++ inFlight (s.loops ++ _))
      rw [inFlight, List.filterMap_append]
      change s.accepted.Perm (s.scheduled ++ (inFlight s.loops ++ inFlight _))
      rw [hflight, List.append_nil]
      exact h.clients
    · rcases h.sockets x hx with hc | hs | ⟨a, ha, hx⟩
      · exact .inl hc
      · exact .inr (.inl hs)
      · exact .inr (.inr ⟨a, List.mem_append_left _ ha, hx⟩)
  | running => exact h
  | stopped => exact ⟨h.nodup, h.clients, h.sockets⟩
  | dropped => exact Kept.release ⟨h.nodup, h.clients, h.sockets⟩
  | handled => exact Kept.release ⟨h.nodup, h.clients, h.sockets⟩
  | cancelled =>
    refine ⟨h.nodup, ?_, fun x hx => ?_⟩
    · change s.accepted.Perm (s.scheduled ++ inFlight (s.loops.map s.wake))
      rw [inFlight_wake]
      exact h.clients
    · rcases h.sockets x hx with hc | hs | ⟨a, ha, hx⟩
      · exact .inl hc
      · exact .inr (.inl hs)
      · exact .inr (.inr ⟨s.wake a, List.mem_map_of_mem ha, (wake_sock s a).trans hx⟩)
  | closed => exact Kept.release ⟨h.closeAll.nodup, h.closeAll.clients, h.closeAll.sockets⟩
  | ended ha =>
    refine Kept.release (Kept.closeUnheld h.nodup ?_)
    exact h.clients.trans ((inFlight_move ha).append_left _)
  | entered ha => exact h.move ha h.nodup fun hc => hc.symm
  | waits ha => exact h.move ha h.nodup fun hc => hc.symm
  | woken ha => exact h.move ha h.nodup fun hc => hc.symm
  | failed ha => exact h.move ha h.nodup fun hc => hc.symm
  | @accepted sock c ha _ hc =>
    refine h.move ha ?_ fun hclients => ?_
    · exact h.nodup.append (List.nodup_singleton c) (by simpa using hc)
    · refine ((hclients.symm.append_right [c]).trans List.perm_append_comm).trans ?_
      change (c :: (s.scheduled ++ inFlight (s.loops.erase ⟨sock, .accept⟩))).Perm
        (s.scheduled ++ c :: inFlight (s.loops.erase ⟨sock, .accept⟩))
      exact List.perm_middle.symm
  | scheduled ha =>
    refine h.move ha h.nodup fun hclients => ?_
    rw [List.append_assoc]
    exact hclients.symm

/-- A step keeps the server alive while it is used. -/
theorem owned_step {act : Act} (h : Owned s) (hs : System.Step s act s') : Owned s' := by
  cases System.step_outcome hs with
  | bound added hc => exact h.of_call hc rfl rfl rfl
  | unbound added hc => exact h.of_call hc rfl rfl rfl
  | started hc => exact h.of_call hc rfl rfl rfl
  | running => exact h
  | stopped hc => exact h.of_call hc rfl rfl rfl
  | dropped hheld => exact Owned.release (h.alive_of_call (.inl hheld))
  | handled hpos => exact Owned.release (h.alive_of_call (.inr hpos))
  | cancelled hc =>
    have hpos : 0 < s.stops := Nat.zero_lt_of_lt hc
    refine Owned.of_used (h.alive_of_stop hpos) ?_
    rw [System.used]
    simp [hpos]
  | closed hpos =>
    exact Owned.release (s := { s.closeAll with stops := s.stops - 1, cancelled := s.cancelled - 1 })
      (h.alive_of_stop hpos)
  | ended ha => exact Owned.release (h.alive_of_loop ha)
  | entered ha => exact Owned.of_loop (h.alive_of_loop ha) (List.cons_ne_nil _ _)
  | waits ha => exact Owned.of_loop (h.alive_of_loop ha) (List.cons_ne_nil _ _)
  | woken ha => exact Owned.of_loop (h.alive_of_loop ha) (List.cons_ne_nil _ _)
  | failed ha => exact Owned.of_loop (h.alive_of_loop ha) (List.cons_ne_nil _ _)
  | accepted ha => exact Owned.of_loop (h.alive_of_loop ha) (List.cons_ne_nil _ _)
  | scheduled ha => exact Owned.of_loop (h.alive_of_loop ha) (List.cons_ne_nil _ _)

end Steps

/-! ## Every run -/

section Runs

variable {s t u : System} {l l' : List Act}

theorem of_run (h : Lts.Run System.Step System.init l s) : Kept s ∧ Owned s := by
  refine h.invariant (P := fun s => Kept s ∧ Owned s)
    ⟨⟨List.nodup_nil, .refl _, fun x hx => by cases hx⟩, ⟨rfl, fun _ => rfl⟩⟩ ?_
  intro t a u hp hst
  exact ⟨kept_step hp.1 hst, owned_step hp.2 hst⟩

/-- Every client that is accepted is accepted once and scheduled once, or is about to be by its loop. A socket that is
not closed is the server's or a loop's. The server is destroyed with the last pointer to it, and then all its sockets
are closed and all clients scheduled. -/
theorem server_serves (h : Lts.Run System.Step System.init l s) :
    s.accepted.Nodup ∧ s.accepted.Perm (s.scheduled ++ inFlight s.loops) ∧
      (∀ x ∈ s.bound, s.closed x = true ∨ x ∈ s.socks ∨ ∃ a ∈ s.loops, a.sock = x) ∧
      (s.alive = false ↔ s.held = false ∧ s.loops = [] ∧ s.stops = 0 ∧ s.handling = 0) ∧
      (s.alive = false → (∀ x ∈ s.bound, s.closed x = true) ∧ s.scheduled.Perm s.accepted) := by
  obtain ⟨hkept, howned⟩ := of_run h
  have hdead : s.alive = false ↔ s.held = false ∧ s.loops = [] ∧ s.stops = 0 ∧ s.handling = 0 := by
    rw [howned.alive, System.used]
    simp [and_assoc]
  refine ⟨hkept.nodup, hkept.clients, hkept.sockets, hdead, fun ha => ?_⟩
  obtain ⟨-, hloops, -, -⟩ := hdead.1 ha
  refine ⟨fun x hx => ?_, ?_⟩
  · rcases hkept.sockets x hx with hc | hs | ⟨a, hmem, -⟩
    · exact hc
    · rw [howned.socks ha] at hs
      cases hs
    · rw [hloops] at hmem
      cases hmem
  · have hclients := hkept.clients
    rw [hloops] at hclients
    simpa [inFlight] using hclients.symm

/-- A server that accepts one client, stops, and is destroyed when the client has been handled. -/
theorem server_serves_one : ∃ s, Lts.Run System.Step System.init [.bind [3] true, .start, .test 3, .accept 3 (some 5),
    .schedule 3 5, .stop, .test 3, .cancel, .cleanup, .drop, .handled] s ∧ s.alive = false ∧
    (∀ x ∈ s.bound, s.closed x = true) ∧ s.scheduled.Perm s.accepted := by
  obtain ⟨s, hs⟩ : ∃ s, [Act.bind [3] true, .start, .test 3, .accept 3 (some 5), .schedule 3 5, .stop, .test 3,
      .cancel, .cleanup, .drop, .handled].foldlM System.next System.init = some s := ⟨_, rfl⟩
  have halive : s.alive = false := (congrArg (fun r => (r.map System.alive).getD true) hs).symm
  have hrun := Lts.Run.of_foldlM (fun _ _ _ h => h) hs
  exact ⟨s, hrun, halive, (server_serves hrun).2.2.2.2 halive⟩

end Runs

/-! ## Stopping -/

/-- How many steps a loop may take that is told to stop. -/
def Phase.weight : Phase → Nat
  | .test => 1
  | .client _ => 2
  | .accept | .waiting => 3

/-- The loop is in `accept`. -/
def Phase.inAccept : Phase → Bool
  | .accept | .waiting => true
  | .test | .client _ => false

namespace Act

/-- A step of a task of the server that brings it on: a loop that waits in `accept` and is woken is where it was. -/
def isTask : Act → Bool
  | .cleanup | .test _ | .accept _ _ | .schedule _ _ => true
  | .bind _ _ | .start | .stop | .drop | .handled | .cancel | .wait _ | .wake _ => false

/-- A step of a task that waits for nothing: in `accept`, a closed socket is told at once, and on an open one the loop
takes to waiting. -/
def Ready (s : System) : Act → Prop
  | .cancel | .cleanup | .test _ | .wait _ | .schedule _ _ => True
  | .accept sock _ => s.closed sock = true
  | .bind _ _ | .start | .stop | .drop | .handled | .wake _ => False

/-- A call of `bind` that fails, which clears `m_socks`. -/
def Fails (a : Act) : Prop := ∃ added, a = .bind added false

end Act

namespace System

variable (s : System)

/-- The steps that the tasks may take, when they are told to stop. -/
def work : Nat := s.stops + (s.loops.map fun a => a.phase.weight).sum

/-- The loops that are in `accept`. -/
def accepting : Nat := s.loops.countP fun a => a.phase.inAccept

/-- The loops hold sockets of the server or closed ones. -/
def Attached : Prop := ∀ a ∈ s.loops, a.sock ∈ s.socks ∨ s.closed a.sock = true

/-- Loops wait for open sockets. -/
def Awake : Prop := ∀ a ∈ s.loops, a.phase = .waiting → s.closed a.sock = false

end System

section Stop

variable {s s' : System} {a : Loop} {p : Phase}

theorem weight_move (ha : a ∈ s.loops) :
    ((s.move a p).loops.map fun a => a.phase.weight).sum + a.phase.weight =
      (s.loops.map fun a => a.phase.weight).sum + p.weight := by
  have hsum := ((perm_move ha).map fun a => a.phase.weight).sum_eq
  rw [hsum]
  simp only [System.move, List.map_cons, List.sum_cons]
  omega

theorem weight_erase (ha : a ∈ s.loops) :
    ((s.loops.erase a).map fun a => a.phase.weight).sum + a.phase.weight =
      (s.loops.map fun a => a.phase.weight).sum := by
  have hsum := ((perm_move ha).map fun a => a.phase.weight).sum_eq
  rw [hsum, List.map_cons, List.sum_cons, Nat.add_comm]

theorem wake_phase (s : System) (a : Loop) :
    (s.wake a).phase.weight = a.phase.weight ∧ (s.wake a).phase.inAccept = a.phase.inAccept := by
  unfold System.wake
  split
  · rename_i h
    rw [h.1]
    exact ⟨rfl, rfl⟩
  · exact ⟨rfl, rfl⟩

theorem weights_wake (s : System) : (s.loops.map s.wake).map (fun a => a.phase.weight) =
    s.loops.map fun a => a.phase.weight := by
  rw [List.map_map]
  exact List.map_congr_left fun a _ => (wake_phase s a).1

theorem accepting_wake (s : System) :
    (s.loops.map s.wake).countP (fun a => a.phase.inAccept) = s.accepting := by
  rw [List.countP_map]
  exact List.countP_congr fun a _ => by rw [Function.comp_apply, (wake_phase s a).2]

theorem release_frame : s.release.isStop = s.isStop ∧ s.release.loops = s.loops ∧ s.release.stops = s.stops ∧
    s.release.accepted = s.accepted ∧ (∀ x, s.closed x = true → s.release.closed x = true) ∧
    ∀ x, x ∈ s.socks → x ∈ s.release.socks ∨ s.release.closed x = true := by
  unfold System.release
  split
  · exact ⟨rfl, rfl, rfl, rfl, fun _ h => h, fun _ h => .inl h⟩
  · exact ⟨rfl, rfl, rfl, rfl, fun x h => by simp [System.closeAll, h], fun x h => .inr (by simp [System.closeAll, h])⟩

/-- What a step other than `start` does to a server that has been told to stop, to the sockets, and to a server that
goes on. -/
structure Effect (s : System) (act : Act) (s' : System) : Prop where
  loops : ∀ a ∈ s'.loops, ∃ b ∈ s.loops, b.sock = a.sock
  closed : ∀ x, s.closed x = true → s'.closed x = true
  socks : ¬ act.Fails → ∀ x ∈ s.socks, x ∈ s'.socks ∨ s'.closed x = true
  stops : 0 < s.stops → 0 < s'.stops ∨ ∀ x ∈ s.socks, s'.closed x = true
  stopped : s.isStop = true → s'.isStop = true ∧
    s'.work + (if act.isTask then 1 else 0) ≤ s.work + (if act = .stop then 1 else 0) ∧
    s'.accepted.length + s'.accepting ≤ s.accepted.length + s.accepting
  going : s.isStop = false → act ≠ .stop → s'.isStop = false ∧ s'.loops.length = s.loops.length ∧
    (s'.accepted = s.accepted ∨ ∃ a ∈ s.loops, s.closed a.sock = false)

namespace Effect

/-- A step that is none of the loops' and changes nothing of the tasks. -/
theorem frame {act : Act} (hisStop : s'.isStop = s.isStop) (hloops : s'.loops = s.loops) (hstops : s'.stops = s.stops)
    (haccepted : s'.accepted = s.accepted) (hclosed : ∀ x, s.closed x = true → s'.closed x = true)
    (hsocks : ¬ act.Fails → ∀ x ∈ s.socks, x ∈ s'.socks ∨ s'.closed x = true) (ht : act.isTask = false) :
    Effect s act s' where
  loops a ha := ⟨a, hloops ▸ ha, rfl⟩
  closed := hclosed
  socks := hsocks
  stops h := .inl (hstops ▸ h)
  stopped h := by
    refine ⟨hisStop.trans h, ?_, ?_⟩
    · rw [System.work, System.work, hstops, hloops, ht]
      simp
    · rw [System.accepting, System.accepting, hloops, haccepted]
  going h _ := ⟨hisStop.trans h, by rw [hloops], .inl haccepted⟩

/-- What is let go after a step changes none of this. -/
theorem release {act : Act} (h : Effect s act s') : Effect s act s'.release := by
  obtain ⟨hisStop, hloops, hstops, haccepted, hclosed, hsocks⟩ := release_frame (s := s')
  refine ⟨by rw [hloops]; exact h.loops, fun x hx => hclosed x (h.closed x hx), fun hf x hx => ?_, fun hs => ?_,
    fun hs => ?_, fun hs ha => ?_⟩
  · rcases h.socks hf x hx with hx | hx
    · exact hsocks x hx
    · exact .inr (hclosed x hx)
  · rcases h.stops hs with hs | hs
    · exact .inl (hstops ▸ hs)
    · exact .inr fun x hx => hclosed x (hs x hx)
  · rw [hisStop, haccepted, System.work, System.accepting, hstops, hloops]
    exact h.stopped hs
  · rw [hisStop, hloops, haccepted]
    exact h.going hs ha

/-- A step of a loop that brings it on, or leaves it where it was. -/
theorem move {act : Act} {accepted scheduled : List Nat} {handling : Nat} (ha : a ∈ s.loops)
    (hp : s.isStop = true → p.weight + (if act.isTask then 1 else 0) ≤ a.phase.weight)
    (hlength : s.isStop = true → accepted.length + (if p.inAccept then 1 else 0) ≤
      s.accepted.length + if a.phase.inAccept then 1 else 0)
    (haccepted : accepted = s.accepted ∨ s.closed a.sock = false) (hstop : act ≠ .stop) :
    Effect s act { s.move a p with accepted, scheduled, handling } where
  loops b hb := (holds_move ha p b.sock).1 ⟨b, hb, rfl⟩
  closed x hx := hx
  socks _ x hx := .inl hx
  stops h := .inl h
  stopped h := by
    have hw := weight_move (p := p) ha
    have hlt := hp h
    have hlen := hlength h
    have hcount : s.accepting = (s.loops.erase a).countP (fun a => a.phase.inAccept) +
        if a.phase.inAccept then 1 else 0 := by
      rw [System.accepting, (perm_move ha).countP_eq, List.countP_cons]
    refine ⟨h, ?_, ?_⟩
    · rw [if_neg hstop]
      change s.stops + ((s.move a p).loops.map fun a => a.phase.weight).sum + _ ≤ s.work + 0
      rw [System.work]
      omega
    · change accepted.length + (⟨a.sock, p⟩ :: s.loops.erase a).countP (fun a => a.phase.inAccept) ≤ _
      rw [List.countP_cons, hcount]
      dsimp only
      omega
  going h _ := by
    refine ⟨h, ?_, haccepted.imp_right fun hc => ⟨a, ha, hc⟩⟩
    change (⟨a.sock, p⟩ :: s.loops.erase a).length = s.loops.length
    rw [List.length_cons, List.length_erase_of_mem ha]
    have := List.length_pos_of_mem ha
    omega

end Effect

theorem effect_step {act : Act} (hstart : act ≠ .start) (hs : System.Step s act s') : Effect s act s' := by
  cases System.step_outcome hs with
  | started => exact absurd rfl hstart
  | running => exact absurd rfl hstart
  | bound added => exact .frame rfl rfl rfl rfl (fun _ h => h) (fun _ x hx => .inl (List.mem_append_left _ hx)) rfl
  | unbound added =>
    exact .frame rfl rfl rfl rfl (fun x h => by simp [System.closeUnheld, h]) (fun hf => absurd ⟨added, rfl⟩ hf) rfl
  | stopped =>
    refine ⟨fun a ha => ⟨a, ha, rfl⟩, fun _ h => h, fun _ x hx => .inl hx, fun _ => .inl (Nat.succ_pos _), fun _ => ?_,
      fun _ hne => absurd rfl hne⟩
    refine ⟨rfl, ?_, le_rfl⟩
    simp only [System.work, Act.isTask]
    simp
    omega
  | dropped => exact Effect.release (.frame rfl rfl rfl rfl (fun _ h => h) (fun _ x hx => .inl hx) rfl)
  | handled => exact Effect.release (.frame rfl rfl rfl rfl (fun _ h => h) (fun _ x hx => .inl hx) rfl)
  | cancelled =>
    refine ⟨fun a ha => ?_, fun _ h => h, fun _ x hx => .inl hx, fun h => .inl h, fun h => ⟨h, ?_, ?_⟩,
      fun h _ => ⟨h, List.length_map _, .inl rfl⟩⟩
    · obtain ⟨b, hb, rfl⟩ := List.mem_map.1 ha
      exact ⟨b, hb, (wake_sock s b).symm⟩
    · change s.stops + ((s.loops.map s.wake).map fun a => a.phase.weight).sum + 0 ≤ s.work + 0
      rw [weights_wake]
      rfl
    · change s.accepted.length + (s.loops.map s.wake).countP (fun a => a.phase.inAccept) ≤ _
      rw [accepting_wake]
  | closed hpos =>
    have hclosed : ∀ x ∈ s.socks, s.closeAll.closed x = true := fun x hx => by simp [System.closeAll, hx]
    refine Effect.release ⟨fun a ha => ⟨a, ha, rfl⟩, fun x h => by simp [System.closeAll, h],
      fun _ x hx => .inr (hclosed x hx), fun _ => .inr hclosed, fun h => ⟨h, ?_, le_rfl⟩, fun h _ => ⟨h, rfl, .inl rfl⟩⟩
    simp only [System.work, Act.isTask, System.closeAll]
    simp
    omega
  | @ended sock ha hstop =>
    refine Effect.release ⟨fun a hmem => ⟨a, List.mem_of_mem_erase hmem, rfl⟩,
      fun x h => by simp [System.closeUnheld, h], fun _ x hx => .inl hx, fun h => .inl h, fun h => ⟨h, ?_, ?_⟩,
      fun h => by rw [hstop] at h; cases h⟩
    · have hw := weight_erase ha
      have hone : (Loop.mk sock .test).phase.weight = 1 := rfl
      simp only [System.work, Act.isTask, System.closeUnheld]
      simp
      omega
    · refine Nat.add_le_add_left ?_ _
      exact (List.erase_sublist).countP_le
  | entered ha hstop =>
    have hno : ¬ s.isStop = true := Bool.eq_false_iff.1 hstop
    exact Effect.move ha (fun h => absurd h hno) (fun h => absurd h hno) (.inl rfl) nofun
  | waits ha => exact Effect.move ha (fun _ => le_rfl) (fun _ => le_rfl) (.inl rfl) nofun
  | woken ha => exact Effect.move ha (fun _ => le_rfl) (fun _ => le_rfl) (.inl rfl) nofun
  | failed ha =>
    exact Effect.move ha (fun _ => Nat.le_of_ble_eq_true rfl) (fun _ => Nat.add_le_add_left (Nat.zero_le 1) _)
      (.inl rfl) nofun
  | accepted ha hopen =>
    exact Effect.move ha (fun _ => le_rfl) (fun _ => by simp [Phase.inAccept]) (.inr hopen) nofun
  | scheduled ha => exact Effect.move ha (fun _ => le_rfl) (fun _ => le_rfl) (.inl rfl) nofun

namespace Awake

theorem release (h : s.Awake) : s.release.Awake := by
  unfold System.release
  split
  · exact h
  · rename_i hu
    have hnil : s.loops = [] := by
      simp only [System.used, Bool.or_eq_true, not_or] at hu
      simpa using hu.1.1.2
    intro a ha
    change a ∈ s.loops at ha
    rw [hnil] at ha
    cases ha

theorem closeUnheld (h : s.Awake) : s.closeUnheld.Awake := by
  intro a ha hw
  have hheld : ¬ (a.sock ∈ s.bound ∧ a.sock ∉ s.socks ∧ ∀ b ∈ s.loops, b.sock ≠ a.sock) := fun hx => hx.2.2 a ha rfl
  change (s.closed a.sock || decide _) = false
  rw [h a ha hw, decide_eq_false hheld]
  rfl

theorem move (h : s.Awake) (hp : p = .waiting → s.closed a.sock = false) {accepted scheduled : List Nat}
    {handling : Nat} : System.Awake { s.move a p with accepted, scheduled, handling } := by
  intro b hb hw
  rcases List.mem_cons.1 hb with rfl | hb
  · exact hp hw
  · exact h b (List.mem_of_mem_erase hb) hw

end Awake

end Stop

section Stops

variable {s t u v : System} {l l' : List Act}

/-- What has come of a server that was told to stop in the state `t`. -/
structure Stopping (t : System) (l : List Act) (u : System) : Prop where
  isStop : u.isStop = true
  work : u.work + l.countP Act.isTask ≤ t.work + l.countP (· = .stop)
  accepted : u.accepted.length + u.accepting ≤ t.accepted.length + t.accepting
  loops : ∀ a ∈ u.loops, ∃ b ∈ t.loops, b.sock = a.sock
  closed : ∀ x, t.closed x = true → u.closed x = true
  socks : (0 < u.stops ∧ ∀ x ∈ t.socks, x ∈ u.socks ∨ u.closed x = true) ∨ ∀ x ∈ t.socks, u.closed x = true

theorem Stopping.step {a : Act} (h : Stopping t l u) (hstart : a ≠ .start) (hf : ¬ a.Fails) (hs : System.Step u a v) :
    Stopping t (l ++ [a]) v := by
  have he := effect_step hstart hs
  obtain ⟨hstop, hwork, haccepted⟩ := he.stopped h.isStop
  refine ⟨hstop, ?_, haccepted.trans h.accepted, fun b hb => ?_, fun x hx => he.closed x (h.closed x hx), ?_⟩
  · have hw := h.work
    rw [List.countP_append, List.countP_append, List.countP_singleton, List.countP_singleton]
    simp only [decide_eq_true_eq]
    omega
  · obtain ⟨c, hc, hsock⟩ := he.loops b hb
    obtain ⟨d, hd, hsock'⟩ := h.loops c hc
    exact ⟨d, hd, hsock'.trans hsock⟩
  · rcases h.socks with ⟨hpos, hsocks⟩ | hclosed
    · have hkept : ∀ x ∈ t.socks, x ∈ v.socks ∨ v.closed x = true := fun x hx => by
        rcases hsocks x hx with hx | hx
        · exact he.socks hf x hx
        · exact .inr (he.closed x hx)
      rcases he.stops hpos with hpos | hclosed
      · exact .inl ⟨hpos, hkept⟩
      · refine .inr fun x hx => ?_
        rcases hsocks x hx with hx | hx
        · exact hclosed x hx
        · exact he.closed x hx
    · exact .inr fun x hx => he.closed x (hclosed x hx)

end Stops

end ServerFrame.Accepting
