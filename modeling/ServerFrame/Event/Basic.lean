/-
The event side of `IOManager` (`iomanager.h`, `iomanager.cc`): descriptor contexts, the table
`m_fdContexts`, the kernel's epoll interest and the operations `addEvent`, `delEvent`, `cancelEvent`,
`cancelAll` and the handling of one readiness report in `idle()`. A `FdContext` object is named by
its index on a heap of all contexts ever allocated (its pointer). Whether an `epoll_ctl` succeeds is
an argument of the operation that makes it. An assertion that fails, a null scheduler that is
dereferenced or a slot outside the table ends an operation with `Except.error`.
-/
import Mathlib.Data.List.Basic
import Mathlib.Logic.Function.Basic

namespace ServerFrame.Events

universe u v

/-- `IOManager::Event`: `READ` is the bit of `EPOLLIN`, `WRITE` that of `EPOLLOUT`. -/
inductive Event
  | read
  | write
  deriving DecidableEq, Repr

/-- A set of event bits. -/
structure Mask where
  read : Bool
  write : Bool
  deriving DecidableEq, Repr

namespace Mask

/-- `NONE`. -/
def none : Mask := ⟨false, false⟩

def single : Event → Mask
  | .read => ⟨true, false⟩
  | .write => ⟨false, true⟩

/-- `events & event`. -/
def has (m : Mask) : Event → Bool
  | .read => m.read
  | .write => m.write

def or (a b : Mask) : Mask := ⟨a.read || b.read, a.write || b.write⟩
def and (a b : Mask) : Mask := ⟨a.read && b.read, a.write && b.write⟩
/-- `a & ~b`. -/
def diff (a b : Mask) : Mask := ⟨a.read && !b.read, a.write && !b.write⟩

/-- The number of bits set. -/
def count (m : Mask) : Nat := m.read.toNat + m.write.toNat

end Mask

/-- What a registration resumes: the fiber that waits, or a callback. -/
inductive Task (F : Type u) (C : Type v)
  | fiber (f : F)
  | cb (c : C)
  deriving DecidableEq

/-- `FdContext::EventContext`: the scheduler, by its identity, and the fiber or callback. -/
structure EventContext (F : Type u) (C : Type v) where
  scheduler : Option Nat
  fiber : Option F
  cb : Option C
  deriving DecidableEq

/-- `FdContext`. -/
structure FdContext (F : Type u) (C : Type v) where
  fd : Nat
  read : EventContext F C
  write : EventContext F C
  events : Mask
  deriving DecidableEq

/-- The operations of `epoll_ctl`. -/
inductive CtlOp
  | add
  | mod
  | del
  deriving DecidableEq, Repr

/-- How an operation ends the process: an assertion, a null scheduler, an index outside the table. -/
inductive Abort
  | registered
  | contextInUse
  | notExec
  | triggerEvent (e : Event)
  | eventsLeft
  | nullScheduler
  | outOfRange
  deriving DecidableEq, Repr

/-- The fate of a registration: registered by `addEvent`, handed to `schedule()`, or dropped by
`delEvent`. -/
inductive Fate
  | added
  | handed
  | dropped
  deriving DecidableEq, Repr

/-- A registration: the scheduler it goes back to and the task. -/
structure Reg (F : Type u) (C : Type v) where
  scheduler : Option Nat
  task : Task F C
  deriving DecidableEq

/-- A line of the history of registrations. -/
structure Entry (F : Type u) (C : Type v) where
  fate : Fate
  fd : Nat
  event : Event
  reg : Reg F C
  deriving DecidableEq

variable {F : Type u} {C : Type v}

namespace FdContext

variable (c : FdContext F C)

/-- `FdContext::getContext(event)`. -/
def getContext : Event → EventContext F C
  | .read => c.read
  | .write => c.write

def setContext (ctx : EventContext F C) : Event → FdContext F C
  | .read => { c with read := ctx }
  | .write => { c with write := ctx }

/-- `FdContext::resetContext(ctx)`. -/
def resetContext (e : Event) : FdContext F C := c.setContext ⟨none, none, none⟩ e

/-- A new `FdContext`: no events; the scheduler pointers of its two contexts have no initialiser, so
they are what the memory held. -/
def new (fd : Nat) (memory : Event → Option Nat) : FdContext F C :=
  { fd, read := ⟨memory .read, none, none⟩, write := ⟨memory .write, none, none⟩, events := Mask.none }

/-- The registration a context holds, if any: a callback goes first. -/
def regOf (ctx : EventContext F C) : Option (Reg F C) :=
  match ctx.cb, ctx.fiber with
  | some cb, _ => some ⟨ctx.scheduler, .cb cb⟩
  | none, some f => some ⟨ctx.scheduler, .fiber f⟩
  | none, none => none

/-- `FdContext::triggerEvent(event)`: clear the bit, swap the callback or else the fiber out of the
context into the scheduler's queue, and forget the scheduler. -/
def triggerEvent (e : Event) : Except Abort (FdContext F C × List (Entry F C)) :=
  if !c.events.has e then .error (.triggerEvent e)
  else
    let ctx := c.getContext e
    match ctx.scheduler with
    | none => .error .nullScheduler
    | some _ =>
      let entries := (regOf ctx).toList.map fun r => ⟨.handed, c.fd, e, r⟩
      let ctx := if ctx.cb.isSome then { ctx with cb := none } else { ctx with fiber := none }
      .ok ({ c with events := c.events.diff (.single e) }.setContext { ctx with scheduler := none } e, entries)

/-- `if (events & event) triggerEvent(event)`, with the amount by which the counter goes down. -/
def triggerIf (b : Bool) (e : Event) : Except Abort (FdContext F C × Int × List (Entry F C)) :=
  if b then
    match c.triggerEvent e with
    | .error a => .error a
    | .ok (c, l) => .ok (c, 1, l)
  else .ok (c, 0, [])

/-- The two conditional triggers that end `cancelAll` and the handling of a report. -/
def triggerBoth (m : Mask) : Except Abort (FdContext F C × Int × List (Entry F C)) :=
  match c.triggerIf m.read .read with
  | .error a => .error a
  | .ok (c, n, l) =>
    match c.triggerIf m.write .write with
    | .error a => .error a
    | .ok (c, n', l') => .ok (c, n + n', l ++ l')

end FdContext

/-- `IOManager`, its event side. `interest` is the kernel's: the mask (always with `EPOLLET`) and the
context pointer registered for a descriptor. `pending` is `m_pendingEventCount` in unbounded
arithmetic: the counter wraps below zero when this number is negative. -/
structure IOManager (F : Type u) (C : Type v) where
  heap : List (FdContext F C)
  fdContexts : List Nat
  interest : Nat → Option (Mask × Nat)
  pending : Int

/-- What an operation returns: the new state, the return value (0 is true), the `epoll_ctl` it made
with its success, and what happened to registrations. -/
structure Result (F : Type u) (C : Type v) where
  state : IOManager F C
  ret : Bool
  ctl : Option (CtlOp × Nat × Bool)
  log : List (Entry F C)

/-- The caller of `addEvent`: its scheduler, its fiber and whether that is in state `EXEC`, and the
callback it passes, if any. -/
structure Caller (F : Type u) (C : Type v) where
  scheduler : Option Nat
  fiber : F
  exec : Bool
  cb : Option C

/-- A readiness report of `epoll_wait`. -/
structure Report where
  epollin : Bool
  epollout : Bool
  epollerr : Bool
  epollhup : Bool
  deriving DecidableEq, Repr

namespace IOManager

/-- A successful `epoll_ctl`. -/
def epollCtl (interest : Nat → Option (Mask × Nat)) (op : CtlOp) (fd : Nat) (mask : Mask) (p : Nat) :
    Nat → Option (Mask × Nat) :=
  match op with
  | .del => Function.update interest fd none
  | .add | .mod => Function.update interest fd (some (mask, p))

variable (memory : Nat → Event → Option Nat)

/-- `IOManager::contextResize(size)`: `m_fdContexts.resize(size)`, then a new context in every slot
that has none. `memory p` is what the memory of the context at `p` held. -/
def contextResize (s : IOManager F C) (size : Nat) : IOManager F C :=
  let kept := s.fdContexts.take size
  let n := size - kept.length
  { s with
    heap := s.heap ++ (List.range n).map fun i => FdContext.new (kept.length + i) (memory (s.heap.length + i))
    fdContexts := kept ++ (List.range n).map (s.heap.length + ·) }

/-- `IOManager::IOManager`: an empty table resized to 32. -/
def init : IOManager F C := contextResize memory ⟨[], [], fun _ => none, 0⟩ 32

variable (s : IOManager F C)

/-- The `epoll_ctl` of an operation did not succeed: nothing changes. -/
def failed (op : CtlOp) (fd : Nat) : Result F C := { state := s, ret := false, ctl := some (op, fd, false), log := [] }

/-- The operation returns before it does anything. -/
def refused : Result F C := { state := s, ret := false, ctl := none, log := [] }

/-- `addEvent` under the mutex of the context at `p`. -/
def addEventLocked (p fd : Nat) (e : Event) (caller : Caller F C) (ok : Bool) : Except Abort (Result F C) :=
  match s.heap[p]? with
  | none => .error .outOfRange
  | some c =>
    if c.events.has e then .error .registered
    else
      let op := if c.events = Mask.none then CtlOp.add else CtlOp.mod
      let events := c.events.or (.single e)
      if !ok then .ok (s.failed op fd)
      else
        let ctx := c.getContext e
        if ctx.scheduler.isSome || ctx.fiber.isSome || ctx.cb.isSome then .error .contextInUse
        else
          let done (ctx : EventContext F C) : Except Abort (Result F C) := .ok
            { state := { s with
                heap := s.heap.set p ({ c with events := events }.setContext ctx e)
                interest := epollCtl s.interest op fd events p
                pending := s.pending + 1 }
              ret := true
              ctl := some (op, fd, true)
              log := (FdContext.regOf ctx).toList.map fun r => ⟨.added, c.fd, e, r⟩ }
          match caller.cb with
          | some cb => done ⟨caller.scheduler, none, some cb⟩
          | none => if caller.exec then done ⟨caller.scheduler, some caller.fiber, none⟩ else .error .notExec

/-- `delEvent` under the mutex of the context at `p`. -/
def delEventLocked (p fd : Nat) (e : Event) (ok : Bool) : Except Abort (Result F C) :=
  match s.heap[p]? with
  | none => .error .outOfRange
  | some c =>
    if !c.events.has e then .ok s.refused
    else
      let new_events := c.events.diff (.single e)
      let op := if new_events = Mask.none then CtlOp.del else CtlOp.mod
      if !ok then .ok (s.failed op fd)
      else .ok
        { state := { s with
            heap := s.heap.set p ({ c with events := new_events }.resetContext e)
            interest := epollCtl s.interest op fd new_events p
            pending := s.pending - 1 }
          ret := true
          ctl := some (op, fd, true)
          log := (FdContext.regOf (c.getContext e)).toList.map fun r => ⟨.dropped, c.fd, e, r⟩ }

/-- `cancelEvent` under the mutex of the context at `p`. -/
def cancelEventLocked (p fd : Nat) (e : Event) (ok : Bool) : Except Abort (Result F C) :=
  match s.heap[p]? with
  | none => .error .outOfRange
  | some c =>
    if !c.events.has e then .ok s.refused
    else
      let new_events := c.events.diff (.single e)
      let op := if new_events = Mask.none then CtlOp.del else CtlOp.mod
      if !ok then .ok (s.failed op fd)
      else
        match c.triggerEvent e with
        | .error a => .error a
        | .ok (c', log) => .ok
          { state := { s with
              heap := s.heap.set p c'
              interest := epollCtl s.interest op fd new_events p
              pending := s.pending - 1 }
            ret := true
            ctl := some (op, fd, true)
            log }

/-- `cancelAll` under the mutex of the context at `p`. -/
def cancelAllLocked (p fd : Nat) (ok : Bool) : Except Abort (Result F C) :=
  match s.heap[p]? with
  | none => .error .outOfRange
  | some c =>
    if c.events = Mask.none then .ok s.refused
    else if !ok then .ok (s.failed .del fd)
    else
      match c.triggerBoth c.events with
      | .error a => .error a
      | .ok (c', n, log) =>
        if c'.events ≠ Mask.none then .error .eventsLeft
        else .ok
          { state := { s with
              heap := s.heap.set p c'
              interest := epollCtl s.interest .del fd Mask.none p
              pending := s.pending - n }
            ret := true
            ctl := some (.del, fd, true)
            log }

/-- The events a report stands for: an error or hang-up adds the registered ones. -/
def realEvents (r : Report) (events : Mask) : Mask :=
  if r.epollerr || r.epollhup then ⟨r.epollin || events.read, r.epollout || events.write⟩
  else ⟨r.epollin, r.epollout⟩

/-- The handling of one readiness report in `idle()`, under the mutex of the context at `p`. -/
def handleReport (p : Nat) (r : Report) (ok : Bool) : Except Abort (Result F C) :=
  match s.heap[p]? with
  | none => .error .outOfRange
  | some c =>
    let real_events := realEvents r c.events
    if c.events.and real_events = Mask.none then .ok s.refused
    else
      let left_events := c.events.diff real_events
      let op := if left_events = Mask.none then CtlOp.del else CtlOp.mod
      if !ok then .ok (s.failed op c.fd)
      else
        match c.triggerBoth real_events with
        | .error a => .error a
        | .ok (c', n, log) => .ok
          { state := { s with
              heap := s.heap.set p c'
              interest := epollCtl s.interest op c.fd left_events p
              pending := s.pending - n }
            ret := true
            ctl := some (op, c.fd, true)
            log }

/-- The slot of `fd` as `addEvent` finds or makes it: read-locked size test, else write-locked
resize to one and a half times `fd`. (Descriptors and table sizes are natural numbers here: the
`(int)` of the size test is the size itself for every table that fits in memory.) -/
def slot (fd : Nat) : Except Abort (IOManager F C × Nat) :=
  let s := if fd < s.fdContexts.length then s else s.contextResize memory (fd * 3 / 2)
  match s.fdContexts[fd]? with
  | none => .error .outOfRange
  | some p => .ok (s, p)

/-- `IOManager::addEvent(fd, event, cb)` as one step. -/
def addEvent (fd : Nat) (e : Event) (caller : Caller F C) (ok : Bool) : Except Abort (Result F C) :=
  match s.slot memory fd with
  | .error a => .error a
  | .ok (s, p) => s.addEventLocked p fd e caller ok

/-- An operation on an existing slot as one step: false outside the table. -/
def onSlot (fd : Nat) (f : Nat → Except Abort (Result F C)) : Except Abort (Result F C) :=
  match s.fdContexts[fd]? with
  | none => .ok s.refused
  | some p => f p

/-- `IOManager::delEvent(fd, event)` as one step. -/
def delEvent (fd : Nat) (e : Event) (ok : Bool) : Except Abort (Result F C) :=
  s.onSlot fd fun p => s.delEventLocked p fd e ok

/-- `IOManager::cancelEvent(fd, event)` as one step. -/
def cancelEvent (fd : Nat) (e : Event) (ok : Bool) : Except Abort (Result F C) :=
  s.onSlot fd fun p => s.cancelEventLocked p fd e ok

/-- `IOManager::cancelAll(fd)` as one step. -/
def cancelAll (fd : Nat) (ok : Bool) : Except Abort (Result F C) :=
  s.onSlot fd fun p => s.cancelAllLocked p fd ok

end IOManager

/-! ## Operations -/

/-- An operation, with the outcome of its `epoll_ctl`. -/
inductive Op (F : Type u) (C : Type v)
  | addEvent (fd : Nat) (e : Event) (caller : Caller F C) (ok : Bool)
  | delEvent (fd : Nat) (e : Event) (ok : Bool)
  | cancelEvent (fd : Nat) (e : Event) (ok : Bool)
  | cancelAll (fd : Nat) (ok : Bool)
  | report (p : Nat) (r : Report) (ok : Bool)

/-- One operation as one step. -/
def exec (memory : Nat → Event → Option Nat) (s : IOManager F C) : Op F C → Except Abort (Result F C)
  | .addEvent fd e caller ok => s.addEvent memory fd e caller ok
  | .delEvent fd e ok => s.delEvent fd e ok
  | .cancelEvent fd e ok => s.cancelEvent fd e ok
  | .cancelAll fd ok => s.cancelAll fd ok
  | .report p r ok => s.handleReport p r ok

/-- A step in which nothing aborts, labelled with the operation and its result. -/
def Step (memory : Nat → Event → Option Nat) (s : IOManager F C) (a : Op F C × Result F C) (s' : IOManager F C) :
    Prop :=
  exec memory s a.1 = .ok a.2 ∧ s' = a.2.state

end ServerFrame.Events
