/-
The hooked input and output functions (`hook.cc`) over descriptor numbers that the kernel reuses:
`do_io`, which `read`, `write`, `recv`, `send`, `accept` and their siblings share, `close`, and the table
of `FdManager` (`fd_manager.cc`). The waiting side is the model of `IOManager`'s events, with the number of
a `do_io` call for the fiber that waits in it. Every call here is made with the hook enabled; one with
the hook disabled is a plain call of the original function.
-/
import ServerFrame.Event.Basic

namespace ServerFrame.Hooks

open ServerFrame.Events (Event IOManager)

/-- `FdCtx`; a timeout of `-1` is `none`. -/
structure FdCtx where
  isSocket : Bool
  userNonblock : Bool
  isClosed : Bool
  recvTimeout : Option Nat
  sendTimeout : Option Nat
  deriving DecidableEq, Repr

/-- `FdCtx(fd)` on a number whose file is a socket or not. -/
def FdCtx.new (isSocket : Bool) : FdCtx :=
  { isSocket, userNonblock := false, isClosed := false, recvTimeout := none, sendTimeout := none }

/-- `getTimeout` of the direction of an event: `SO_RCVTIMEO` for `READ`, `SO_SNDTIMEO` for `WRITE`. -/
def FdCtx.getTimeout (c : FdCtx) : Event → Option Nat
  | .read => c.recvTimeout
  | .write => c.sendTimeout

/-- The outcome of one call of an original function. -/
inductive IoResult
  | done (n : Nat)
  | eintr
  | eagain
  | error
  deriving DecidableEq, Repr

def IoResult.value : IoResult → Int
  | .done n => n
  | .eintr | .eagain | .error => -1

/-- Where a `do_io` call is: before a call of the original function whose result it returns as it is,
before the call at `retry`, before `addEvent`, suspended in `YieldToHold`, handed to `schedule()`, and
back with its result. -/
inductive Phase
  | direct
  | retry
  | register
  | suspended
  | queued
  | returned (n : Int)
  deriving DecidableEq, Repr

/-- A `do_io` call: the descriptor number, the event, the timeout (`to`), `tinfo->cancelled` and whether its
timer is set. `closing` records that it was suspended while a `close` of its number was under way, and `orphan` that
this `close` has been executed and the call had not returned. -/
structure Call where
  fd : Nat
  event : Event
  timeout : Option Nat
  phase : Phase
  cancelled : Bool
  timer : Bool
  closing : Bool
  orphan : Bool
  deriving DecidableEq, Repr

/-- Where a hooked `close` is: before `cancelAll`, before `FdMgr::del`, before `close_f`, done. -/
inductive CloseStage
  | cancelAll
  | del
  | close
  | done
  deriving DecidableEq, Repr

/-- The process: the kernel's open file of each number, `FdManager`'s table, the event side, and the
`do_io` and `close` calls made so far. -/
structure Net where
  files : Nat → Option Nat
  nextFile : Nat
  datas : Nat → Option FdCtx
  io : IOManager Nat Unit
  calls : List Call
  closes : List (Nat × CloseStage)

/-- The steps of all threads. `openFile` is the kernel's part of `socket()` and `accept()`, `adopt` their
`FdMgr::get(fd, true)`; `configure` stands for `setsockopt`, `fcntl` and `ioctl`; `fire` is the callback of a
call's timeout timer; the flag `ok` is the success of an `epoll_ctl`. -/
inductive Act
  | openFile (fd : Nat)
  | adopt (fd : Nat) (isSocket : Bool)
  | configure (fd : Nat) (userNonblock : Bool) (recvTimeout sendTimeout : Option Nat)
  | call (fd : Nat) (e : Event)
  | invoke (i : Nat) (r : IoResult)
  | register (i : Nat) (ok : Bool)
  | report (p : Nat) (r : Events.Report) (ok : Bool)
  | fire (i : Nat) (ok : Bool)
  | resume (i : Nat)
  | close (fd : Nat) (iom : Bool)
  | cancelAll (k : Nat) (ok : Bool)
  | del (k : Nat)
  | closeFile (k : Nat)

/-- The calls that an event operation hands to `schedule()` are queued. -/
def handOver (calls : List Call) (log : List (Events.Entry Nat Unit)) : List Call :=
  log.foldl (fun calls x => match x.fate, x.reg.task with
    | .handed, .fiber i => calls.modify i fun c => if c.phase = .suspended then { c with phase := .queued } else c
    | _, _ => calls) calls

/-- A `close` of a number begins: the calls suspended on it, or handed to `schedule()` and not run yet. -/
def Call.mark (fd : Nat) (c : Call) : Call :=
  if c.fd = fd ∧ (c.phase = .suspended ∨ c.phase = .queued) then { c with closing := true } else c

/-- The call has its result. -/
def Phase.isReturned : Phase → Bool
  | .returned _ => true
  | _ => false

/-- `close_f` on a number: the calls that were suspended on it since the `close` began, and have not returned, lose
their file, wherever they are. -/
def Call.lose (fd : Nat) (c : Call) : Call :=
  if c.fd = fd ∧ c.closing = true ∧ c.phase.isReturned = false then { c with orphan := true } else c

namespace Net

variable (memory : Nat → Event → Option Nat)

def init : Net :=
  { files := fun _ => none, nextFile := 0, datas := fun _ => none, io := .init memory, calls := [], closes := [] }

variable (s : Net)

def setCall (i : Nat) (c : Call) : Net := { s with calls := s.calls.set i c }

/-- An event operation, with its return value. -/
def event (op : Events.Op Nat Unit) : Option (Net × Bool) :=
  match Events.exec memory s.io op with
  | .error _ => none
  | .ok r => some ({ s with io := r.state, calls := handOver s.calls r.log }, r.ret)

/-- The first part of `do_io`: what the context of the number says. -/
def enter (fd : Nat) (e : Event) : Call :=
  let call (phase : Phase) (timeout : Option Nat) : Call :=
    { fd, event := e, timeout, phase, cancelled := false, timer := false, closing := false, orphan := false }
  match s.datas fd with
  | none => call .direct none
  | some ctx =>
    if ctx.isClosed then call (.returned (-1)) none
    else if !ctx.isSocket || ctx.userNonblock then call .direct none
    else call .retry (ctx.getTimeout e)

/-- A `close` of the number is under way. -/
def underClose (fd : Nat) : Bool := s.closes.any fun x => x.1 = fd && x.2 != .done

/-- One step. -/
def next : Act → Option Net
  | .openFile fd =>
    if s.files fd = none then
      some { s with files := Function.update s.files fd (some s.nextFile), nextFile := s.nextFile + 1 }
    else none
  | .adopt fd isSocket =>
    match s.datas fd with
    | some _ => some s
    | none => some { s with datas := Function.update s.datas fd (some (FdCtx.new isSocket)) }
  | .configure fd userNonblock recvTimeout sendTimeout =>
    some { s with
      datas := Function.update s.datas fd
        ((s.datas fd).map fun c => { c with userNonblock, recvTimeout, sendTimeout }) }
  | .call fd e => some { s with calls := s.calls ++ [s.enter fd e] }
  | .invoke i r =>
    match s.calls[i]? with
    | none => none
    | some c =>
      match c.phase with
      | .direct => some (s.setCall i { c with phase := .returned r.value })
      | .retry =>
        match r with
        | .eintr => some s
        | .eagain => some (s.setCall i { c with phase := .register, timer := c.timeout.isSome })
        | .done _ | .error => some (s.setCall i { c with phase := .returned r.value })
      | _ => none
  | .register i ok =>
    match s.calls[i]? with
    | none => none
    | some c =>
      if c.phase = .register then
        match s.event memory (.addEvent c.fd c.event ⟨some 0, i, true, none⟩ ok) with
        | none => none
        | some (s, true) => some (s.setCall i { c with phase := .suspended, closing := c.closing || s.underClose c.fd })
        | some (s, false) => some (s.setCall i { c with phase := .returned (-1), timer := false })
      else none
  | .report p r ok => (s.event memory (.report p r ok)).map Prod.fst
  | .fire i ok =>
    match s.calls[i]? with
    | none => none
    | some c =>
      if c.timer then
        if c.cancelled then some (s.setCall i { c with timer := false })
        else ((s.setCall i { c with timer := false, cancelled := true }).event memory
          (.cancelEvent c.fd c.event ok)).map Prod.fst
      else none
  | .resume i =>
    match s.calls[i]? with
    | none => none
    | some c =>
      if c.phase = .queued then
        some (s.setCall i { c with timer := false, phase := if c.cancelled then .returned (-1) else .retry })
      else none
  | .close fd iom =>
    let stage := match s.datas fd with
      | none => CloseStage.close
      | some _ => if iom then CloseStage.cancelAll else CloseStage.del
    some { s with closes := s.closes ++ [(fd, stage)], calls := s.calls.map (Call.mark fd) }
  | .cancelAll k ok =>
    match s.closes[k]? with
    | some (fd, .cancelAll) =>
      match s.event memory (.cancelAll fd ok) with
      | none => none
      | some (s, _) => some { s with closes := s.closes.set k (fd, .del) }
    | _ => none
  | .del k =>
    match s.closes[k]? with
    | some (fd, .del) => some { s with datas := Function.update s.datas fd none, closes := s.closes.set k (fd, .close) }
    | _ => none
  | .closeFile k =>
    match s.closes[k]? with
    | some (fd, .close) =>
      -- the kernel drops the interest of a file that is closed
      let s := { s with closes := s.closes.set k (fd, .done) }
      if s.files fd = none then some s
      else some { s with
        files := Function.update s.files fd none
        io := { s.io with interest := Function.update s.io.interest fd none }
        calls := s.calls.map (Call.lose fd) }
    | _ => none

def Step (a : Act) (s' : Net) : Prop := s.next memory a = some s'

end Net

end ServerFrame.Hooks
