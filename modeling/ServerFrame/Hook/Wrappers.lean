/-
The hooked functions that consult `t_hook_enable` (`hook.cc`), as programs over what they ask of the process: the
original functions, `FdManager`, `errno`, and `IOManager` with its timers and the other fibers. A program gets
`t_hook_enable` of its thread and a bound on the loop of `do_io` and on recursion.
-/
import ServerFrame.Hook.FdManager
import ServerFrame.Event.Basic
import ServerFrame.Lib.Effect

namespace ServerFrame.Wrappers

open ServerFrame.Events (Event)
open ServerFrame.Fds (FdCtx)

/-- An address. -/
abbrev Ptr := Nat

/-- The original functions behind the hooks, with their arguments. -/
inductive Original
  | sleep (seconds : UInt32)
  | usleep (usec : UInt32)
  | nanosleep (req rem : Ptr)
  | socket (domain type protocol : Int)
  | connect (sockfd : Int) (addr : Ptr) (addrlen : UInt32)
  | accept (s : Int) (addr addrlen : Ptr)
  | read (fd : Int) (buf : Ptr) (count : UInt64)
  | readv (fd : Int) (iov : Ptr) (iovcnt : Int)
  | recv (sockfd : Int) (buf : Ptr) (len : UInt64) (flags : Int)
  | recvfrom (sockfd : Int) (buf : Ptr) (len : UInt64) (flags : Int) (src_addr addrlen : Ptr)
  | recvmsg (sockfd : Int) (msg : Ptr) (flags : Int)
  | write (fd : Int) (buf : Ptr) (count : UInt64)
  | writev (fd : Int) (iov : Ptr) (iovcnt : Int)
  | send (sockfd : Int) (buf : Ptr) (len : UInt64) (flags : Int)
  | sendto (sockfd : Int) (buf : Ptr) (len : UInt64) (flags : Int) (dest_addr : Ptr) (addrlen : UInt32)
  | sendmsg (sockfd : Int) (msg : Ptr) (flags : Int)
  | close (fd : Int)
  | setsockopt (sockfd level optname : Int) (optval : Ptr) (optlen : UInt32)
  deriving DecidableEq, Repr

/-- `timespec` and `timeval`: seconds, and nanoseconds or microseconds. -/
structure Time where
  sec : Int64
  frac : Int64
  deriving DecidableEq, Repr

/-- What a hooked function asks of the process. The timer of `addConditionTimer` sets `tinfo->cancelled` to `ETIMEDOUT`
and cancels the event; `cancelled` reads that field, `soError` is `getsockopt` of `SO_ERROR`, with its return
value first, and `time` reads the `timespec` or `timeval` at an address. -/
inductive Op
  | original (f : Original)
  | get (fd : Int) (auto_create : Bool)
  | del (fd : Int)
  | setTimeout (fd : Int) (recv : Bool) (v : UInt64)
  | errno
  | setErrno (e : Int)
  | getThis
  | addTimer (ms : UInt64)
  | addConditionTimer (ms : UInt64) (fd : Int) (event : Event)
  | cancelTimer
  | cancelled
  | addEvent (fd : Int) (event : Event)
  | cancelAll (fd : Int)
  | yieldToHold
  | soError (fd : Int)
  | time (p : Ptr)
  deriving DecidableEq

/-- The answers; that of `getThis` is whether the pointer is not null. -/
def Op.Answer : Op → Type
  | original _ | errno | cancelled | addEvent .. => Int
  | get .. => Option FdCtx
  | getThis => Bool
  | soError _ => Int × Int
  | time _ => Time
  | del _ | setTimeout .. | setErrno _ | addTimer _ | addConditionTimer .. | cancelTimer | cancelAll _
      | yieldToHold => Unit

/-- A hooked function's body. -/
abbrev Hooked := Effect.Prog Op Op.Answer

abbrev ask (o : Op) : Hooked o.Answer := Effect.Prog.perform o

def EINTR : Int := 4
def EBADF : Int := 9
def EAGAIN : Int := 11
def ETIMEDOUT : Int := 110
def EINPROGRESS : Int := 115
def SOL_SOCKET : Int := 1
def SO_RCVTIMEO : Int := 20
def SO_SNDTIMEO : Int := 21

/-- A timer that schedules the fiber again, and `YieldToHold`. -/
def sleepFor (ms : UInt64) : Hooked Int := do
  if !(← ask .getThis) then .fault
  else
    ask (.addTimer ms)
    ask .yieldToHold
    return 0

section Wrappers

variable (hook : Bool)

/-- `sleep(seconds)`; the product is one of `unsigned int`. -/
def sleep (seconds : UInt32) : Hooked Int :=
  if !hook then ask (.original (.sleep seconds)) else sleepFor (seconds * 1000).toUInt64

/-- `usleep(usec)`. -/
def usleep (usec : UInt32) : Hooked Int :=
  if !hook then ask (.original (.usleep usec)) else sleepFor (usec / 1000).toUInt64

/-- `nanosleep(req, rem)`, which calls itself when the hook is disabled. -/
def nanosleep (req rem : Ptr) : Nat → Hooked Int
  | 0 => .more
  | fuel + 1 =>
    if !hook then nanosleep req rem fuel
    else do
      let t ← ask (.time req)
      let timeout_ms : Int32 := (t.sec * 1000 + t.frac / 1000 / 1000).toInt32
      sleepFor timeout_ms.toInt64.toUInt64

/-- `socket(domain, type, protocol)`. -/
def socket (domain type protocol : Int) : Hooked Int := do
  if !hook then ask (.original (.socket domain type protocol))
  else
    let fd : Int ← ask (.original (.socket domain type protocol))
    if fd = -1 then return fd
    else
      let _ ← ask (.get fd true)
      return fd

/-- The end of `connect_with_timeout`: the outcome that `SO_ERROR` tells. -/
def connectResult (fd : Int) : Hooked Int := do
  let (rt, error) ← ask (.soError fd)
  if rt = -1 then return -1
  else if error = 0 then return 0
  else
    ask (.setErrno error)
    return -1

/-- `connect_with_timeout(fd, addr, addrlen, timeout_ms)`. -/
def connectWithTimeout (fd : Int) (addr : Ptr) (addrlen : UInt32) (timeout_ms : UInt64) : Hooked Int := do
  let connect_f := ask (.original (.connect fd addr addrlen))
  if !hook then connect_f
  else
    match ← ask (.get fd false) with
    | none =>
      ask (.setErrno EBADF)
      return -1
    | some ctx =>
      if ctx.isClosed then
        ask (.setErrno EBADF)
        return -1
      else if !ctx.isSocket then connect_f
      else if ctx.userNonblock then connect_f
      else
        let n : Int ← connect_f
        if n = 0 then return 0
        else
          let e : Int ← ask .errno
          if n ≠ -1 ∨ e ≠ EINPROGRESS then return n
          else if !(← ask .getThis) then .fault
          else
            if timeout_ms ≠ ~~~0 then ask (.addConditionTimer timeout_ms fd .write)
            let rt : Int ← ask (.addEvent fd .write)
            if rt = 0 then
              ask .yieldToHold
              if timeout_ms ≠ ~~~0 then ask .cancelTimer
              let cancelled : Int ← ask .cancelled
              if cancelled ≠ 0 then
                ask (.setErrno cancelled)
                return -1
              else connectResult fd
            else
              if timeout_ms ≠ ~~~0 then ask .cancelTimer
              connectResult fd

/-- The loop of `do_io` from `retry` on, `fn` being the call of the original function. The inner loop around `EINTR`
calls it again, as `retry` does. -/
def retry (fd : Int) (fn : Original) (event : Event) (timeout : UInt64) : Nat → Hooked Int
  | 0 => .more
  | fuel + 1 => do
    let n : Int ← ask (.original fn)
    let e : Int ← ask .errno
    if n = -1 ∧ e = EINTR then retry fd fn event timeout fuel
    else if n = -1 ∧ e = EAGAIN then
      if !(← ask .getThis) then .fault
      else
        if timeout ≠ ~~~0 then ask (.addConditionTimer timeout fd event)
        let rt : Int ← ask (.addEvent fd event)
        if rt ≠ 0 then
          if timeout ≠ ~~~0 then ask .cancelTimer
          return -1
        else
          ask .yieldToHold
          if timeout ≠ ~~~0 then ask .cancelTimer
          let cancelled : Int ← ask .cancelled
          if cancelled ≠ 0 then
            ask (.setErrno cancelled)
            return -1
          else retry fd fn event timeout fuel
    else return n

/-- `do_io(fd, fun, hook_fun_name, event, timeout_so, args...)`, `fn` being the call `fun(fd, args...)`; `SO_RCVTIMEO`
goes with `READ` and `SO_SNDTIMEO` with `WRITE`. -/
def doIo (fd : Int) (fn : Original) (event : Event) (fuel : Nat) : Hooked Int := do
  if !hook then ask (.original fn)
  else
    match ← ask (.get fd false) with
    | none => ask (.original fn)
    | some ctx =>
      if ctx.isClosed then
        ask (.setErrno EBADF)
        return -1
      else if !ctx.isSocket || ctx.userNonblock then ask (.original fn)
      else retry fd fn event (ctx.getTimeout (event = .read)) fuel

/-- `accept(s, addr, addrlen)`. -/
def accept (s : Int) (addr addrlen : Ptr) (fuel : Nat) : Hooked Int := do
  let fd ← doIo hook s (.accept s addr addrlen) .read fuel
  if 0 ≤ fd then
    let _ ← ask (.get fd true)
    return fd
  else return fd

/-- `close(fd)`. -/
def close (fd : Int) : Hooked Int := do
  if !hook then ask (.original (.close fd))
  else
    match ← ask (.get fd false) with
    | none => ask (.original (.close fd))
    | some _ =>
      let iom : Bool ← ask .getThis
      if iom then ask (.cancelAll fd)
      ask (.del fd)
      ask (.original (.close fd))

/-- `setsockopt(sockfd, level, optname, optval, optlen)`. -/
def setsockopt (sockfd level optname : Int) (optval : Ptr) (optlen : UInt32) : Hooked Int := do
  let setsockopt_f := ask (.original (.setsockopt sockfd level optname optval optlen))
  if !hook then setsockopt_f
  else if level = SOL_SOCKET ∧ (optname = SO_RCVTIMEO ∨ optname = SO_SNDTIMEO) then
    match ← ask (.get sockfd false) with
    | none => setsockopt_f
    | some _ =>
      let v ← ask (.time optval)
      ask (.setTimeout sockfd (optname = SO_RCVTIMEO) (v.sec * 1000 + v.frac / 1000).toUInt64)
      setsockopt_f
  else setsockopt_f

/-- The hooked function of the same name and arguments. -/
def hooked (connect_timeout : UInt64) (fuel : Nat) : Original → Hooked Int
  | .sleep seconds => sleep hook seconds
  | .usleep usec => usleep hook usec
  | .nanosleep req rem => nanosleep hook req rem fuel
  | .socket domain type protocol => socket hook domain type protocol
  | .connect sockfd addr addrlen => connectWithTimeout hook sockfd addr addrlen connect_timeout
  | .accept s addr addrlen => accept hook s addr addrlen fuel
  | .read fd buf count => doIo hook fd (.read fd buf count) .read fuel
  | .readv fd iov iovcnt => doIo hook fd (.readv fd iov iovcnt) .read fuel
  | .recv fd buf len flags => doIo hook fd (.recv fd buf len flags) .read fuel
  | .recvfrom fd buf len flags src_addr addrlen => doIo hook fd (.recvfrom fd buf len flags src_addr addrlen) .read fuel
  | .recvmsg fd msg flags => doIo hook fd (.recvmsg fd msg flags) .read fuel
  | .write fd buf count => doIo hook fd (.write fd buf count) .write fuel
  | .writev fd iov iovcnt => doIo hook fd (.writev fd iov iovcnt) .write fuel
  | .send fd buf len flags => doIo hook fd (.send fd buf len flags) .write fuel
  | .sendto fd buf len flags dest_addr addrlen => doIo hook fd (.sendto fd buf len flags dest_addr addrlen) .write fuel
  | .sendmsg fd msg flags => doIo hook fd (.sendmsg fd msg flags) .write fuel
  | .close fd => close hook fd
  | .setsockopt sockfd level optname optval optlen => setsockopt hook sockfd level optname optval optlen

end Wrappers

end ServerFrame.Wrappers
