/-
The timeouts of sockets, from the hooked `setsockopt` through `FdCtx` to the timer of `do_io` (`hook.cc`,
`fd_manager.cc`). The operations of these programs get their meaning on the contexts and an environment that says how
every call of an original function ends and what happens while the fiber is held; every time `do_io` registers for an
event it leaves a record of its timer and of what happened until it went on.
-/
import ServerFrame.Hook.Wrappers
import ServerFrame.Timer.Expired
import Mathlib.Data.List.ModifyLast
import Mathlib.Algebra.Ring.Nat

namespace ServerFrame.Wrappers

open ServerFrame.Events (Event)
open ServerFrame.Fds (FdCtx World)
open ServerFrame.Timers (Timer TimerManager)

/-- What happens from when the timer is set to when `do_io` looks at `tinfo->cancelled`: `listExpiredCb` looks for
expired timers, with these values of `m_previouseTime` and the clock; the callback of a timer of the call runs that was
taken out of the timers; readiness is reported. -/
inductive Incident
  | expire (previouse now : UInt64)
  | callback
  | ready

/-- What the environment does in one turn of a loop: how the call of the original function ends, the clock reading for
the timer, what `addEvent` returns, and what happens until the fiber goes on. -/
structure Turn where
  ret : Int
  errno : Int
  now : UInt64
  rt : Int
  during : List Incident

/-- A registration of `do_io`: the clock reading then, the deadline of its timer, the clock reading at which the timer
was taken out as expired, whether that was before its deadline as the clock had been set back, whether readiness was
reported before, whether a callback of the call had run when the fiber went on, and whether `do_io` then set `errno` to
`ETIMEDOUT`. -/
structure Block where
  start : UInt64
  armed : Option UInt64
  expired : Option UInt64 := none
  setBack : Bool := false
  ready : Bool := false
  fired : Bool := false
  timedOut : Bool := false
  deriving DecidableEq, Repr

/-- The process as these programs see it; `turn` counts the calls of original functions, `armed` is the deadline of the
timer that is set, and `taken` the number of callbacks of the call that were taken out of the timers and have not run:
`Timer::cancel` does not keep these from running. -/
structure Waiter where
  world : World
  memory : Ptr → Time
  errno : Int
  turn : Nat
  armed : Option UInt64
  taken : Nat
  cancelled : Int
  blocks : List Block

/-- `listExpiredCb` takes the timer out: it is due, or the clock went back by more than an hour. -/
def expires (previouse next now : UInt64) : Bool :=
  ((TimerManager.init previouse : TimerManager Unit).detectClockRollover now).2 || decide (next ≤ now)

/-- A timer of the set is taken out exactly if it expires. -/
theorem expires_iff {m : TimerManager Unit} {h : Nat} {t : Timer Unit} (ht : m.heap[h]? = some t) (hm : h ∈ m.timers)
    (now : UInt64) : h ∈ m.fired now ↔ expires m.previouseTime t.next now = true := by
  rw [Timers.mem_fired, and_iff_right hm, expires, Bool.or_eq_true, decide_eq_true_eq, ht]
  simp only [Option.some_inj, exists_eq_left']
  rfl

namespace Waiter

/-- A change of the last record. -/
def mark (s : Waiter) (f : Block → Block) : Waiter := { s with blocks := s.blocks.modifyLast f }

def incident (s : Waiter) : Incident → Waiter
  | .expire previouse now =>
    match s.armed with
    | none => s
    | some next =>
      if expires previouse next now then
        { s with armed := none, taken := s.taken + 1 }.mark fun b =>
          { b with expired := some now, setBack := !decide (next ≤ now) }
      else s
  | .callback =>
    if s.taken = 0 then s
    else { s with taken := s.taken - 1, cancelled := if s.cancelled ≠ 0 then s.cancelled else ETIMEDOUT }
  | .ready => s.mark fun b => { b with ready := b.ready || b.expired.isNone }

/-- `YieldToHold`, until the fiber is scheduled again and looks at `tinfo->cancelled`. -/
def hold (s : Waiter) (t : Turn) : Waiter :=
  let s := t.during.foldl incident s
  s.mark fun b => { b with fired := decide (s.cancelled ≠ 0) }

variable (env : Nat → Turn)

def handle : (o : Op) → Waiter → o.Answer × Waiter
  | .original _, s => ((env (s.turn + 1)).ret, { s with turn := s.turn + 1, errno := (env (s.turn + 1)).errno })
  | .get fd auto_create, s => ((s.world.get fd auto_create).2, { s with world := (s.world.get fd auto_create).1 })
  | .del fd, s => ((), { s with world := s.world.del fd })
  | .setTimeout fd recv v, s => ((), { s with world := s.world.modifyCtx fd fun c => c.setTimeout recv v })
  | .errno, s => (s.errno, s)
  | .setErrno e, s => ((), { s with errno := e }.mark fun b => { b with timedOut := e = ETIMEDOUT })
  | .getThis, s => (true, s)
  | .addConditionTimer ms _ _, s => ((), { s with armed := some (Timer.new ms () false (env s.turn).now 0).next })
  | .cancelTimer, s => ((), { s with armed := none })
  | .cancelled, s => (s.cancelled, s)
  | .addEvent _ _, s => ((env s.turn).rt,
      { s with blocks := s.blocks ++ [{ start := (env s.turn).now, armed := s.armed }] })
  | .yieldToHold, s => ((), s.hold (env s.turn))
  | .time p, s => (s.memory p, s)
  | .soError _, s => ((0, 0), s)
  | .addTimer _, s | .cancelAll _, s => ((), s)

/-- A call of `do_io` begins with a `timer_info` of its own and no timer. -/
def fresh (s : Waiter) : Waiter := { s with armed := none, taken := 0, cancelled := 0, blocks := [] }

end Waiter

/-- The milliseconds of a `timeval`, in unbounded arithmetic. -/
def Time.millis (v : Time) : Nat := v.sec.toInt.toNat * 1000 + v.frac.toInt.toNat / 1000

/-- The deadline of a timer that is set at `now`. -/
def deadline (timeout now : UInt64) : Option UInt64 := if timeout ≠ ~~~0 then some (now + timeout) else none

namespace Waiter

variable (s : Waiter)

/-- After a call of the original function. -/
def called (t : Turn) : Waiter := { s with turn := s.turn + 1, errno := t.errno }

/-- The timer, where there is a timeout, and `addEvent`. -/
def register (timeout : UInt64) (t : Turn) : Waiter :=
  { s with
    armed := deadline timeout t.now
    blocks := s.blocks ++ [{ start := t.now, armed := deadline timeout t.now }] }

/-- The timer is cancelled, where there is one. -/
def disarm (timeout : UInt64) : Waiter := if timeout ≠ ~~~0 then { s with armed := none } else s

/-- `errno` is set to what `tinfo->cancelled` holds. -/
def failed : Waiter :=
  { s with errno := s.cancelled }.mark fun b => { b with timedOut := s.cancelled = ETIMEDOUT }

end Waiter

section Run

variable {env : Nat → Turn} {fd : Int} {fn : Original} {event : Event} {timeout : UInt64}

theorem Waiter.mark_blocks {s : Waiter} {l : List Block} {b : Block} (h : s.blocks = l ++ [b]) (f : Block → Block) :
    (s.mark f).blocks = l ++ [f b] := by
  rw [Waiter.mark, h, List.modifyLast_concat]

/-- While the fiber is held: the record of the registration is the last one, and its timer is set or taken out. -/
structure Waiter.Held (timeout : UInt64) (l : List Block) (b : Block) (s : Waiter) : Prop where
  blocks : s.blocks = l ++ [b]
  armed : b.armed = deadline timeout b.start
  timer : s.armed = b.armed ∨ s.armed = none
  cancelled : s.cancelled = 0 ∨ s.cancelled = ETIMEDOUT
  timedOut : b.timedOut = false
  due : ∀ now ∈ b.expired, ∃ next ∈ b.armed, b.setBack = !decide (next ≤ now)

theorem Waiter.Held.incident {s : Waiter} {l : List Block} {b : Block} (h : s.Held timeout l b) (x : Incident) :
    ∃ b', (s.incident x).Held timeout l b' := by
  cases x with
  | expire previouse now =>
    unfold Waiter.incident
    dsimp only
    split
    · exact ⟨b, h⟩
    · rename_i next hnext
      split
      · have hmem : next ∈ b.armed := by
          rcases h.timer with harmed | harmed
          · exact harmed.symm.trans hnext
          · rw [harmed] at hnext
            cases hnext
        exact ⟨_, {
          blocks := Waiter.mark_blocks (s := { s with armed := none, taken := s.taken + 1 }) h.blocks _
          armed := h.armed
          timer := .inr rfl
          cancelled := h.cancelled
          timedOut := h.timedOut
          due := fun now' hnow => by
            cases hnow
            exact ⟨next, hmem, rfl⟩ }⟩
      · exact ⟨b, h⟩
  | callback =>
    unfold Waiter.incident
    dsimp only
    split
    · exact ⟨b, h⟩
    · refine ⟨b, h.blocks, h.armed, h.timer, ?_, h.timedOut, h.due⟩
      dsimp only
      split
      · exact h.cancelled
      · exact .inr rfl
  | ready => exact ⟨_, Waiter.mark_blocks h.blocks _, h.armed, h.timer, h.cancelled, h.timedOut, h.due⟩

end Run

/-! ## The stored timeout -/

/-- The value that `setsockopt` stores, its arithmetic having wrapped around. -/
def Time.stored (v : Time) : UInt64 := (v.sec * 1000 + v.frac / 1000).toUInt64

/-- What has to hold of a `timeval` and a registration: the `timeval` is not zero and in whole milliseconds, it does not
stand for no timeout and its deadline does not wrap around; and where a callback of the call runs, the timer of this
registration has been taken out, not only that of an earlier one, not because the clock was set back, and not after
readiness was reported. -/
structure Block.Good (v : Time) (b : Block) : Prop where
  limited : v ≠ ⟨0, 0⟩
  whole : v.frac.toInt.toNat % 1000 = 0
  finite : v.millis ≠ 2 ^ 64 - 1
  deadline : b.start.toNat + v.millis < 2 ^ 64
  own : ¬ (b.fired ∧ b.expired = none)
  clock : ¬ (b.fired ∧ b.setBack)
  race : ¬ (b.fired ∧ b.ready)

section Stored

variable {v : Time} {b : Block}

end Stored

/-! ## The option and a later call -/

section Option

variable {env : Nat → Turn} {s : Waiter} {fd : Int} {ctx : FdCtx} {recv : Bool} {optval : Ptr} {optlen : UInt32}

end Option

end ServerFrame.Wrappers
