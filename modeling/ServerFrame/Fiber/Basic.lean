/-
`Fiber` (`fiber.cc`) on the threads of a process: the fibers, the three pointers of every thread, and the contexts
between which `swapcontext` moves it. A context says where its routine goes on.
-/
import ServerFrame.Scheduler.Basic

namespace ServerFrame.Fibers

open Schedulers (FiberState)

universe u

/-- A function that is executed: on the stack of a thread, or the one of number `life` that has been put on the stack
of the fiber at `f`. -/
inductive Routine (T : Type u)
  | thread (t : T)
  | fiber (f life : Nat)
deriving DecidableEq, Repr

/-- A place in a routine, by the number of the steps before it; `ended` is the end of `MainFunc`, which is never
reached. -/
structure Place (T : Type u) where
  routine : Routine T
  pos : Nat
  ended : Bool := false
deriving DecidableEq, Repr

/-- `Fiber`: `m_state`, `m_ctx`, and whether there is an `m_stack`. -/
structure Fiber (T : Type u) where
  state : FiberState
  ctx : Place T
  stack : Bool

/-- Whether a thread is in a `YieldToReady` or `YieldToHold`, or at the end of `MainFunc`, with the state written and
the context not saved. -/
inductive Phase
  | running
  | yielding
  | ending
deriving DecidableEq, Repr

/-- A thread: `t_fiber`, `t_threadFiber`, `t_scheduler_fiber`, and where it is. -/
structure Thread (T : Type u) where
  fiber : Option Nat
  threadFiber : Option Nat
  schedulerFiber : Option Nat
  place : Place T
  phase : Phase

structure Machine (T : Type u) where
  fibers : Nat → Option (Fiber T)
  threads : T → Thread T

/-- A failed `SYLAR_ASSERT`, or a null `Fiber*` that is followed. -/
inductive Fault
  | assertion
  | nullFiber
deriving DecidableEq, Repr

/-- What a thread does next. `work` is whatever does not concern fibers; `adopt` and `adoptRoot` set
`t_scheduler_fiber`, in `Scheduler::run` and in the constructor of a scheduler that uses its caller; `yield` and
`finish` are what precedes the `swapOut` of a yield and of `MainFunc`, and the `back` of `CallerMainFunc`; `hold` is
the write of `HOLD` in `Scheduler::run`. Fibers are named by their addresses. -/
inductive Op
  | work
  | getThis (a : Nat)
  | create (f : Nat)
  | adopt
  | adoptRoot (f : Nat)
  | reset (f : Nat)
  | hold (f : Nat)
  | swapIn (f : Nat)
  | call (f : Nat)
  | yield (state : FiberState)
  | finish (state : FiberState)
  | swapOut
  | back
deriving DecidableEq, Repr

/-- `makecontext` of another function for a fiber. -/
def Routine.again {T : Type u} : Routine T → Routine T
  | .thread t => .thread t
  | .fiber f life => .fiber f (life + 1)

/-- The assertion of `reset`. -/
def resettable (st : FiberState) : Bool := st = .term || st = .except || st = .init

namespace Machine

variable {T : Type u} [DecidableEq T]

/-- Threads of which none has called `GetThis` yet. -/
def init : Machine T where
  fibers _ := none
  threads t := ⟨none, none, none, ⟨.thread t, 0, false⟩, .running⟩

variable (s : Machine T) (t : T)

def setFiber (f : Nat) (x : Fiber T) : Machine T := { s with fibers := Function.update s.fibers f (some x) }

def setThread (th : Thread T) : Machine T := { s with threads := Function.update s.threads t th }

/-- The thread goes on in its routine. -/
def advance : Machine T :=
  s.setThread t { s.threads t with place := { (s.threads t).place with pos := (s.threads t).place.pos + 1 } }

/-- Where the thread goes on when its context is loaded again. -/
def here : Place T := ⟨(s.threads t).place.routine, (s.threads t).place.pos + 1, (s.threads t).phase = .ending⟩

/-- `swapcontext(&save->m_ctx, &load->m_ctx)`. -/
def swapcontext (save load : Option Nat) : Except Fault (Machine T) :=
  match save, load with
  | some a, some b =>
    match s.fibers a with
    | none => .error .nullFiber
    | some x =>
      let s' := s.setFiber a { x with ctx := s.here t }
      match s'.fibers b with
      | none => .error .nullFiber
      | some y => .ok (s'.setThread t { s.threads t with place := y.ctx, phase := .running })
  | _, _ => .error .nullFiber

/-- A write of `m_state`. -/
def setState (f : Option Nat) (st : FiberState) : Except Fault (Machine T) :=
  match f with
  | none => .error .nullFiber
  | some f =>
    match s.fibers f with
    | none => .error .nullFiber
    | some x => .ok (s.setFiber f { x with state := st })

/-- `Fiber::GetThis()`, which makes the main fiber of a thread without a fiber, at the address `a`. -/
def getThis (a : Nat) : Machine T :=
  if (s.threads t).fiber.isSome then s
  else (s.setFiber a ⟨.exec, (s.threads t).place, false⟩).setThread t
    { s.threads t with fiber := some a, threadFiber := some a }

/-- `Fiber::reset(cb)`. -/
def reset (f : Nat) : Except Fault (Machine T) :=
  match s.fibers f with
  | none => .error .nullFiber
  | some x =>
    if !x.stack || !resettable x.state then .error .assertion
    else .ok (s.setFiber f { x with state := .init, ctx := ⟨x.ctx.routine.again, 0, false⟩ })

/-- `Fiber::swapIn()`. -/
def swapIn (f : Nat) : Except Fault (Machine T) :=
  match s.fibers f with
  | none => .error .nullFiber
  | some x =>
    if x.state = .exec then .error .assertion
    else ((s.setFiber f { x with state := .exec }).setThread t { s.threads t with fiber := some f }).swapcontext t
      (s.threads t).schedulerFiber (some f)

/-- `Fiber::call()`. -/
def call (f : Nat) : Except Fault (Machine T) :=
  match s.fibers f with
  | none => .error .nullFiber
  | some x =>
    ((s.setFiber f { x with state := .exec }).setThread t { s.threads t with fiber := some f }).swapcontext t
      (s.threads t).threadFiber (some f)

/-- `Fiber::swapOut()` of the current fiber. -/
def swapOut : Except Fault (Machine T) :=
  (s.setThread t { s.threads t with fiber := (s.threads t).schedulerFiber }).swapcontext t (s.threads t).fiber
    (s.threads t).schedulerFiber

/-- `Fiber::back()` of the current fiber. -/
def back : Except Fault (Machine T) :=
  (s.setThread t { s.threads t with fiber := (s.threads t).threadFiber }).swapcontext t (s.threads t).fiber
    (s.threads t).threadFiber

/-- A step of the thread. -/
def step (op : Op) : Except Fault (Machine T) :=
  if (s.threads t).place.ended then .error .assertion
  else
    match op with
    | .work => .ok (s.advance t)
    | .getThis a => .ok ((s.getThis t a).advance t)
    | .create f => .ok ((s.setFiber f ⟨.init, ⟨.fiber f 0, 0, false⟩, true⟩).advance t)
    | .adopt => .ok ((s.setThread t { s.threads t with schedulerFiber := (s.threads t).fiber }).advance t)
    | .adoptRoot f => .ok ((s.setThread t { s.threads t with schedulerFiber := some f }).advance t)
    | .reset f => (s.reset f).map (advance · t)
    | .hold f => (s.setState (some f) .hold).map (advance · t)
    | .swapIn f => s.swapIn t f
    | .call f => s.call t f
    | .yield st => (s.setState (s.threads t).fiber st).map fun s =>
        (s.setThread t { s.threads t with phase := .yielding }).advance t
    | .finish st => (s.setState (s.threads t).fiber st).map fun s =>
        (s.setThread t { s.threads t with phase := .ending }).advance t
    | .swapOut => s.swapOut t
    | .back => s.back t

/-! ## The callers -/

/-- A thread has written the state of the fiber for a yield, or at its end, and is still on it. -/
def Leaving (f : Nat) : Prop := ∃ u, (s.threads u).phase ≠ .running ∧ (s.threads u).fiber = some f

/-- The scheduler of a thread runs on the fiber. -/
def Scheduling (f : Nat) : Prop := ∃ u, (s.threads u).schedulerFiber = some f

/-- A fiber with a stack that no thread is leaving, and that is not that of a scheduler. -/
structure Loose (f : Nat) (x : Fiber T) : Prop where
  fiber : s.fibers f = some x
  stack : x.stack = true
  leaving : ¬ s.Leaving f
  scheduling : ¬ s.Scheduling f

/-- The thread executes its scheduler. -/
structure InScheduler : Prop where
  running : (s.threads t).phase = .running
  fiber : (s.threads t).fiber = (s.threads t).schedulerFiber
  isSome : (s.threads t).schedulerFiber.isSome = true

/-- Who calls what: `Scheduler::run` resumes and resets the fibers of its queue, after a look at their states; `stop`
calls the fiber of the scheduler once; the functions of fibers yield, and come to their end. -/
inductive Allowed : Op → Prop
  | work (running : (s.threads t).phase = .running) : Allowed .work
  | getThis {a : Nat} (running : (s.threads t).phase = .running) (fresh : s.fibers a = none) : Allowed (.getThis a)
  | create {f : Nat} (running : (s.threads t).phase = .running) (fresh : s.fibers f = none) : Allowed (.create f)
  | adopt (running : (s.threads t).phase = .running) (isSome : (s.threads t).fiber.isSome = true)
      (main : (s.threads t).fiber = (s.threads t).threadFiber) (none : (s.threads t).schedulerFiber = none) :
      Allowed .adopt
  | adoptRoot {f : Nat} {x : Fiber T} (running : (s.threads t).phase = .running)
      (isSome : (s.threads t).fiber.isSome = true) (main : (s.threads t).fiber = (s.threads t).threadFiber)
      (none : (s.threads t).schedulerFiber = none) (loose : s.Loose f x) (init : x.state = .init) :
      Allowed (.adoptRoot f)
  | reset {f : Nat} {x : Fiber T} (scheduler : s.InScheduler t) (loose : s.Loose f x)
      (state : resettable x.state = true) : Allowed (.reset f)
  | hold {f : Nat} {x : Fiber T} (scheduler : s.InScheduler t) (loose : s.Loose f x)
      (state : x.state = .ready ∨ x.state = .hold) : Allowed (.hold f)
  | swapIn {f : Nat} {x : Fiber T} (scheduler : s.InScheduler t) (loose : s.Loose f x)
      (state : x.state = .init ∨ x.state = .ready ∨ x.state = .hold) : Allowed (.swapIn f)
  | call {f : Nat} {x : Fiber T} (running : (s.threads t).phase = .running)
      (main : (s.threads t).fiber = (s.threads t).threadFiber) (root : (s.threads t).schedulerFiber = some f)
      (fiber : s.fibers f = some x) (init : x.state = .init) : Allowed (.call f)
  | yield {st : FiberState} (running : (s.threads t).phase = .running)
      (task : (s.threads t).fiber ≠ (s.threads t).threadFiber ∧ (s.threads t).fiber ≠ (s.threads t).schedulerFiber)
      (state : st = .ready ∨ st = .hold) : Allowed (.yield st)
  | finish {st : FiberState} (running : (s.threads t).phase = .running)
      (task : (s.threads t).fiber ≠ (s.threads t).threadFiber) (state : st = .term ∨ st = .except) :
      Allowed (.finish st)
  | swapOut (phase : (s.threads t).phase ≠ .running)
      (task : (s.threads t).fiber ≠ (s.threads t).schedulerFiber) : Allowed .swapOut
  | back (phase : (s.threads t).phase ≠ .running) (root : (s.threads t).fiber = (s.threads t).schedulerFiber) :
      Allowed .back

end Machine

end ServerFrame.Fibers
