/-
`Scheduler::run` on many threads, with `Fiber` (`fiber.cc`) and the idle side of `IOManager`
(`iomanager.cc`): the task queue, the states of the fibers, the position of every thread in its loop,
the idle counter and the tickle pipe. A step is one atomic action of one thread: a critical section,
a context switch, or a read or write of a shared variable outside the mutex. An assertion that fails
leaves no step. The idle fiber and the main fiber of a thread are its own and have no number here;
stopping is not modelled.
-/
import Mathlib.Logic.Function.Basic
import Mathlib.Data.List.Basic

namespace ServerFrame.Schedulers

universe u v

/-- `Fiber::State`. -/
inductive FiberState
  | init
  | hold
  | exec
  | term
  | ready
  | except
  deriving DecidableEq, Repr

/-- A task of the queue: a fiber, by its address, or a callback. -/
inductive Task (C : Type v)
  | fiber (f : Nat)
  | cb (c : C)
  deriving DecidableEq

/-- `FiberAndThread`: `none` is the thread `-1`, any thread. -/
structure Entry (T : Type u) (C : Type v) where
  task : Task C
  thread : Option T
  deriving DecidableEq

/-- Where a thread is that runs a fiber: about to swap it in, on the fiber, on it with its wake-up
registered, on it with the state written by a yield and the context not saved, and back in `run()`
before the decrement, before the inspection of the state, before `schedule(fiber)` and before the
assignment of `HOLD`. -/
inductive Stage
  | entering
  | running
  | armed
  | yielding
  | returned
  | inspecting
  | requeue
  | assign
  deriving DecidableEq, Repr

/-- The position of a thread in `run()`: before the scan of the queue, before the test and before the
write of the `tickle()` of a scan, before the branch on what the scan found, on a fiber (`cb` says
whether it is the thread's `cb_fiber`), and in the idle fiber before, in and after `epoll_wait`. -/
inductive Pc (C : Type v)
  | scan
  | scanned (ft : Option (Task C))
  | tickling (ft : Option (Task C))
  | chosen (ft : Option (Task C))
  | task (f : Nat) (cb : Bool) (stage : Stage)
  | idling
  | blocked
  | woken
  deriving DecidableEq

/-- The scheduler. `fibers f` is the state of the fiber at `f`, if there is one. `wakeable f`: somebody
may still hand the fiber to `schedule()` for its next resumption (it is new, or has registered a
wake-up, or has suspended itself without one). `owed` and `writes` count the calls of `schedule()`
that are before the test and before the write of their `tickle()`. -/
structure Sched (T : Type u) (C : Type v) where
  fibers : Nat → Option FiberState
  wakeable : Nat → Bool
  queue : List (Entry T C)
  pc : T → Pc C
  cbFiber : T → Option Nat
  active : Int
  idle : Int
  pipe : Nat
  owed : Nat
  writes : Nat

/-- The atomic actions. -/
inductive Act (T : Type u) (C : Type v)
  | create (f : Nat)
  | schedule (task : Task C) (thread : Option T)
  | test
  | write
  | scan (t : T)
  | scanTest (t : T)
  | scanWrite (t : T)
  | dispatch (t : T) (g : Nat)
  | swapIn (t : T)
  | arm (t : T)
  | yieldToHold (t : T)
  | yieldToReady (t : T)
  | finish (t : T) (except : Bool)
  | save (t : T)
  | decrement (t : T)
  | inspect (t : T)
  | requeue (t : T)
  | assign (t : T)
  | block (t : T)
  | wake (t : T)
  | drain (t : T)
  | leave (t : T)

variable {T : Type u} {C : Type v} [DecidableEq T]

/-- The fiber of a task. -/
def Task.fiber? : Task C → Option Nat
  | .fiber f => some f
  | .cb _ => none

/-- The scan of the queue by the thread `t`: what it takes, what it leaves and `tickle_me`. Tasks pinned
to other threads are skipped and noted, fibers in state `EXEC` are skipped. -/
def pick (fibers : Nat → Option FiberState) (t : T) : List (Entry T C) → Option (Task C) × List (Entry T C) × Bool
  | [] => (none, [], false)
  | e :: q =>
    if e.thread ≠ none ∧ e.thread ≠ some t then
      ((pick fibers t q).1, e :: (pick fibers t q).2.1, true)
    else if e.task.fiber?.bind fibers = some .exec then
      ((pick fibers t q).1, e :: (pick fibers t q).2.1, (pick fibers t q).2.2)
    else (some e.task, q, false)

namespace Sched

/-- `start()`: every thread at the top of the loop. -/
def init : Sched T C :=
  { fibers := fun _ => none, wakeable := fun _ => false, queue := [], pc := fun _ => .scan, cbFiber := fun _ => none,
    active := 0, idle := 0, pipe := 0, owed := 0, writes := 0 }

variable (s : Sched T C)

def goto (t : T) (pc : Pc C) : Sched T C := { s with pc := Function.update s.pc t pc }

def setState (f : Nat) (st : FiberState) : Sched T C := { s with fibers := Function.update s.fibers f (some st) }

def setWakeable (f : Nat) (b : Bool) : Sched T C := { s with wakeable := Function.update s.wakeable f b }

/-- `cb_fiber.reset()`, when the fiber was the thread's `cb_fiber`. -/
def dropCb (t : T) (cb : Bool) : Sched T C := if cb then { s with cbFiber := Function.update s.cbFiber t none } else s

/-- `scheduleNoLock`: the entry goes to the back; an empty queue asks for a tickle. -/
def push (e : Entry T C) : Sched T C :=
  { s with queue := s.queue ++ [e], owed := if s.queue.isEmpty then s.owed + 1 else s.owed }

/-- `fiber->getState() == TERM || EXCEPT`. -/
def ended (f : Nat) : Bool := s.fibers f = some .term || s.fibers f = some .except

/-- One atomic action. -/
def next : Act T C → Option (Sched T C)
  | .create f => if s.fibers f = none then some ((s.setState f .init).setWakeable f true) else none
  | .schedule (.fiber f) thread =>
    if s.wakeable f then some ((s.setWakeable f false).push ⟨.fiber f, thread⟩) else none
  | .schedule (.cb c) thread => some (s.push ⟨.cb c, thread⟩)
  | .test =>
    if s.owed = 0 then none
    else if s.idle = 0 then some { s with owed := s.owed - 1 }
    else some { s with owed := s.owed - 1, writes := s.writes + 1 }
  | .write => if s.writes = 0 then none else some { s with writes := s.writes - 1, pipe := s.pipe + 1 }
  | .scan t =>
    match s.pc t with
    | .scan =>
      let (ft, queue, tickle_me) := pick s.fibers t s.queue
      some ({ s with queue, active := if ft.isSome then s.active + 1 else s.active }.goto t
        (if tickle_me then .scanned ft else .chosen ft))
    | _ => none
  | .scanTest t =>
    match s.pc t with
    | .scanned ft => some (s.goto t (if s.idle = 0 then .chosen ft else .tickling ft))
    | _ => none
  | .scanWrite t =>
    match s.pc t with
    | .tickling ft => some ({ s with pipe := s.pipe + 1 }.goto t (.chosen ft))
    | _ => none
  | .dispatch t g =>
    match s.pc t with
    | .chosen (some (.fiber f)) =>
      if s.ended f then some ({ s with active := s.active - 1 }.goto t .scan)
      else some (s.goto t (.task f false .entering))
    | .chosen (some (.cb _)) =>
      match s.cbFiber t with
      | some f =>
        if s.ended f || s.fibers f = some .init then some ((s.setState f .init).goto t (.task f true .entering))
        else none
      | none =>
        if s.fibers g = none then
          some ({ s.setState g .init with cbFiber := Function.update s.cbFiber t (some g) }.goto t
            (.task g true .entering))
        else none
    | .chosen none => some ({ s with idle := s.idle + 1 }.goto t .idling)
    | _ => none
  | .swapIn t =>
    match s.pc t with
    | .task f cb .entering =>
      if s.fibers f = some .exec then none else some ((s.setState f .exec).goto t (.task f cb .running))
    | _ => none
  | .arm t =>
    match s.pc t with
    | .task f cb .running => some ((s.setWakeable f true).goto t (.task f cb .armed))
    | _ => none
  | .yieldToHold t =>
    match s.pc t with
    | .task f cb .running => some (((s.setState f .hold).setWakeable f true).goto t (.task f cb .yielding))
    | .task f cb .armed => some ((s.setState f .hold).goto t (.task f cb .yielding))
    | _ => none
  | .yieldToReady t =>
    match s.pc t with
    | .task f cb .running => some ((s.setState f .ready).goto t (.task f cb .yielding))
    | _ => none
  | .finish t except =>
    match s.pc t with
    | .task f cb .running => some ((s.setState f (if except then .except else .term)).goto t (.task f cb .yielding))
    | _ => none
  | .save t =>
    match s.pc t with
    | .task f cb .yielding => some (s.goto t (.task f cb .returned))
    | _ => none
  | .decrement t =>
    match s.pc t with
    | .task f cb .returned => some ({ s with active := s.active - 1 }.goto t (.task f cb .inspecting))
    | _ => none
  | .inspect t =>
    match s.pc t with
    | .task f cb .inspecting =>
      if s.fibers f = some .ready then some (s.goto t (.task f cb .requeue))
      else if s.ended f then some ((if cb then s.setState f .init else s).goto t .scan)
      else some (s.goto t (.task f cb .assign))
    | _ => none
  | .requeue t =>
    match s.pc t with
    | .task f cb .requeue => some (((s.push ⟨.fiber f, none⟩).dropCb t cb).goto t .scan)
    | _ => none
  | .assign t =>
    match s.pc t with
    | .task f cb .assign => some (((s.setState f .hold).dropCb t cb).goto t .scan)
    | _ => none
  | .block t =>
    match s.pc t with
    | .idling => some (s.goto t .blocked)
    | _ => none
  | .wake t =>
    match s.pc t with
    | .blocked => some (s.goto t .woken)
    | _ => none
  | .drain t =>
    match s.pc t with
    | .woken => some { s with pipe := 0 }
    | _ => none
  | .leave t =>
    match s.pc t with
    | .woken => some ({ s with idle := s.idle - 1 }.goto t .scan)
    | _ => none

def Step (a : Act T C) (s' : Sched T C) : Prop := s.next a = some s'

end Sched

/-! ## The actions -/

section Actions

variable {s s' : Sched T C} {t : T} {f g : Nat}

namespace Sched

-- its equations are derived here once, for all the lemmas on the actions
attribute [local simp] next

theorem next_create (hs : s.next (.create f) = some s') :
    s.fibers f = none ∧ s' = (s.setState f .init).setWakeable f true := by
  simp only [next] at hs
  split at hs
  · cases hs
    exact ⟨‹_›, rfl⟩
  · cases hs

theorem next_schedule {thread : Option T} (hs : s.next (.schedule (.fiber f) thread) = some s') :
    s.wakeable f = true ∧ s' = (s.setWakeable f false).push ⟨.fiber f, thread⟩ := by
  simp only [next] at hs
  split at hs
  · cases hs
    exact ⟨‹_›, rfl⟩
  · cases hs

theorem next_test (hs : s.next .test = some s') : s.owed ≠ 0 ∧
    (s.idle = 0 ∧ s' = { s with owed := s.owed - 1 } ∨
      s.idle ≠ 0 ∧ s' = { s with owed := s.owed - 1, writes := s.writes + 1 }) := by
  simp only [next] at hs
  split at hs
  · cases hs
  · split at hs
    · cases hs
      exact ⟨‹_›, .inl ⟨‹_›, rfl⟩⟩
    · cases hs
      exact ⟨‹_›, .inr ⟨‹_›, rfl⟩⟩

theorem next_write (hs : s.next .write = some s') :
    s.writes ≠ 0 ∧ s' = { s with writes := s.writes - 1, pipe := s.pipe + 1 } := by
  simp only [next] at hs
  split at hs
  · cases hs
  · cases hs
    exact ⟨‹_›, rfl⟩

theorem next_scan (hs : s.next (.scan t) = some s') : s.pc t = .scan ∧
    s' = { s with
      queue := (pick s.fibers t s.queue).2.1
      active := if (pick s.fibers t s.queue).1.isSome then s.active + 1 else s.active }.goto t
        (if (pick s.fibers t s.queue).2.2 then .scanned (pick s.fibers t s.queue).1
          else .chosen (pick s.fibers t s.queue).1) := by
  simp only [next] at hs
  split at hs
  · cases hs
    exact ⟨‹_›, rfl⟩
  · cases hs

theorem next_scanTest (hs : s.next (.scanTest t) = some s') :
    ∃ ft, s.pc t = .scanned ft ∧ s' = s.goto t (if s.idle = 0 then .chosen ft else .tickling ft) := by
  simp only [next] at hs
  split at hs
  · cases hs
    exact ⟨_, ‹_›, rfl⟩
  · cases hs

theorem next_scanWrite (hs : s.next (.scanWrite t) = some s') :
    ∃ ft, s.pc t = .tickling ft ∧ s' = { s with pipe := s.pipe + 1 }.goto t (.chosen ft) := by
  simp only [next] at hs
  split at hs
  · cases hs
    exact ⟨_, ‹_›, rfl⟩
  · cases hs

/-- The branch on what the scan found: a fiber, a callback, with the thread's fiber for callbacks or a new one, or
nothing. -/
theorem next_dispatch (hs : s.next (.dispatch t g) = some s') :
    (∃ f, s.pc t = .chosen (some (.fiber f)) ∧
      (s.ended f = true ∧ s' = { s with active := s.active - 1 }.goto t .scan ∨
        s.ended f = false ∧ s' = s.goto t (.task f false .entering))) ∨
    (∃ c, s.pc t = .chosen (some (.cb c)) ∧
      ((∃ f, s.cbFiber t = some f ∧ (s.ended f || s.fibers f = some .init) = true ∧
          s' = (s.setState f .init).goto t (.task f true .entering)) ∨
        s.cbFiber t = none ∧ s.fibers g = none ∧
          s' = { s.setState g .init with cbFiber := Function.update s.cbFiber t (some g) }.goto t
            (.task g true .entering))) ∨
    (s.pc t = .chosen none ∧ s' = { s with idle := s.idle + 1 }.goto t .idling) := by
  simp only [next] at hs
  split at hs
  · rename_i f hpt
    split at hs
    · cases hs
      exact .inl ⟨f, hpt, .inl ⟨‹_›, rfl⟩⟩
    · rename_i hended
      cases hs
      exact .inl ⟨f, hpt, .inr ⟨Bool.eq_false_iff.2 hended, rfl⟩⟩
  · rename_i c hpt
    split at hs
    · rename_i f hcb
      split at hs
      · cases hs
        exact .inr (.inl ⟨c, hpt, .inl ⟨f, hcb, ‹_›, rfl⟩⟩)
      · cases hs
    · rename_i hcb
      split at hs
      · cases hs
        exact .inr (.inl ⟨c, hpt, .inr ⟨hcb, ‹_›, rfl⟩⟩)
      · cases hs
  · cases hs
    exact .inr (.inr ⟨‹_›, rfl⟩)
  · cases hs

theorem next_swapIn (hs : s.next (.swapIn t) = some s') : ∃ f cb, s.pc t = .task f cb .entering ∧
    s.fibers f ≠ some .exec ∧ s' = (s.setState f .exec).goto t (.task f cb .running) := by
  simp only [next] at hs
  split at hs
  · split at hs
    · cases hs
    · cases hs
      exact ⟨_, _, ‹_›, ‹_›, rfl⟩
  · cases hs

theorem next_arm (hs : s.next (.arm t) = some s') : ∃ f cb, s.pc t = .task f cb .running ∧
    s' = (s.setWakeable f true).goto t (.task f cb .armed) := by
  simp only [next] at hs
  split at hs
  · cases hs
    exact ⟨_, _, ‹_›, rfl⟩
  · cases hs

theorem next_yieldToHold (hs : s.next (.yieldToHold t) = some s') : ∃ f cb,
    (s.pc t = .task f cb .running ∧ s' = ((s.setState f .hold).setWakeable f true).goto t (.task f cb .yielding)) ∨
    (s.pc t = .task f cb .armed ∧ s' = (s.setState f .hold).goto t (.task f cb .yielding)) := by
  simp only [next] at hs
  split at hs
  · cases hs
    exact ⟨_, _, .inl ⟨‹_›, rfl⟩⟩
  · cases hs
    exact ⟨_, _, .inr ⟨‹_›, rfl⟩⟩
  · cases hs

theorem next_yieldToReady (hs : s.next (.yieldToReady t) = some s') : ∃ f cb, s.pc t = .task f cb .running ∧
    s' = (s.setState f .ready).goto t (.task f cb .yielding) := by
  simp only [next] at hs
  split at hs
  · cases hs
    exact ⟨_, _, ‹_›, rfl⟩
  · cases hs

theorem next_finish {except : Bool} (hs : s.next (.finish t except) = some s') : ∃ f cb,
    s.pc t = .task f cb .running ∧
      s' = (s.setState f (if except then .except else .term)).goto t (.task f cb .yielding) := by
  simp only [next] at hs
  split at hs
  · cases hs
    exact ⟨_, _, ‹_›, rfl⟩
  · cases hs

theorem next_save (hs : s.next (.save t) = some s') : ∃ f cb, s.pc t = .task f cb .yielding ∧
    s' = s.goto t (.task f cb .returned) := by
  simp only [next] at hs
  split at hs
  · cases hs
    exact ⟨_, _, ‹_›, rfl⟩
  · cases hs

theorem next_decrement (hs : s.next (.decrement t) = some s') : ∃ f cb, s.pc t = .task f cb .returned ∧
    s' = { s with active := s.active - 1 }.goto t (.task f cb .inspecting) := by
  simp only [next] at hs
  split at hs
  · cases hs
    exact ⟨_, _, ‹_›, rfl⟩
  · cases hs

theorem next_inspect (hs : s.next (.inspect t) = some s') : ∃ f cb, s.pc t = .task f cb .inspecting ∧
    (s.fibers f = some .ready ∧ s' = s.goto t (.task f cb .requeue) ∨
      s.fibers f ≠ some .ready ∧ s.ended f = true ∧ s' = (if cb then s.setState f .init else s).goto t .scan ∨
      s.fibers f ≠ some .ready ∧ s.ended f = false ∧ s' = s.goto t (.task f cb .assign)) := by
  simp only [next] at hs
  split at hs
  · rename_i f cb hpt
    refine ⟨f, cb, hpt, ?_⟩
    split at hs
    · cases hs
      exact .inl ⟨‹_›, rfl⟩
    · rename_i hready
      split at hs
      · cases hs
        exact .inr (.inl ⟨hready, ‹_›, rfl⟩)
      · rename_i hended
        cases hs
        exact .inr (.inr ⟨hready, Bool.eq_false_iff.2 hended, rfl⟩)
  · cases hs

theorem next_requeue (hs : s.next (.requeue t) = some s') : ∃ f cb, s.pc t = .task f cb .requeue ∧
    s' = ((s.push ⟨.fiber f, none⟩).dropCb t cb).goto t .scan := by
  simp only [next] at hs
  split at hs
  · cases hs
    exact ⟨_, _, ‹_›, rfl⟩
  · cases hs

theorem next_assign (hs : s.next (.assign t) = some s') : ∃ f cb, s.pc t = .task f cb .assign ∧
    s' = ((s.setState f .hold).dropCb t cb).goto t .scan := by
  simp only [next] at hs
  split at hs
  · cases hs
    exact ⟨_, _, ‹_›, rfl⟩
  · cases hs

theorem next_block (hs : s.next (.block t) = some s') : s.pc t = .idling ∧ s' = s.goto t .blocked := by
  simp only [next] at hs
  split at hs
  · cases hs
    exact ⟨‹_›, rfl⟩
  · cases hs

theorem next_wake (hs : s.next (.wake t) = some s') : s.pc t = .blocked ∧ s' = s.goto t .woken := by
  simp only [next] at hs
  split at hs
  · cases hs
    exact ⟨‹_›, rfl⟩
  · cases hs

theorem next_drain (hs : s.next (.drain t) = some s') : s.pc t = .woken ∧ s' = { s with pipe := 0 } := by
  simp only [next] at hs
  split at hs
  · cases hs
    exact ⟨‹_›, rfl⟩
  · cases hs

theorem next_leave (hs : s.next (.leave t) = some s') :
    s.pc t = .woken ∧ s' = { s with idle := s.idle - 1 }.goto t .scan := by
  simp only [next] at hs
  split at hs
  · cases hs
    exact ⟨‹_›, rfl⟩
  · cases hs

end Sched

end Actions

/-! ## The scan -/

/-- What a scan skips: a task pinned to another thread, or a fiber in state `EXEC`. -/
def Skipped (fibers : Nat → Option FiberState) (t : T) (e : Entry T C) : Prop :=
  (e.thread ≠ none ∧ e.thread ≠ some t) ∨ e.task.fiber?.bind fibers = some .exec

/-- A scan takes the oldest entry it does not skip, and asks for a tickle exactly when it has skipped a
task pinned to another thread. -/
theorem pick_spec (fibers : Nat → Option FiberState) (t : T) : ∀ q : List (Entry T C),
    ((pick fibers t q).1 = none ∧ (pick fibers t q).2.1 = q ∧ (∀ e ∈ q, Skipped fibers t e) ∧
      ((pick fibers t q).2.2 = true ↔ ∃ e ∈ q, e.thread ≠ none ∧ e.thread ≠ some t)) ∨
    ∃ a e b, q = a ++ e :: b ∧ (pick fibers t q).1 = some e.task ∧ (pick fibers t q).2.1 = a ++ b ∧
      ¬ Skipped fibers t e ∧ (∀ x ∈ a, Skipped fibers t x) ∧
      ((pick fibers t q).2.2 = true ↔ ∃ x ∈ a, x.thread ≠ none ∧ x.thread ≠ some t)
  | [] => .inl ⟨rfl, rfl, by simp, by simp [pick]⟩
  | x :: q => by
    unfold pick
    split
    · rename_i hp
      rcases pick_spec fibers t q with ⟨h1, h2, h3, -⟩ | ⟨a, e, b, rfl, h2, h3, h4, h5, -⟩
      · refine .inl ⟨h1, by rw [h2], ?_, by simp [hp]⟩
        rintro e (_ | ⟨_, he⟩)
        · exact .inl hp
        · exact h3 e he
      · refine .inr ⟨x :: a, e, b, rfl, h2, by rw [h3]; rfl, h4, ?_, by simp [hp]⟩
        rintro y (_ | ⟨_, hy⟩)
        · exact .inl hp
        · exact h5 y hy
    · rename_i hp
      split
      · rename_i hx
        rcases pick_spec fibers t q with ⟨h1, h2, h3, h4⟩ | ⟨a, e, b, rfl, h2, h3, h4, h5, h6⟩
        · refine .inl ⟨h1, by rw [h2], ?_, by rw [h4, List.exists_mem_cons_iff, or_iff_right hp]⟩
          rintro e (_ | ⟨_, he⟩)
          · exact .inr hx
          · exact h3 e he
        · refine .inr ⟨x :: a, e, b, rfl, h2,
            by rw [h3]; rfl, h4, ?_, by rw [h6, List.exists_mem_cons_iff, or_iff_right hp]⟩
          rintro y (_ | ⟨_, hy⟩)
          · exact .inr hx
          · exact h5 y hy
      · rename_i hx
        refine .inr ⟨[], x, q, rfl, rfl, rfl, ?_, by simp, by simp⟩
        rintro (h | h)
        · exact hp h
        · exact hx h

end ServerFrame.Schedulers
