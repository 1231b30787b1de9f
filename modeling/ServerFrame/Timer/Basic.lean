/-
Timers and the timer manager (`timer.h`, `timer.cc`). A timer object is a record on a heap of all
timers created by the manager and is named by its index there (its handle, the `Timer::ptr` users
hold); `m_timers` is the sequence of handles its iterators walk, ordered by `Timer::Comparator` on
the current `m_next` of its members. Every function is one critical section of the manager's mutex,
with the clock reading it uses as an argument. `none` stands for the undefined behaviour of
`erase(end())`.
-/
import ServerFrame.Lib.OrderedSet

namespace ServerFrame.Timers

universe u

/-- A `Timer`: recurring or one-shot, its period, its deadline, its callback (empty once it has been
cancelled or delivered) and its address, which breaks ties between equal deadlines. -/
structure Timer (C : Type u) where
  recurring : Bool
  ms : UInt64
  next : UInt64
  cb : Option C
  addr : Nat
  deriving DecidableEq

variable {C : Type u}

/-- `Timer::Timer(ms, cb, recurring, manager)` at the clock reading `now`. -/
def Timer.new (ms : UInt64) (cb : C) (recurring : Bool) (now : UInt64) (addr : Nat) : Timer C :=
  { recurring, ms, next := now + ms, cb := some cb, addr }

/-- `Timer::Timer(next)`: the probe `listExpiredCb` searches with. -/
def Timer.probe (next : UInt64) (addr : Nat) : Timer C :=
  { recurring := false, ms := 0, next, cb := none, addr }

/-- `Timer::Comparator::operator()`: null pointers first, then by deadline, then by address. -/
def Comparator : Option (Timer C) → Option (Timer C) → Bool
  | none, none => false
  | none, some _ => true
  | some _, none => false
  | some lhs, some rhs =>
    if lhs.next < rhs.next then true
    else if lhs.next > rhs.next then false
    else decide (lhs.addr < rhs.addr)

/-- The comparator as the order of the set. -/
def Before (a b : Option (Timer C)) : Prop := Comparator a b = true

instance : DecidableRel (Before (C := C)) := fun a b => inferInstanceAs (Decidable (Comparator a b = true))

/-- A `TimerManager`. -/
structure TimerManager (C : Type u) where
  heap : List (Timer C)
  timers : List Nat
  tickled : Bool
  previouseTime : UInt64

namespace TimerManager

/-- `TimerManager::TimerManager()` at the clock reading `now`. -/
def init (now : UInt64) : TimerManager C :=
  { heap := [], timers := [], tickled := false, previouseTime := now }

variable (m : TimerManager C)

/-- The key of a handle under the comparator: the timer as it is now. -/
def key (h : Nat) : Option (Timer C) := m.heap[h]?

/-- `m_timers.insert(h)`. -/
def setInsert (h : Nat) : TimerManager C := { m with timers := OrderedSet.insert Before m.key h m.timers }

/-- `m_timers.erase(m_timers.find(h))`. -/
def setErase (h : Nat) : Option (TimerManager C) :=
  (OrderedSet.erase Before m.key h m.timers).map fun ts => { m with timers := ts }

/-- An update of one timer object. -/
def modify (h : Nat) (f : Timer C → Timer C) : TimerManager C := { m with heap := m.heap.modify h f }

/-- `TimerManager::addTimer(val, lock)`: insert, and report whether `onTimerInsertedAtFront` is
called (the timer is at the front and no notification is pending). -/
def addTimerLocked (h : Nat) : TimerManager C × Bool :=
  let m := m.setInsert h
  let at_front := (m.timers.head? == some h) && !m.tickled
  (if at_front then { m with tickled := true } else m, at_front)

/-- `TimerManager::addTimer(ms, cb, recurring)`: the handle of the new timer and whether
`onTimerInsertedAtFront` is called. -/
def addTimer (ms : UInt64) (cb : C) (recurring : Bool) (now : UInt64) (addr : Nat) :
    TimerManager C × Nat × Bool :=
  let h := m.heap.length
  let m := { m with heap := m.heap ++ [Timer.new ms cb recurring now addr] }
  let (m, front) := m.addTimerLocked h
  (m, h, front)

/-- `Timer::cancel()`. -/
def cancel (h : Nat) : Option (TimerManager C × Bool) :=
  match m.heap[h]? with
  | some ⟨_, _, _, some _, _⟩ => do
    let m := m.modify h fun t => { t with cb := none }
    let m ← m.setErase h
    return (m, true)
  | _ => some (m, false)

/-- `Timer::refresh()`. -/
def refresh (h : Nat) (now : UInt64) : Option (TimerManager C × Bool) :=
  match m.heap[h]? with
  | some ⟨_, _, _, some _, _⟩ =>
    if OrderedSet.find Before m.key h m.timers = none then some (m, false)
    else do
      let m ← m.setErase h
      let m := m.modify h fun t => { t with next := now + t.ms }
      let m := m.setInsert h
      return (m, true)
  | _ => some (m, false)

/-- `Timer::reset(ms, from_now)`: the result and whether `onTimerInsertedAtFront` is called. The
first test is made before the lock is taken. -/
def reset (h : Nat) (ms : UInt64) (from_now : Bool) (now : UInt64) : Option (TimerManager C × Bool × Bool) :=
  match m.heap[h]? with
  | none => some (m, false, false)
  | some t =>
    if ms = t.ms ∧ from_now = false then some (m, true, false)
    else if t.cb.isNone then some (m, false, false)
    else if OrderedSet.find Before m.key h m.timers = none then some (m, false, false)
    else do
      let m ← m.setErase h
      let start := if from_now then now else t.next - t.ms
      let m := m.modify h fun t => { t with ms := ms, next := start + ms }
      let (m, front) := m.addTimerLocked h
      return (m, true, front)

/-- `TimerManager::getNextTimer()`. -/
def getNextTimer (now : UInt64) : TimerManager C × UInt64 :=
  let m := { m with tickled := false }
  match m.timers with
  | [] => (m, ~~~0)
  | h :: _ =>
    let next := (m.heap[h]?.map (·.next)).getD 0
    (m, if now ≥ next then 0 else next - now)

/-- `TimerManager::detectClockRollover(now_ms)`: the clock went back by more than an hour. -/
def detectClockRollover (now : UInt64) : TimerManager C × Bool :=
  let rollover := decide (now < m.previouseTime) && decide (now < m.previouseTime - 60 * 60 * 1000)
  ({ m with previouseTime := now }, rollover)

/-- The cut of `m_timers` into the expired part and the rest: everything after a rollover, else the
elements before `lower_bound` of a probe at `now` and those after it with deadline `now`. -/
def cut (rollover : Bool) (now : UInt64) (probeAddr : Nat) : List Nat × List Nat :=
  if rollover then (m.timers, [])
  else
    let k := some (Timer.probe now probeAddr)
    let pre := OrderedSet.before Before m.key k m.timers
    let rest := OrderedSet.lowerBound Before m.key k m.timers
    let due := fun h => decide (m.heap[h]?.map (·.next) = some now)
    (pre ++ rest.takeWhile due, rest.dropWhile due)

/-- One round of the delivery loop of `listExpiredCb`: the callback is copied out, then a recurring
timer is re-armed and re-inserted and a one-shot timer loses its callback. -/
def deliver (now : UInt64) (acc : TimerManager C × List (Nat × Option C)) (h : Nat) :
    TimerManager C × List (Nat × Option C) :=
  match acc.1.heap[h]? with
  | none => acc
  | some t =>
    let cbs := acc.2 ++ [(h, t.cb)]
    if t.recurring then ((acc.1.modify h fun t => { t with next := now + t.ms }).setInsert h, cbs)
    else (acc.1.modify h fun t => { t with cb := none }, cbs)

/-- `TimerManager::listExpiredCb(cbs)`: the section under the write lock, with the callbacks it
outputs, each beside the timer it was copied from. (The section under the read lock before it only
returns early on an empty set, which this one does again.) -/
def listExpiredCb (now : UInt64) (probeAddr : Nat) : TimerManager C × List (Nat × Option C) :=
  match m.timers with
  | [] => (m, [])
  | front :: _ =>
    let (m, rollover) := m.detectClockRollover now
    if !rollover && decide ((m.heap[front]?.map (·.next)).getD 0 > now) then (m, [])
    else
      let (expired, rest) := m.cut rollover now probeAddr
      expired.foldl (deliver now) ({ m with timers := rest }, [])

end TimerManager

/-! ## Runs -/

/-- A critical section of the manager, with its clock reading and, where it allocates, the address
the allocator returns. -/
inductive Op (C : Type u)
  | addTimer (ms : UInt64) (cb : C) (recurring : Bool) (now : UInt64) (addr : Nat)
  | cancel (h : Nat)
  | refresh (h : Nat) (now : UInt64)
  | reset (h : Nat) (ms : UInt64) (from_now : Bool) (now : UInt64)
  | getNextTimer (now : UInt64)
  | listExpiredCb (now : UInt64) (probeAddr : Nat)

/-- What a section returns to its caller. -/
inductive Out (C : Type u)
  | handle (h : Nat) (front : Bool)
  | flag (b front : Bool)
  | timeout (ms : UInt64)
  | cbs (l : List (Nat × Option C))

/-- One section. -/
def exec (m : TimerManager C) : Op C → Option (TimerManager C × Out C)
  | .addTimer ms cb recurring now addr =>
    let (m, h, front) := m.addTimer ms cb recurring now addr
    some (m, .handle h front)
  | .cancel h => (m.cancel h).map fun (m, b) => (m, .flag b false)
  | .refresh h now => (m.refresh h now).map fun (m, b) => (m, .flag b false)
  | .reset h ms from_now now => (m.reset h ms from_now now).map fun (m, b, front) => (m, .flag b front)
  | .getNextTimer now =>
    let (m, t) := m.getNextTimer now
    some (m, .timeout t)
  | .listExpiredCb now probeAddr =>
    let (m, l) := m.listExpiredCb now probeAddr
    some (m, .cbs l)

/-- What callers can ask for: operations on timers that exist, and a new timer at an address that
no timer in the set occupies. -/
def Enabled (m : TimerManager C) : Op C → Prop
  | .addTimer _ _ _ _ addr => ∀ h ∈ m.timers, m.heap[h]?.map (·.addr) ≠ some addr
  | .cancel h | .refresh h _ | .reset h _ _ _ => h < m.heap.length
  | .getNextTimer _ | .listExpiredCb _ _ => True

instance (m : TimerManager C) (op : Op C) : Decidable (Enabled m op) :=
  match op with
  | .addTimer _ _ _ _ addr => inferInstanceAs (Decidable (∀ h ∈ m.timers, m.heap[h]?.map (·.addr) ≠ some addr))
  | .cancel h | .refresh h _ | .reset h _ _ _ => inferInstanceAs (Decidable (h < m.heap.length))
  | .getNextTimer _ | .listExpiredCb _ _ => isTrue trivial

/-- A section an enabled caller runs, labelled with the call and its result. -/
def Step (m : TimerManager C) (a : Op C × Out C) (m' : TimerManager C) : Prop :=
  Enabled m a.1 ∧ exec m a.1 = some (m', a.2)

end ServerFrame.Timers
