/-
The stop condition. `Scheduler::stopping()` looks at the queue and the activity counter under the mutex;
`IOManager::stopping()` looks at the timers, then at the count of pending events, and then at these two.
The model joins `run()`, the timers and the events: a worker that finds nothing enters `idle()`, tests the
stop condition step by step, waits, takes out the callbacks of expired timers, schedules them, and
triggers the events it was told about. `triggerEvent` schedules first and the counter goes down
afterwards; `listExpiredCb` empties the set first and `idle()` schedules afterwards; and `run()` counts a
`READY` fiber as done before it schedules it again.
-/
import ServerFrame.Scheduler.Queue
import ServerFrame.Scheduler.Wakeup
import ServerFrame.Timer.Account
import ServerFrame.Event.Step

namespace ServerFrame.Schedulers

universe u v

/-! ## The workers of a scheduler with timers and events -/

/-- The position of a thread in `idle()`: before `getNextTimer()`, before the test of
`m_pendingEventCount` and before `Scheduler::stopping()`, the three parts of the stop test; before
`epoll_wait`; before `listExpiredCb`; with the callbacks that gave and `schedule(begin, end)` to come; in the
loop over the reported events; and returned, so that the idle fiber is in state `TERM`. -/
inductive Idle (C : Type v)
  | testTimers
  | testPending
  | testQueue
  | waiting
  | expire
  | expired (cbs : List C)
  | reports
  | exit

/-- The scheduler, its timers and its events. `handing` are the tasks that a `triggerEvent` has taken out of
their context and is about to schedule, `due` counts the decrements of `m_pendingEventCount` that are still
to come for tasks triggered; `io.pending` is the count without them. `stop` says that `stop()` has set
`m_autoStop` and `m_stopping`. -/
structure Pool (T : Type u) (C : Type v) where
  sched : Sched T C
  timers : Timers.TimerManager C
  io : Events.IOManager Nat C
  handing : List (Task C)
  due : Nat
  stop : Bool
  idle : T → Idle C

/-- What a task, or a thread that is no worker, asks for. -/
inductive Call (T : Type u) (C : Type v)
  | schedule (task : Task C) (thread : Option T)
  | timer (op : Timers.Op C)
  | event (op : Events.Op Nat C)

/-- The steps of all threads. `hand` and `settle` are the `schedule()` and the decrement of a trigger under way. -/
inductive Move (T : Type u) (C : Type v)
  | outside (c : Call T C)
  | task (t : T) (c : Call T C)
  | run (a : Act T C)
  | stop
  | testTimers (t : T) (now : UInt64)
  | testPending (t : T)
  | testQueue (t : T)
  | expire (t : T) (now : UInt64) (probeAddr : Nat)
  | flush (t : T)
  | report (t : T) (p : Nat) (r : Events.Report) (ok : Bool)
  | hand (i : Nat)
  | settle

variable {T : Type u} {C : Type v}

/-- The operations of a timer that users call. -/
def userTimer : Timers.Op C → Bool
  | .getNextTimer _ | .listExpiredCb _ _ => false
  | _ => true

/-- The operations on events that users call. -/
def userEvent : Events.Op Nat C → Bool
  | .report _ _ _ => false
  | _ => true

/-- The task of a registration that was handed over. -/
def handed (x : Events.Entry Nat C) : Option (Task C) :=
  match x.fate, x.reg.task with
  | .handed, .fiber f => some (.fiber f)
  | .handed, .cb c => some (.cb c)
  | _, _ => none

namespace Pool

/-- The constructors, at the clock reading `now`. -/
def init (memory : Nat → Events.Event → Option Nat) (now : UInt64) : Pool T C :=
  { sched := .init, timers := .init now, io := .init memory, handing := [], due := 0, stop := false,
    idle := fun _ => .testQueue }

/-- `m_pendingEventCount`. -/
def pending (s : Pool T C) : Int := s.io.pending + s.due

variable [DecidableEq T] (s : Pool T C)

def goto (t : T) (p : Idle C) : Pool T C := { s with idle := Function.update s.idle t p }

/-- The idle fiber yields or returns: back in `run()`. -/
def leave (t : T) : Pool T C := { s with sched := { s.sched with idle := s.sched.idle - 1 }.goto t .scan }

/-- An event operation: what it hands over is to be scheduled, and counted down afterwards. -/
def event (memory : Nat → Events.Event → Option Nat) (op : Events.Op Nat C) : Option (Pool T C) :=
  match Events.exec memory s.io op with
  | .error _ => none
  | .ok r =>
    let tasks := r.log.filterMap handed
    some { s with
      io := r.state
      handing := s.handing ++ tasks
      due := s.due + if tasks.isEmpty then 0 else (s.io.pending - r.state.pending).toNat }

/-- A call. Timers and events are those of an `IOManager`. -/
def call (io : Bool) (memory : Nat → Events.Event → Option Nat) : Call T C → Option (Pool T C)
  | .schedule task thread => (s.sched.nextAny (.schedule task thread)).map fun s' => { s with sched := s' }
  | .timer op =>
    if io && userTimer op && decide (Timers.Enabled s.timers op) then
      (Timers.exec s.timers op).map fun r => { s with timers := r.1 }
    else none
  | .event op => if io && userEvent op then s.event memory op else none

/-- An action of `run()` or of a fiber. A thread whose idle fiber has returned leaves `run()` when it finds
nothing. -/
def run (io : Bool) : Act T C → Option (Pool T C)
  | .schedule _ _ => none
  | .dispatch t g =>
    match s.sched.pc t, s.idle t with
    | .chosen none, .exit => none
    | .chosen none, _ => (s.sched.nextAny (.dispatch t g)).map fun s' =>
        { s with sched := s' }.goto t (if io then .testTimers else .testQueue)
    | _, _ => (s.sched.nextAny (.dispatch t g)).map fun s' => { s with sched := s' }
  | .block t =>
    match s.idle t with
    | .waiting => (s.sched.nextAny (.block t)).map fun s' => { s with sched := s' }
    | _ => none
  | .wake t => (s.sched.nextAny (.wake t)).map fun s' => { s with sched := s' }.goto t .expire
  | .leave t =>
    match s.idle t with
    | .reports => (s.sched.nextAny (.leave t)).map fun s' => { s with sched := s' }
    | _ => none
  | a => (s.sched.nextAny a).map fun s' => { s with sched := s' }

/-- One step. -/
def next (io : Bool) (memory : Nat → Events.Event → Option Nat) : Move T C → Option (Pool T C)
  | .outside c => s.call io memory c
  | .task t c => if (s.sched.pc t).executing then s.call io memory c else none
  | .run a => s.run io a
  | .stop => some { s with stop := true }
  | .testTimers t now =>
    match s.sched.pc t, s.idle t with
    | .idling, .testTimers =>
      let (m, timeout) := s.timers.getNextTimer now
      some ({ s with timers := m }.goto t (if timeout = ~~~0 then .testPending else .waiting))
    | _, _ => none
  | .testPending t =>
    match s.sched.pc t, s.idle t with
    | .idling, .testPending => some (s.goto t (if s.pending = 0 then .testQueue else .waiting))
    | _, _ => none
  | .testQueue t =>
    match s.sched.pc t, s.idle t with
    | .idling, .testQueue =>
      if s.stop && s.sched.queue.isEmpty && decide (s.sched.active = 0) then some ((s.leave t).goto t .exit)
      else if io then some (s.goto t .waiting)
      else some (s.leave t)
    | _, _ => none
  | .expire t now probeAddr =>
    match s.sched.pc t, s.idle t with
    | .woken, .expire =>
      let (m, cbs) := s.timers.listExpiredCb now probeAddr
      some ({ s with timers := m }.goto t (.expired (cbs.filterMap Prod.snd)))
    | _, _ => none
  | .flush t =>
    match s.idle t with
    | .expired cbs => some ({ s with sched := cbs.foldl (fun s c => s.push ⟨.cb c, none⟩) s.sched }.goto t .reports)
    | _ => none
  | .report t p r ok =>
    match s.idle t with
    | .reports => s.event memory (.report p r ok)
    | _ => none
  | .hand i =>
    match s.handing[i]? with
    | some k => some { s with sched := s.sched.push ⟨k, none⟩, handing := s.handing.eraseIdx i }
    | none => none
  | .settle => if s.handing.length < s.due then some { s with due := s.due - 1 } else none

def Step (io : Bool) (memory : Nat → Events.Event → Option Nat) (s : Pool T C) (a : Move T C) (s' : Pool T C) : Prop :=
  s.next io memory a = some s'

end Pool

/-! ## The invariant -/

/-- The counter counts the threads at work, the timers and the events are well formed, and every task that
is being handed over still has its decrement to come. -/
structure Pool.Inv [Fintype T] (s : Pool T C) : Prop where
  active : s.sched.active = s.sched.load
  timers : Timers.WF s.timers
  events : Events.Inv s.io
  due : s.handing.length ≤ s.due

theorem length_entriesOf (fate : Events.Fate) (c : Events.FdContext Nat C) (e : Events.Event) :
    (Events.entriesOf fate c e).length ≤ 1 := by
  unfold Events.entriesOf
  rw [List.length_map]
  cases Events.FdContext.regOf (c.getContext e) <;> simp

/-- A trigger hands over at most one task for each event it clears. -/
theorem length_triggered {c c' : Events.FdContext Nat C} {m : Events.Mask} {l : List (Events.Entry Nat C)}
    (h : Events.Triggered c m c' l) : l.length ≤ m.count := by
  have hlen : ∀ e, (l.filter fun x => decide (x.event = e)).length ≤ if m.has e then 1 else 0 := by
    intro e
    rw [h.log e]
    split
    · exact length_entriesOf ..
    · simp
  have hr := hlen .read
  have hw := hlen .write
  have hsplit := List.length_eq_length_filter_add (l := l) fun x => decide (x.event = .read)
  have hne : (l.filter fun x => !decide (x.event = .read)) = l.filter fun x => decide (x.event = .write) := by
    refine List.filter_congr fun x _ => ?_
    cases x.event <;> rfl
  rw [hne] at hsplit
  have hcount : m.count = (if m.has .read then 1 else 0) + if m.has .write then 1 else 0 := by
    obtain ⟨r, w⟩ := m
    cases r <;> cases w <;> rfl
  omega

theorem handed_nil {l : List (Events.Entry Nat C)} (h : ∀ x ∈ l, x.fate ≠ .handed) : l.filterMap handed = [] := by
  rw [List.filterMap_eq_nil_iff]
  intro x hx
  have := h x hx
  unfold handed
  split <;> simp_all

/-- An operation counts down for every task it hands over. -/
theorem length_handed {memory : Nat → Events.Event → Option Nat} {io : Events.IOManager Nat C} {op : Events.Op Nat C}
    {r : Events.Result Nat C} (hi : Events.Inv io) (h : Events.exec memory io op = .ok r) :
    ((r.log.filterMap handed).length : Int) ≤ (io.pending - r.state.pending).toNat := by
  obtain ⟨io', hg, sch, ho⟩ := Events.exec_some_outcome hi h
  rw [← hg.pending]
  cases ho with
  | refused => simp [Events.IOManager.refused]
  | failed hc hv => simp [Events.IOManager.failed]
  | committed hc hv hch =>
    cases hch with
    | add e ctx reg =>
      rw [handed_nil (by simp)]
      simp
    | drop e =>
      rw [handed_nil (fun x hx => ?_)]
      · simp
      · obtain ⟨reg, -, rfl⟩ := List.mem_map.1 hx
        exact nofun
    | trigger m c' l' hand ht =>
      have hle := (List.length_filterMap_le handed _).trans (length_triggered ht)
      have hcount := Events.Mask.count_diff ht.sub
      rw [← ht.events] at hcount
      simp only [Events.commit]
      omega

section Inv

variable [Fintype T] [DecidableEq T] {io : Bool} {memory : Nat → Events.Event → Option Nat} {s s' : Pool T C}

omit [DecidableEq T] in
theorem Pool.Inv.event (h : s.Inv) {op : Events.Op Nat C} (hs : s.event memory op = some s') : s'.Inv := by
  unfold Pool.event at hs
  split at hs
  · cases hs
  · rename_i r he
    cases hs
    have hlen := length_handed h.events he
    have hdue := h.due
    refine ⟨h.active, h.timers, Events.step_inv (a := (op, r)) h.events ⟨he, rfl⟩, ?_⟩
    simp only [List.length_append]
    split
    · rename_i hn
      rw [List.isEmpty_iff.1 hn]
      simpa using hdue
    · omega

theorem Pool.Inv.call (h : s.Inv) {c : Call T C} (hs : s.call io memory c = some s') : s'.Inv := by
  cases c with
  | schedule task thread =>
    obtain ⟨s1, h1, rfl⟩ := Option.map_eq_some_iff.1 hs
    exact ⟨active_step h.active h1, h.timers, h.events, h.due⟩
  | timer op =>
    simp only [Pool.call] at hs
    split at hs
    · rename_i hen
      simp only [Bool.and_eq_true, decide_eq_true_eq] at hen
      obtain ⟨⟨m, o⟩, h1, rfl⟩ := Option.map_eq_some_iff.1 hs
      exact ⟨h.active, (Timers.step_effect (a := (op, o)) h.timers ⟨hen.2, h1⟩).wf, h.events, h.due⟩
    · cases hs
  | event op =>
    simp only [Pool.call] at hs
    split at hs
    · exact h.event hs
    · cases hs

omit [Fintype T] in
/-- What an action of `run()` does to the parts. -/
theorem run_parts {a : Act T C} (hs : s.run io a = some s') :
    s.sched.nextAny a = some s'.sched ∧ s'.timers = s.timers ∧ s'.io = s.io ∧ s'.handing = s.handing ∧ s'.due = s.due ∧
    s'.stop = s.stop ∧
    (∀ task thread, a ≠ .schedule task thread) ∧
    ∀ u cbs, s'.idle u = .expired cbs → s.idle u = .expired cbs := by
  cases a with
  | schedule task thread => cases hs
  | dispatch t g =>
    simp only [Pool.run] at hs
    split at hs
    · cases hs
    · obtain ⟨s1, h1, rfl⟩ := Option.map_eq_some_iff.1 hs
      refine ⟨h1, rfl, rfl, rfl, rfl, rfl, nofun, fun u cbs hu => ?_⟩
      by_cases hut : u = t
      · subst hut
        simp only [Pool.goto, Function.update_self] at hu
        split at hu <;> cases hu
      · simpa only [Pool.goto, Function.update_of_ne hut] using hu
    · obtain ⟨s1, h1, rfl⟩ := Option.map_eq_some_iff.1 hs
      exact ⟨h1, rfl, rfl, rfl, rfl, rfl, nofun, fun _ _ hu => hu⟩
  | wake t =>
    obtain ⟨s1, h1, rfl⟩ := Option.map_eq_some_iff.1 hs
    refine ⟨h1, rfl, rfl, rfl, rfl, rfl, nofun, fun u cbs hu => ?_⟩
    by_cases hut : u = t
    · subst hut
      simp only [Pool.goto, Function.update_self] at hu
      cases hu
    · simpa only [Pool.goto, Function.update_of_ne hut] using hu
  | block t | leave t =>
    simp only [Pool.run] at hs
    split at hs
    · obtain ⟨s1, h1, rfl⟩ := Option.map_eq_some_iff.1 hs
      exact ⟨h1, rfl, rfl, rfl, rfl, rfl, nofun, fun _ _ hu => hu⟩
    · cases hs
  | create _ | test | write | scan _ | scanTest _ | scanWrite _ | swapIn _ | arm _ | yieldToHold _ | yieldToReady _
    | finish _ _ | save _ | decrement _ | inspect _ | requeue _ | assign _ | drain _ =>
    obtain ⟨s1, h1, rfl⟩ := Option.map_eq_some_iff.1 hs
    exact ⟨h1, rfl, rfl, rfl, rfl, rfl, nofun, fun _ _ hu => hu⟩

omit [Fintype T] [DecidableEq T] in
theorem foldl_push (cbs : List C) : ∀ s : Sched T C, (cbs.foldl (fun s c => s.push ⟨.cb c, none⟩) s).pc = s.pc ∧
    (cbs.foldl (fun s c => s.push ⟨.cb c, none⟩) s).active = s.active := by
  induction cbs with
  | nil => exact fun s => ⟨rfl, rfl⟩
  | cons c cbs ih => exact fun s => ih (s.push ⟨.cb c, none⟩)

theorem getNextTimer_wf {m : Timers.TimerManager C} (h : Timers.WF m) (now : UInt64) :
    Timers.WF (m.getNextTimer now).1 :=
  (Timers.step_effect h (a := (.getNextTimer now, .timeout (m.getNextTimer now).2)) ⟨trivial, rfl⟩).wf

theorem Pool.Inv.leave (h : s.Inv) {t : T} (ht : s.sched.pc t = .idling) :
    (s.leave t).sched.active = (s.leave t).sched.load :=
  active_of_move h.active ht rfl rfl

/-- Every step keeps the invariant. -/
theorem pool_inv_step {a : Move T C} (h : s.Inv) (hs : s.Step io memory a s') : s'.Inv := by
  unfold Pool.Step at hs
  cases a with
  | outside c => exact h.call hs
  | task t c =>
    simp only [Pool.next] at hs
    split at hs
    · exact h.call hs
    · cases hs
  | run a =>
    obtain ⟨h1, h2, h3, h4, h5, -⟩ := run_parts hs
    exact ⟨active_step h.active h1, by rw [h2]; exact h.timers, by rw [h3]; exact h.events, by rw [h4, h5]; exact h.due⟩
  | stop =>
    cases hs
    exact ⟨h.active, h.timers, h.events, h.due⟩
  | testTimers t now =>
    simp only [Pool.next] at hs
    split at hs <;> cases hs
    exact ⟨h.active, getNextTimer_wf h.timers now, h.events, h.due⟩
  | testPending t =>
    simp only [Pool.next] at hs
    split at hs <;> cases hs
    exact ⟨h.active, h.timers, h.events, h.due⟩
  | testQueue t =>
    simp only [Pool.next] at hs
    split at hs
    · rename_i hpt _
      split at hs
      · cases hs
        exact ⟨h.leave hpt, h.timers, h.events, h.due⟩
      · split at hs <;> cases hs
        · exact ⟨h.active, h.timers, h.events, h.due⟩
        · exact ⟨h.leave hpt, h.timers, h.events, h.due⟩
    · cases hs
  | expire t now probeAddr =>
    simp only [Pool.next] at hs
    split at hs <;> cases hs
    exact ⟨h.active, (Timers.listExpiredCb_spec h.timers now probeAddr).wf, h.events, h.due⟩
  | flush t =>
    simp only [Pool.next] at hs
    split at hs <;> cases hs
    refine ⟨?_, h.timers, h.events, h.due⟩
    obtain ⟨hp, ha⟩ := foldl_push ‹List C› s.sched
    exact active_of_same h.active hp ha
  | report t p r ok =>
    simp only [Pool.next] at hs
    split at hs
    · exact h.event hs
    · cases hs
  | hand i =>
    simp only [Pool.next] at hs
    split at hs <;> cases hs
    have hdue := h.due
    refine ⟨active_of_same h.active rfl rfl, h.timers, h.events, ?_⟩
    have := List.length_eraseIdx_le s.handing i
    simp only
    omega
  | settle =>
    simp only [Pool.next] at hs
    split at hs <;> cases hs
    refine ⟨h.active, h.timers, h.events, ?_⟩
    simp only
    omega

theorem pool_init_inv (now : UInt64) : (Pool.init memory now : Pool T C).Inv :=
  ⟨init_sound.active, Timers.init_wf now, Events.init_inv memory, Nat.le_refl _⟩

end Inv

end ServerFrame.Schedulers
