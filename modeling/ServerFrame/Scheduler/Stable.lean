/-
When the stop condition is stable. A stop test that answers true while nothing is on its way from one
place to another (an expired callback from the set of timers to the queue, a `READY` fiber from the counter
to the queue, a timer or an event added since its part of the test) finds a pool at rest, and every step
of a worker from there leaves it at rest.
-/
import ServerFrame.Scheduler.Stop

namespace ServerFrame.Schedulers

universe u v

variable {T : Type u} {C : Type v}

/-! ## Rest -/

/-- A call made by a thread that is no worker. -/
def Move.outside? : Move T C → Bool
  | .outside _ => true
  | _ => false

/-- A step of a task that is executed. -/
def Move.executes : Move T C → Bool
  | .task _ _ => true
  | .run (.swapIn _) | .run (.arm _) | .run (.yieldToHold _) | .run (.yieldToReady _) | .run (.finish _ _) => true
  | _ => false

/-- Nothing to run and nobody running: the queue is empty, no thread is between the removal of an entry and
the decrement for it, and no thread is about to put a fiber back. -/
structure Sched.AtRest (s : Sched T C) : Prop where
  queue : s.queue = []
  rest : ∀ u, (s.pc u).holding = false
  ready : ∀ u f cb, s.pc u ≠ .task f cb .requeue ∧ (s.pc u = .task f cb .inspecting → s.fibers f ≠ some .ready)

section Rest

variable [DecidableEq T] {s s' : Sched T C} {t : T}

/-- A thread moves to a position where it holds nothing, and no fiber becomes `READY`. -/
theorem Sched.AtRest.move (h : s.AtRest) {p : Pc C} (hp : s'.pc = Function.update s.pc t p) (hq : s'.queue = s.queue)
    (hf : ∀ f, s'.fibers f = some .ready → s.fibers f = some .ready) (hh : p.holding = false)
    (hr : ∀ f cb, p ≠ .task f cb .requeue ∧ p ≠ .task f cb .inspecting) : s'.AtRest := by
  refine ⟨hq.trans h.queue, fun u => ?_, fun u f cb => ?_⟩
  · rw [hp]
    by_cases hu : u = t
    · subst hu
      rw [Function.update_self]
      exact hh
    · rw [Function.update_of_ne hu]
      exact h.rest u
  · rw [hp]
    by_cases hu : u = t
    · subst hu
      rw [Function.update_self]
      exact ⟨(hr f cb).1, fun hx => absurd hx (hr f cb).2⟩
    · rw [Function.update_of_ne hu]
      exact ⟨(h.ready u f cb).1, fun hx hy => (h.ready u f cb).2 hx (hf f hy)⟩

omit [DecidableEq T] in
theorem Sched.AtRest.still (h : s.AtRest) (hp : s'.pc = s.pc) (hq : s'.queue = s.queue)
    (hf : ∀ f, s'.fibers f = some .ready → s.fibers f = some .ready) : s'.AtRest :=
  ⟨hq.trans h.queue, by rw [hp]; exact h.rest, fun u f cb => by
    rw [hp]
    exact ⟨(h.ready u f cb).1, fun hx hy => (h.ready u f cb).2 hx (hf f hy)⟩⟩

omit [DecidableEq T] in
theorem ready_of_setState {f g : Nat} {st : FiberState} (hst : st ≠ .ready)
    (h : (s.setState g st).fibers f = some .ready) : s.fibers f = some .ready := by
  by_cases hf : f = g
  · subst hf
    simp only [Sched.setState, Function.update_self, Option.some.injEq] at h
    exact absurd h hst
  · simpa only [Sched.setState, Function.update_of_ne hf] using h

omit [DecidableEq T] in
theorem Sched.AtRest.absurd_of_holding {P : Prop} (h : s.AtRest) {p : Pc C} (hpt : s.pc t = p)
    (hp : p.holding = true) : P := by
  have := h.rest t
  rw [hpt, hp] at this
  cases this

theorem dropCb_state (s : Sched T C) (t : T) (cb : Bool) : (s.dropCb t cb).fibers = s.fibers := by
  unfold Sched.dropCb
  split <;> rfl

/-- At rest nothing comes into the queue by the actions of `run()`, and no task is executed. -/
theorem atRest_step (h : s.AtRest) {a : Act T C} (hs : s.nextAny a = some s')
    (hn : ∀ task thread, a ≠ .schedule task thread) : s'.AtRest ∧ (Move.run a : Move T C).executes = false := by
  cases a with
  | schedule task thread => exact absurd rfl (hn task thread)
  | create f =>
    obtain ⟨-, rfl⟩ := Sched.next_create hs
    exact ⟨h.still rfl rfl fun g hg => ready_of_setState (by decide) hg, rfl⟩
  | test =>
    obtain ⟨-, ⟨-, rfl⟩ | ⟨-, rfl⟩⟩ := Sched.next_test hs
    · exact ⟨h.still rfl rfl fun _ => id, rfl⟩
    · exact ⟨h.still rfl rfl fun _ => id, rfl⟩
  | write =>
    obtain ⟨-, rfl⟩ := Sched.next_write hs
    exact ⟨h.still rfl rfl fun _ => id, rfl⟩
  | drain t =>
    obtain ⟨-, rfl⟩ := Sched.next_drain hs
    exact ⟨h.still rfl rfl fun _ => id, rfl⟩
  | scan t =>
    obtain ⟨-, rfl⟩ := Sched.next_scan hs
    refine ⟨h.move (t := t) (p := .chosen none) ?_ ?_ (fun _ => id) rfl fun _ _ => by simp, rfl⟩
    · simp [Sched.goto, h.queue, pick]
    · simp [Sched.goto, h.queue, pick]
  | scanTest t =>
    obtain ⟨ft, hpt, rfl⟩ := Sched.next_scanTest hs
    cases ft with
    | some k => exact h.absurd_of_holding hpt rfl
    | none =>
      refine ⟨h.move rfl rfl (fun _ => id) ?_ fun f cb => ?_, rfl⟩
      · split <;> rfl
      · split <;> simp
  | scanWrite t =>
    obtain ⟨ft, hpt, rfl⟩ := Sched.next_scanWrite hs
    cases ft with
    | some k => exact h.absurd_of_holding hpt rfl
    | none => exact ⟨h.move rfl rfl (fun _ => id) rfl fun _ _ => by simp, rfl⟩
  | dispatch t g =>
    rcases Sched.next_dispatch hs with ⟨f, hpt, -⟩ | ⟨c, hpt, -⟩ | ⟨-, rfl⟩
    · exact h.absurd_of_holding hpt rfl
    · exact h.absurd_of_holding hpt rfl
    · exact ⟨h.move rfl rfl (fun _ => id) rfl fun _ _ => by simp, rfl⟩
  | inspect t =>
    obtain ⟨f, cb, hpt, ⟨hready, -⟩ | ⟨-, -, rfl⟩ | ⟨-, -, rfl⟩⟩ := Sched.next_inspect hs
    · exact absurd hpt ((h.ready t f cb).2 · hready)
    · refine ⟨h.move (t := t) (p := .scan) ?_ ?_ (fun g hg => ?_) rfl fun _ _ => by simp, rfl⟩
      · cases cb <;> rfl
      · cases cb <;> rfl
      · cases cb with
        | false => exact hg
        | true => exact ready_of_setState (by decide) hg
    · exact ⟨h.move rfl rfl (fun _ => id) rfl fun _ _ => by simp, rfl⟩
  | requeue t =>
    obtain ⟨f, cb, hpt, -⟩ := Sched.next_requeue hs
    exact absurd hpt (h.ready t f cb).1
  | assign t =>
    obtain ⟨f, cb, hpt, rfl⟩ := Sched.next_assign hs
    refine ⟨h.move (t := t) (p := .scan) ?_ ?_ (fun g hg => ?_) rfl fun _ _ => by simp, rfl⟩
    · simp only [Sched.goto, dropCb_pc]
      rfl
    · simp only [Sched.goto, dropCb_pc]
      rfl
    · replace hg : ((s.setState f .hold).dropCb t cb).fibers g = some .ready := hg
      rw [dropCb_state] at hg
      exact ready_of_setState (by decide) hg
  | block t =>
    obtain ⟨-, rfl⟩ := Sched.next_block hs
    exact ⟨h.move rfl rfl (fun _ => id) rfl fun _ _ => by simp, rfl⟩
  | wake t =>
    obtain ⟨-, rfl⟩ := Sched.next_wake hs
    exact ⟨h.move rfl rfl (fun _ => id) rfl fun _ _ => by simp, rfl⟩
  | leave t =>
    obtain ⟨-, rfl⟩ := Sched.next_leave hs
    exact ⟨h.move rfl rfl (fun _ => id) rfl fun _ _ => by simp, rfl⟩
  | swapIn t | arm t | yieldToHold t | yieldToReady t | finish t _ | save t | decrement t =>
    -- at rest no thread has a task
    simp only [Sched.nextAny, Sched.next] at hs
    split at hs
    all_goals first | exact h.absurd_of_holding ‹_› rfl | cases hs

end Rest

/-- Nothing is left to do: the scheduler is at rest, there is no timer and no registered event, and no task
is on its way into the queue. -/
structure Pool.Quiescent (s : Pool T C) : Prop where
  sched : s.sched.AtRest
  timers : s.timers.timers = []
  events : ∀ c ∈ s.io.heap, c.events = Events.Mask.none
  handing : s.handing = []
  expired : ∀ u cbs, s.idle u = .expired cbs → cbs = []

section Quiescent

variable [DecidableEq T] {io : Bool} {memory : Nat → Events.Event → Option Nat} {s s' : Pool T C}

/-- A report on a context without events is ignored. -/
theorem report_refused {m : Events.IOManager Nat C} (h : ∀ c ∈ m.heap, c.events = Events.Mask.none) {p : Nat}
    {rep : Events.Report} {ok : Bool} {r : Events.Result Nat C} (he : Events.exec memory m (.report p rep ok) = .ok r) :
    r = m.refused := by
  simp only [Events.exec, Events.IOManager.handleReport] at he
  split at he
  · cases he
  · rename_i c hc
    have hnone : c.events.and (Events.IOManager.realEvents rep c.events) = Events.Mask.none :=
      Events.Mask.ext_has fun e => by simp [h c (List.mem_of_getElem? hc)]
    rw [if_pos hnone] at he
    cases he
    rfl

theorem Pool.Quiescent.goto {t : T} {p : Idle C} (h : s.Quiescent) (hp : ∀ cbs, p = .expired cbs → cbs = []) :
    (s.goto t p).Quiescent := by
  refine ⟨h.sched, h.timers, h.events, h.handing, fun u cbs hu => ?_⟩
  by_cases hut : u = t
  · subst hut
    simp only [Pool.goto, Function.update_self] at hu
    exact hp cbs hu
  · simp only [Pool.goto, Function.update_of_ne hut] at hu
    exact h.expired u cbs hu

theorem Pool.Quiescent.leave (h : s.Quiescent) (t : T) : (s.leave t).Quiescent :=
  ⟨h.sched.move rfl rfl (fun _ => id) rfl fun _ _ => by simp, h.timers, h.events, h.handing, h.expired⟩

/-- Every step of a worker leaves it so, and executes no task. -/
theorem quiescent_step {a : Move T C} (h : s.Quiescent) (hs : s.Step io memory a s') (ha : a.outside? = false) :
    s'.Quiescent ∧ a.executes = false := by
  unfold Pool.Step at hs
  cases a with
  | outside c => cases ha
  | task t c =>
    simp only [Pool.next] at hs
    split at hs
    · rename_i hx
      have hold := h.sched.rest t
      unfold Pc.executing at hx
      split at hx <;> simp_all [Pc.holding]
    · cases hs
  | run a =>
    obtain ⟨h1, h2, h3, h4, -, -, h5, h6⟩ := run_parts hs
    obtain ⟨h7, h8⟩ := atRest_step h.sched h1 h5
    exact ⟨⟨h7, by rw [h2]; exact h.timers, by rw [h3]; exact h.events, by rw [h4]; exact h.handing,
      fun u cbs hu => h.expired u cbs (h6 u cbs hu)⟩, h8⟩
  | stop =>
    cases hs
    exact ⟨⟨h.sched, h.timers, h.events, h.handing, h.expired⟩, rfl⟩
  | testTimers t now =>
    simp only [Pool.next] at hs
    split at hs <;> cases hs
    -- there is no timer to ask for
    have ht : (s.timers.getNextTimer now).1.timers = [] := by
      unfold Timers.TimerManager.getNextTimer
      simp only [h.timers]
    have hq : ({ s with timers := (s.timers.getNextTimer now).1 } : Pool T C).Quiescent :=
      ⟨h.sched, ht, h.events, h.handing, h.expired⟩
    refine ⟨hq.goto fun cbs hx => ?_, rfl⟩
    split at hx <;> cases hx
  | testPending t =>
    simp only [Pool.next] at hs
    split at hs <;> cases hs
    refine ⟨h.goto fun cbs hx => ?_, rfl⟩
    split at hx <;> cases hx
  | testQueue t =>
    simp only [Pool.next] at hs
    split at hs
    · split at hs
      · cases hs
        exact ⟨(h.leave t).goto (by simp), rfl⟩
      · split at hs <;> cases hs
        · exact ⟨h.goto (by simp), rfl⟩
        · exact ⟨h.leave t, rfl⟩
    · cases hs
  | expire t now probeAddr =>
    simp only [Pool.next] at hs
    split at hs <;> cases hs
    -- nor one that could expire
    have ht : s.timers.listExpiredCb now probeAddr = (s.timers, []) := by
      unfold Timers.TimerManager.listExpiredCb
      simp only [h.timers]
    refine ⟨?_, rfl⟩
    rw [ht]
    refine Pool.Quiescent.goto (s := { s with timers := s.timers }) h fun cbs hx => ?_
    cases hx
    rfl
  | flush t =>
    simp only [Pool.next] at hs
    split at hs
    · rename_i cbs hi
      cases hs
      rw [h.expired t cbs hi]
      exact ⟨Pool.Quiescent.goto (s := { s with sched := s.sched }) h (by simp), rfl⟩
    · cases hs
  | report t p r ok =>
    simp only [Pool.next] at hs
    split at hs
    · unfold Pool.event at hs
      split at hs
      · cases hs
      · rename_i res he
        cases hs
        rw [report_refused h.events he]
        refine ⟨⟨h.sched, h.timers, h.events, ?_, h.expired⟩, rfl⟩
        simp [Events.IOManager.refused, h.handing]
    · cases hs
  | hand i =>
    simp only [Pool.next, h.handing, List.getElem?_nil] at hs
    cases hs
  | settle =>
    simp only [Pool.next] at hs
    split at hs <;> cases hs
    exact ⟨⟨h.sched, h.timers, h.events, h.handing, h.expired⟩, rfl⟩

end Quiescent

/-! ## The stop test -/

/-- Where `stopping()` would answer true, nothing is on its way from one place to another: no timer is in
the set and no event is pending any more, no thread holds callbacks of expired timers that it has not
scheduled, and no thread has counted a `READY` fiber as done that it has not put back. -/
def Pool.HandedOver (s : Pool T C) : Prop :=
  s.timers.timers = [] ∧ s.pending = 0 ∧ (∀ u cbs, s.idle u = .expired cbs → cbs = []) ∧
  ∀ u f cb, s.sched.pc u ≠ .task f cb .requeue ∧
    (s.sched.pc u = .task f cb .inspecting → s.sched.fibers f ≠ some .ready)

/-- `stopping()` has returned true on a thread with this step. -/
def Pool.Stopped (s' : Pool T C) (t : T) : Prop := s'.idle t = .exit

theorem events_of_bits {l : List (Events.FdContext Nat C)} (h : Events.bits l = 0) :
    ∀ c ∈ l, c.events = Events.Mask.none := by
  have hnn : ∀ l : List (Events.FdContext Nat C), 0 ≤ Events.bits l := by
    intro l
    unfold Events.bits
    exact List.sum_nonneg (by simp)
  intro c hc
  obtain ⟨a, b, rfl⟩ := List.append_of_mem hc
  rw [Events.bits_append] at h
  have h1 := hnn a
  have h2 := hnn b
  have h3 : Events.bits (c :: b) = c.events.count + Events.bits b := by simp [Events.bits]
  have hz : c.events.count = 0 := by omega
  obtain ⟨⟨r, w⟩, hrw⟩ : ∃ m, c.events = m := ⟨_, rfl⟩
  rw [hrw] at hz ⊢
  cases r <;> cases w <;> first | rfl | cases hz

/-- A stop test that is true when everything is handed over finds nothing left to do. -/
theorem quiescent_of_test [Fintype T] [DecidableEq T] {io : Bool} {memory : Nat → Events.Event → Option Nat}
    {s s' : Pool T C} {t : T} (hi : s.Inv) (hs : s.Step io memory (.testQueue t) s') (hx : s'.Stopped t)
    (hk : s.HandedOver) : s'.Quiescent := by
  obtain ⟨htim, hpend, hexp, hready⟩ := hk
  have hdue := hi.due
  have hbits : Events.bits s.io.heap = 0 ∧ s.due = 0 := by
    have hp := hi.events.pending
    have hnn : 0 ≤ Events.bits s.io.heap := List.sum_nonneg (by simp)
    unfold Pool.pending at hpend
    omega
  unfold Pool.Step at hs
  simp only [Pool.next] at hs
  split at hs
  · rename_i hpt hidle
    split at hs
    · rename_i hc
      cases hs
      simp only [Bool.and_eq_true, List.isEmpty_iff, decide_eq_true_eq] at hc
      have hrest : ∀ u, (s.sched.pc u).holding = false := by
        have hload := hi.active
        rw [hc.2] at hload
        unfold Sched.load at hload
        have hall := (Finset.sum_eq_zero_iff_of_nonneg (fun u _ => by split <;> decide)).1 hload.symm
        intro u
        have hu := hall u (Finset.mem_univ u)
        by_contra hb
        rw [Bool.not_eq_false] at hb
        rw [hb] at hu
        cases hu
      have hq : s.Quiescent :=
        ⟨⟨hc.1.2, hrest, hready⟩, htim, events_of_bits hbits.1, List.eq_nil_of_length_eq_zero (by omega), hexp⟩
      exact (hq.leave t).goto (by simp)
    · split at hs <;> cases hs
      · simp [Pool.Stopped, Pool.goto] at hx
      · simp only [Pool.Stopped, Pool.leave, hidle] at hx
        cases hx
  · cases hs

/-- The stop condition is stable. For any number of workers, of a plain scheduler or of an `IOManager`, in
every run: if `stopping()` returns true on one of them in a state in which everything is handed over,
then no step of a worker after it changes the queue or executes a task, as long as no other thread
makes a call. -/
theorem stop_stable [Fintype T] [DecidableEq T] {io : Bool} {memory : Nat → Events.Event → Option Nat} {now : UInt64}
    {l₁ l₂ : List (Move T C)} {s₁ s₂ s₃ s₄ : Pool T C} {t : T} {a : Move T C}
    (h₁ : Lts.Run (Pool.Step io memory) (Pool.init memory now) l₁ s₁)
    (ht : s₁.Step io memory (.testQueue t) s₂) (hx : s₂.Stopped t) (hk : s₁.HandedOver)
    (h₂ : Lts.Run (Pool.Step io memory) s₂ l₂ s₃) (ha : s₃.Step io memory a s₄)
    (hout : ∀ b ∈ l₂ ++ [a], b.outside? = false) :
    s₄.sched.queue = s₃.sched.queue ∧ a.executes = false := by
  have hi : s₁.Inv := h₁.invariant (pool_init_inv now) fun _ _ _ h hs => pool_inv_step h hs
  have hq₂ := quiescent_of_test hi ht hx hk
  have hq₃ : (∀ b ∈ l₂, b.outside? = false) → s₃.Quiescent := by
    refine h₂.history (P := fun (l : List (Move T C)) s => (∀ b ∈ l, b.outside? = false) → s.Quiescent) (fun _ => hq₂)
      fun l s b s' _ ih hs hb => ?_
    have hq := ih fun c hc => hb c (List.mem_append_left _ hc)
    exact (quiescent_step hq hs (hb b (by simp))).1
  replace hq₃ := hq₃ fun b hb => hout b (List.mem_append_left _ hb)
  obtain ⟨hq₄, he⟩ := quiescent_step hq₃ ha (hout a (by simp))
  exact ⟨hq₄.sched.queue.trans hq₃.sched.queue.symm, he⟩

/-- An expired timer is taken out by one of two workers; before that one schedules the callback, the other
one finds no timer, no event, no queue and no activity. These are the steps between `stop()` and its
last test. -/
def stopTooEarly : List (Move Bool Unit) :=
  [.run (.scan false), .run (.dispatch false 0), .testTimers false 5, .run (.block false), .run (.wake false),
    .expire false 5 128, .run (.scan true), .run (.dispatch true 0), .testTimers true 5, .testPending true]

theorem stop_too_early_unstable : ¬ ∀ (io : Bool) (memory : Nat → Events.Event → Option Nat) (now : UInt64)
    (l₀ l₁ l₂ : List (Move Bool Unit)) (s₁ s₂ s₃ s₄ : Pool Bool Unit) (t : Bool) (a : Move Bool Unit),
    Lts.Run (Pool.Step io memory) (Pool.init memory now) (l₀ ++ .stop :: l₁) s₁ →
    s₁.Step io memory (.testQueue t) s₂ → s₂.Stopped t →
    Lts.Run (Pool.Step io memory) s₂ l₂ s₃ → s₃.Step io memory a s₄ → (∀ b ∈ l₁ ++ l₂ ++ [a], b.outside? = false) →
    s₄.sched.queue = s₃.sched.queue ∧ a.executes = false := by
  intro h
  let memory : Nat → Events.Event → Option Nat := fun _ _ => none
  have hr : ∃ p1 p2 p3 p4 p5 p6 p7 p8 p9 p10 p11 s₁ s₂ s₄ : Pool Bool Unit,
      (Pool.init memory 5).Step true memory (.outside (.timer (.addTimer 0 () false 5 64))) p1 ∧
      p1.Step true memory .stop p2 ∧ p2.Step true memory (.run (.scan false)) p3 ∧
      p3.Step true memory (.run (.dispatch false 0)) p4 ∧ p4.Step true memory (.testTimers false 5) p5 ∧
      p5.Step true memory (.run (.block false)) p6 ∧ p6.Step true memory (.run (.wake false)) p7 ∧
      p7.Step true memory (.expire false 5 128) p8 ∧ p8.Step true memory (.run (.scan true)) p9 ∧
      p9.Step true memory (.run (.dispatch true 0)) p10 ∧ p10.Step true memory (.testTimers true 5) p11 ∧
      p11.Step true memory (.testPending true) s₁ ∧ s₁.Step true memory (.testQueue true) s₂ ∧ s₂.Stopped true ∧
      s₂.Step true memory (.flush false) s₄ ∧ s₂.sched.queue = [] ∧ s₄.sched.queue = [⟨.cb (), none⟩] :=
    ⟨_, _, _, _, _, _, _, _, _, _, _, _, _, _, rfl, rfl, rfl, rfl, rfl, rfl, rfl, rfl, rfl, rfl, rfl, rfl, rfl,
      rfl, rfl, rfl,
      rfl⟩
  obtain ⟨p1, p2, p3, p4, p5, p6, p7, p8, p9, p10, p11, s₁, s₂, s₄, h1, h2, h3, h4, h5, h6, h7, h8, h9, h10,
    h11, h12, ht,
    hx, ha, hq₂, hq₄⟩ := hr
  have hrun : Lts.Run (Pool.Step true memory) (Pool.init memory 5)
      ([.outside (.timer (.addTimer 0 () false 5 64))] ++ .stop :: stopTooEarly) s₁ :=
    .cons h1 (.cons h2 (.cons h3 (.cons h4 (.cons h5 (.cons h6 (.cons h7 (.cons h8 (.cons h9 (.cons h10 (.cons h11
      (.single h12)))))))))))
  have := (h true memory 5 _ stopTooEarly [] s₁ s₂ s₂ s₄ true (.flush false) hrun ht hx .nil ha
    (by simp [stopTooEarly, Move.outside?])).1
  rw [hq₂, hq₄] at this
  cases this

/-- Two workers of an `IOManager`, with a task and an expired timer: one executes the task, waits for events, and is
told of nothing; the other one takes out the timer, schedules its callback, executes it and tests the stop condition. -/
def stopAfterTimer : List (Move Bool Unit) :=
  [.outside (.schedule (.cb ()) none), .outside (.timer (.addTimer 0 () false 5 64)), .stop, .run (.scan true),
    .run (.dispatch true 0), .run (.swapIn true), .run (.finish true false), .run (.save true), .run (.decrement true),
    .run (.inspect true), .run (.scan true), .run (.dispatch true 0), .testTimers true 5, .run (.block true),
    .run (.scan false), .run (.dispatch false 1), .testTimers false 5, .run (.block false), .run (.wake false),
    .expire false 5 128, .flush false, .run (.leave false), .run (.scan false), .run (.dispatch false 1),
    .run (.swapIn false), .run (.finish false false), .run (.save false), .run (.decrement false),
    .run (.inspect false), .run (.scan false), .run (.dispatch false 1), .testTimers false 5, .testPending false]

/-- What the first worker does when the other one has stopped: it looks at timers, events and queue again. -/
def otherStops : List (Move Bool Unit) :=
  [.run (.wake true), .expire true 5 192, .flush true, .run (.leave true), .run (.scan true), .run (.dispatch true 0),
    .testTimers true 5, .testPending true]

theorem stop_stable_timer : ∃ s₁ s₂ s₃ s₄ : Pool Bool Unit,
    Lts.Run (Pool.Step true fun _ _ => none) (Pool.init (fun _ _ => none) 5) stopAfterTimer s₁ ∧
    s₁.Step true (fun _ _ => none) (.testQueue false) s₂ ∧ s₂.Stopped false ∧
    Lts.Run (Pool.Step true fun _ _ => none) s₂ otherStops s₃ ∧
    s₃.Step true (fun _ _ => none) (.testQueue true) s₄ ∧ s₄.Stopped true ∧ s₄.sched.queue = s₃.sched.queue := by
  have hr : ∃ s₁ s₂ s₃ s₄ : Pool Bool Unit,
      stopAfterTimer.foldlM (Pool.next · true fun _ _ => none) (Pool.init (fun _ _ => none) 5) = some s₁ ∧
      s₁.next true (fun _ _ => none) (.testQueue false) = some s₂ ∧
      otherStops.foldlM (Pool.next · true fun _ _ => none) s₂ = some s₃ ∧
      s₃.next true (fun _ _ => none) (.testQueue true) = some s₄ ∧ s₂.Stopped false ∧ s₄.Stopped true ∧
      s₁.timers.timers = [] ∧ s₁.pending = 0 ∧ s₁.idle false = .testQueue ∧ s₁.idle true = .waiting ∧
      s₁.sched.pc false = .idling ∧ s₁.sched.pc true = .blocked :=
    ⟨_, _, _, _, rfl, rfl, rfl, rfl, rfl, rfl, rfl, rfl, rfl, rfl, rfl, rfl⟩
  obtain ⟨s₁, s₂, s₃, s₄, h₁, ht, h₃, ha, hx, hx', htimers, hpending, hidle, hidle', hpc, hpc'⟩ := hr
  have hrun : Lts.Run (Pool.Step true fun _ _ => none) (Pool.init (fun _ _ => none) 5) stopAfterTimer s₁ :=
    .of_foldlM (fun _ _ _ h => h) h₁
  have hrest : Lts.Run (Pool.Step true fun _ _ => none) s₂ otherStops s₃ := .of_foldlM (fun _ _ _ h => h) h₃
  have hk : s₁.HandedOver := by
    refine ⟨htimers, hpending, ?_, ?_⟩
    · rintro (_ | _) cbs hu
      · rw [hidle] at hu
        cases hu
      · rw [hidle'] at hu
        cases hu
    · rintro (_ | _) f cb
      · rw [hpc]
        exact ⟨nofun, nofun⟩
      · rw [hpc']
        exact ⟨nofun, nofun⟩
  exact ⟨s₁, s₂, s₃, s₄, hrun, ht, hx, hrest, ha, hx', (stop_stable hrun ht hx hk hrest ha (by decide)).1⟩

end ServerFrame.Schedulers
