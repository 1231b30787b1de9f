/-
The runs of fibers are runs of coroutines. No call that a scheduler or the function of a fiber makes fails, `t_fiber`
is the fiber on whose stack the thread is, and every function goes on exactly where it stopped.
-/
import ServerFrame.Fiber.Switch

namespace ServerFrame.Fibers

open Schedulers (FiberState)

universe u

variable {T : Type u}

/-! ## What a call does to the stacks -/

namespace Machine

variable (s : Machine T)

/-- `swapIn` and `call` enter the function of a fiber, `swapOut` and `back` leave one. -/
def move : Op → Coroutines.Move (Routine T)
  | .swapIn f | .call f => (s.fibers f).elim .stay fun x => .enter x.ctx.routine
  | .swapOut | .back => .leave
  | _ => .stay

/-- A call, and where it is made. -/
def event (t : T) (op : Op) : Coroutines.Event T (Routine T) :=
  ⟨t, s.move op, (s.threads t).place.routine, (s.threads t).place.pos⟩

end Machine

/-- Threads that have called nothing, each in a function of its own. -/
def start (T : Type u) : Coroutines T (Routine T) := ⟨fun t => [.thread t], fun _ => 0⟩

section Calls

variable {s : Machine T} {c : Coroutines T (Routine T)} {t : T} {op : Op} {f : Nat} {x : Fiber T} {r : Routine T}
  {rest : List (Routine T)}

theorem ended_eq (h : Control s c) (t : T) : (s.threads t).place.ended = false := by
  obtain ⟨r, rest, -, hplace⟩ := h.place t
  rw [hplace]

/-- No scheduler runs on the main fiber of another thread. -/
theorem scheduler_ne_main (h : Control s c) {u : T} {m : Nat} (hm : (s.threads t).threadFiber = some m) (hu : u ≠ t) :
    (s.threads u).schedulerFiber ≠ some m := by
  intro hsched
  obtain ⟨x, hx, hstack, -, hr⟩ := h.pointers.main hm
  obtain hmain | ⟨y, hy, hys⟩ := h.pointers.scheduler hsched
  · obtain ⟨y, hy, -, -, hr'⟩ := h.pointers.main hmain
    rw [hx] at hy
    cases hy
    rw [hr] at hr'
    cases hr'
    exact hu rfl
  · rw [hx] at hy
    cases hy
    rw [hstack] at hys
    cases hys

/-- A fiber on no stack, and its routine. -/
theorem loose_spec (h : Control s c) (hloose : s.Loose f x) (hstate : x.state ≠ .exec) :
    (∀ y, s.fibers f = some y → y.stack = true ∧ ∀ u, y.ctx.routine ∉ c.stack u) ∧
      (∃ k, x.ctx.routine = .fiber f k ∧ Later s f (k + 1)) ∧ Idle c x := by
  have hfree := h.free_of_loose hloose hstate
  obtain ⟨k, hk⟩ := h.home hloose.fiber hloose.stack
  refine ⟨fun y hy => ?_, ⟨k, hk, fun y hy => ⟨k, Nat.lt_succ_self k, ?_⟩⟩, h.idle hloose.fiber hfree⟩ <;>
    rw [hloose.fiber] at hy <;> cases hy
  · exact ⟨hloose.stack, hfree⟩
  · exact hk

/-- A fiber in state `INIT` is on no stack. -/
theorem free_of_init (h : Control s c) (hx : s.fibers f = some x) (hxs : x.stack = true) (hstate : x.state = .init)
    (u : T) : x.ctx.routine ∉ c.stack u := by
  intro hmem
  obtain ⟨k, hk⟩ := h.home hx hxs
  rw [hk] at hmem
  obtain ⟨y, hy, -, -, hexec | ⟨v, hphase, hv⟩⟩ := h.object_of_mem hmem
  · rw [hx] at hy
    cases hy
    rw [hstate] at hexec
    cases hexec
  · obtain ⟨z, -, hz, -, -, hst, -⟩ := h.current hv
    rw [hx] at hz
    cases hz
    rw [hstate] at hst
    generalize (s.threads v).phase = ph at hphase hst
    cases ph with
    | running => exact hphase rfl
    | yielding => rcases hst with hst | hst <;> cases hst
    | ending => rcases hst with hst | hst <;> cases hst

variable [DecidableEq T]

/-- The call goes well, and is a step of the coroutines. -/
def Steps (s : Machine T) (c : Coroutines T (Routine T)) (t : T) (op : Op) : Prop :=
  ∃ s' c', s.step t op = .ok s' ∧ Coroutines.Step c (s.event t op) c' ∧ Control s' c'

/-- A call in the routine on top of the stack. -/
theorem step_stay (h : Control s c) (hstack : c.stack t = r :: rest) (hmove : s.move op = .stay) :
    Coroutines.Step c (s.event t op) (c.set t r (r :: rest)) := by
  rw [Machine.event, hmove, h.place_eq hstack]
  exact .stay hstack

theorem steps_getThis {a : Nat} (h : Control s c) (hfresh : s.fibers a = none) : Steps s c t (.getThis a) := by
  obtain ⟨r, rest, hstack, hplace⟩ := h.place t
  have hstep : s.step t (.getThis a) = .ok ((s.getThis t a).advance t) := by
    rw [Machine.step, ended_eq h]
    rfl
  cases hfiber : (s.threads t).fiber with
  | none =>
    have hmain : (s.threads t).threadFiber = none := by
      have hon := h.thread t
      generalize c.stack t = l at hon
      cases hon with
      | native running fiber => exact fiber.symm.trans hfiber
      | fiber fiber => rw [hfiber] at fiber; cases fiber
    obtain ⟨hnative, -⟩ := h.native (hfiber.trans hmain.symm)
    exact ⟨_, _, hstep, step_stay h hnative rfl, h.getThis hfiber hfresh⟩
  | some m =>
    have hget : s.getThis t a = s := by rw [Machine.getThis, hfiber]; rfl
    rw [hget] at hstep
    exact ⟨_, _, hstep, step_stay h hstack rfl, h.work hstack⟩

theorem steps_create (h : Control s c) (hfresh : s.fibers f = none) : Steps s c t (.create f) := by
  obtain ⟨r, rest, hstack, hplace⟩ := h.place t
  have hnone : ∀ y, s.fibers f = some y → False := fun y hy => by rw [hfresh] at hy; cases hy
  have hlater : ∀ l, Later s f l := fun l y hy => (hnone y hy).elim
  refine ⟨(s.setFiber f ⟨.init, ⟨.fiber f 0, 0, false⟩, true⟩).advance t, _, ?_, step_stay h hstack rfl,
    h.change hstack (fun y hy => (hnone y hy).elim) rfl rfl (hlater 1)
      ⟨by simp, (h.later (hlater 0)).symm, by simp⟩⟩
  rw [Machine.step, ended_eq h]
  rfl

theorem steps_adopt (h : Control s c) (hsome : (s.threads t).fiber.isSome = true)
    (hmain : (s.threads t).fiber = (s.threads t).threadFiber) : Steps s c t .adopt := by
  obtain ⟨m, hm⟩ := Option.isSome_iff_exists.1 hsome
  have hm' := hmain.symm.trans hm
  have hpointers := h.pointers.adopt (t := t) (by rw [← hmain]; exact hsome) (.inl hm')
    fun u hu => scheduler_ne_main h hm' hu
  refine ⟨_, _, ?_, step_stay h (h.native hmain).1 rfl, h.adopt hmain hpointers⟩
  rw [Machine.step, ended_eq h, hm]
  rfl

theorem steps_adoptRoot (h : Control s c) (hsome : (s.threads t).fiber.isSome = true)
    (hmain : (s.threads t).fiber = (s.threads t).threadFiber) (hloose : s.Loose f x) : Steps s c t (.adoptRoot f) := by
  have hpointers := h.pointers.adopt (t := t) (by rw [← hmain]; exact hsome) (.inr ⟨x, hloose.fiber, hloose.stack⟩)
    fun u _ hu => hloose.scheduling ⟨u, hu⟩
  refine ⟨_, _, ?_, step_stay h (h.native hmain).1 rfl, h.adopt hmain hpointers⟩
  rw [Machine.step, ended_eq h]
  rfl

theorem steps_reset (h : Control s c) (hloose : s.Loose f x) (hstate : resettable x.state = true) :
    Steps s c t (.reset f) := by
  obtain ⟨r, rest, hstack, -⟩ := h.place t
  have hne : x.state ≠ .exec := by
    intro hexec
    rw [hexec] at hstate
    cases hstate
  obtain ⟨hfree, ⟨k, hk, hlater⟩, -⟩ := loose_spec h hloose hne
  have hlater' : Later s f (k + 1 + 1) := fun y hy =>
    let ⟨l, hl, hr⟩ := hlater y hy
    ⟨l, Nat.lt_succ_of_lt hl, hr⟩
  refine ⟨_, _, ?_, step_stay h hstack rfl, h.change (x := { x with
    state := .init, ctx := ⟨x.ctx.routine.again, 0, false⟩ }) hstack hfree hloose.stack (by rw [hk]; rfl) hlater'
    ⟨by simp, ?_, by simp⟩⟩
  · rw [Machine.step, ended_eq h, Machine.reset, hloose.fiber]
    simp [hloose.stack, hstate, Except.map]
  · rw [hk]
    exact (h.later hlater).symm

theorem steps_hold (h : Control s c) (hloose : s.Loose f x) (hstate : x.state = .ready ∨ x.state = .hold) :
    Steps s c t (.hold f) := by
  obtain ⟨r, rest, hstack, -⟩ := h.place t
  have hne : x.state ≠ .exec := by rcases hstate with hst | hst <;> rw [hst] <;> decide
  obtain ⟨hfree, ⟨k, hk, hlater⟩, ⟨-, hpos, hover⟩⟩ := loose_spec h hloose hne
  have hlive : x.ctx.ended ≠ true := by
    rw [Ne, hover]
    rcases hstate with hst | hst <;> rw [hst] <;> decide
  refine ⟨_, _, ?_, step_stay h hstack rfl, h.change (x := { x with state := .hold }) hstack hfree hloose.stack hk
    hlater ⟨by simp, hpos, by simpa using hlive⟩⟩
  rw [Machine.step, ended_eq h, Machine.setState, hloose.fiber]
  rfl

/-- A call that enters the function of a fiber. -/
theorem step_enter {m : Nat} (h : Control s c) (hm : (s.threads t).fiber = some m)
    (hrun : (s.threads t).phase = .running) (hx : s.fibers f = some x) (hxs : x.stack = true)
    (hfree : ∀ u, x.ctx.routine ∉ c.stack u) (hst : x.state ≠ .term ∧ x.state ≠ .except)
    (hback : (s.threads t).back f = some m) (hmove : s.move op = .enter x.ctx.routine)
    (hstep : s.step t op = ((s.setFiber f { x with state := .exec }).setThread t
      { s.threads t with fiber := some f }).swapcontext t (some m) (some f)) : Steps s c t op := by
  obtain ⟨y, rest, hy, hstack, hplace, -⟩ := h.current hm
  have hne : m ≠ f := by
    rintro rfl
    rw [hx] at hy
    cases hy
    exact hfree t (hstack ▸ List.mem_cons_self)
  refine ⟨_, _, hstep.trans (Machine.swapcontext_enter hy hne), ?_,
    h.enter hm hrun hy hstack hx hxs hfree hst hback⟩
  rw [Machine.event, hmove, hplace]
  exact .enter hstack hfree

theorem steps_swapIn (h : Control s c) (hscheduler : s.InScheduler t) (hloose : s.Loose f x)
    (hstate : x.state = .init ∨ x.state = .ready ∨ x.state = .hold) : Steps s c t (.swapIn f) := by
  obtain ⟨hrun, hfiber, hsome⟩ := hscheduler
  obtain ⟨m, hm⟩ := Option.isSome_iff_exists.1 hsome
  have hst : x.state ≠ .exec ∧ x.state ≠ .term ∧ x.state ≠ .except := by
    rcases hstate with hst | hst | hst <;> rw [hst] <;> decide
  have hback : (s.threads t).back f = some m := by
    rw [Thread.back, if_neg fun hf => hloose.scheduling ⟨t, hf⟩, hm]
  refine step_enter h (hfiber.trans hm) hrun hloose.fiber hloose.stack (h.free_of_loose hloose hst.1) hst.2 hback ?_ ?_
  · rw [Machine.move, hloose.fiber]
    rfl
  · rw [Machine.step, ended_eq h]
    simp only [Bool.false_eq_true, ↓reduceIte, Machine.swapIn, hloose.fiber, hst.1, hm]

theorem steps_call (h : Control s c) (hrun : (s.threads t).phase = .running)
    (hmain : (s.threads t).fiber = (s.threads t).threadFiber) (hroot : (s.threads t).schedulerFiber = some f)
    (hx : s.fibers f = some x) (hstate : x.state = .init) : Steps s c t (.call f) := by
  cases hm : (s.threads t).threadFiber with
  | none =>
    rw [h.pointers.unscheduled hm] at hroot
    cases hroot
  | some m =>
    have hxs : x.stack = true := by
      obtain hf | ⟨y, hy, hys⟩ := h.pointers.scheduler hroot
      · obtain ⟨y, hy, -, hexec, -⟩ := h.pointers.main hf
        rw [hx] at hy
        cases hy
        rw [hstate] at hexec
        cases hexec
      · rw [hx] at hy
        cases hy
        exact hys
    have hback : (s.threads t).back f = some m := by rw [Thread.back, if_pos hroot, hm]
    refine step_enter h (hmain.trans hm) hrun hx hxs (free_of_init h hx hxs hstate) (by rw [hstate]; decide) hback ?_ ?_
    · rw [Machine.move, hx]
      rfl
    · rw [Machine.step, ended_eq h]
      simp only [Bool.false_eq_true, ↓reduceIte, Machine.call, hx, hm]

theorem steps_mark {st : FiberState} {ph : Phase} (h : Control s c)
    (htask : (s.threads t).fiber ≠ (s.threads t).threadFiber) (hst : StateIn ph st)
    (hstep : s.step t op = (s.setState (s.threads t).fiber st).map fun s =>
      (s.setThread t { s.threads t with phase := ph }).advance t) (hmove : s.move op = .stay) : Steps s c t op := by
  cases hf : (s.threads t).fiber with
  | none =>
    have hon := h.thread t
    generalize c.stack t = l at hon
    cases hon with
    | native running fiber => exact absurd fiber htask
    | fiber fiber =>
      rw [hf] at fiber
      cases fiber
  | some f =>
    obtain ⟨x, rest, hx, hstack, -⟩ := h.current hf
    refine ⟨_, _, ?_, step_stay h hstack hmove,
      h.mark hstack hf (fun hmain => htask (hf.trans hmain.symm)) hst hx⟩
    rw [hstep, hf, Machine.setState, hx]
    rfl

/-- A call that leaves the function of a fiber. -/
theorem step_leave (h : Control s c) (hphase : (s.threads t).phase ≠ .running) {o : Option Nat}
    (hback : ∀ f, (s.threads t).fiber = some f → (s.threads t).back f = o) (hmove : s.move op = .leave)
    (hstep : s.step t op = (s.setThread t { s.threads t with fiber := o }).swapcontext t (s.threads t).fiber o) :
    Steps s c t op := by
  have hon := h.thread t
  generalize c.stack t = l at hon
  cases hon with
  | native running => exact absurd running hphase
  | @fiber f k x rest hf hx xstack hk state under =>
    cases under with
    | main main => exact absurd main (h.main_ne hx xstack t)
    | @ended _ m r rest main back waits under =>
      obtain rfl := (hback f hf).symm.trans back
      obtain ⟨y, tail, hy, hne, hstack, hleave⟩ := h.leave hf hphase hx back
      refine ⟨_, _, ?_, ?_, hleave⟩
      · rw [hstep, hf]
        exact Machine.swapcontext_leave hx hy hne
      · rw [Machine.event, hmove, h.place_eq hstack]
        exact .leave hstack

theorem steps_swapOut (h : Control s c) (hphase : (s.threads t).phase ≠ .running)
    (htask : (s.threads t).fiber ≠ (s.threads t).schedulerFiber) : Steps s c t .swapOut := by
  refine step_leave (o := (s.threads t).schedulerFiber) h hphase (fun f hf => ?_) rfl ?_
  · rw [Thread.back, if_neg fun hroot => htask (hf.trans hroot.symm)]
  · rw [Machine.step, ended_eq h]
    rfl

theorem steps_back (h : Control s c) (hphase : (s.threads t).phase ≠ .running)
    (hroot : (s.threads t).fiber = (s.threads t).schedulerFiber) : Steps s c t .back := by
  refine step_leave (o := (s.threads t).threadFiber) h hphase (fun f hf => ?_) rfl ?_
  · rw [Thread.back, if_pos (hroot.symm.trans hf)]
  · rw [Machine.step, ended_eq h]
    rfl

/-- Whatever is called, and on whichever thread. -/
theorem step_spec (h : Control s c) (ha : s.Allowed t op) : Steps s c t op := by
  cases ha with
  | work =>
    obtain ⟨r, rest, hstack, -⟩ := h.place t
    exact ⟨_, _, by rw [Machine.step, ended_eq h]; rfl, step_stay h hstack rfl, h.work hstack⟩
  | getThis running fresh => exact steps_getThis h fresh
  | create running fresh => exact steps_create h fresh
  | adopt running isSome main none => exact steps_adopt h isSome main
  | adoptRoot running isSome main none loose => exact steps_adoptRoot h isSome main loose
  | reset scheduler loose state => exact steps_reset h loose state
  | hold scheduler loose state => exact steps_hold h loose state
  | swapIn scheduler loose state => exact steps_swapIn h scheduler loose state
  | call running main root fiber init => exact steps_call h running main root fiber init
  | yield running task state =>
    refine steps_mark h task.1 (show StateIn .yielding _ from state) ?_ rfl
    rw [Machine.step, ended_eq h]
    rfl
  | finish running task state =>
    refine steps_mark h task (show StateIn .ending _ from state) ?_ rfl
    rw [Machine.step, ended_eq h]
    rfl
  | swapOut phase task => exact steps_swapOut h phase task
  | back phase root => exact steps_back h phase root

end Calls

/-! ## Runs -/

theorem control_init : Control (Machine.init : Machine T) (start T) where
  apart := ⟨fun _ => List.nodup_cons.2 ⟨List.not_mem_nil, List.nodup_nil⟩, fun {t u r} ht hu => by
    rw [start, List.mem_singleton] at ht hu
    rw [ht] at hu
    cases hu
    rfl⟩
  thread t := .native rfl rfl
  place t := ⟨.thread t, [], rfl, rfl⟩
  pointers := ⟨nofun, nofun, nofun, nofun, fun _ => rfl⟩
  home := nofun
  idle := nofun
  later _ := rfl

section Runs

variable [DecidableEq T] {s s' : Machine T} {t u : T} {f : Nat} {l : List (Op × Coroutines.Event T (Routine T))}

/-- A call that is allowed, and the event that it is. -/
structure Calls (s : Machine T) (e : Op × Coroutines.Event T (Routine T)) (s' : Machine T) : Prop where
  allowed : s.Allowed e.2.thread e.1
  step : s.step e.2.thread e.1 = .ok s'
  event : e.2 = s.event e.2.thread e.1

/-- Every run is, call by call, a run of the coroutines. -/
theorem control_of_run (hr : Lts.Run Calls Machine.init l s) :
    ∃ c, Lts.Run Coroutines.Step (start T) (l.map Prod.snd) c ∧ Control s c := by
  induction hr with
  | nil => exact ⟨_, .nil, control_init⟩
  | @snoc l s₁ s₂ e hr hs ih =>
    obtain ⟨c, hc, hcontrol⟩ := ih
    obtain ⟨s', c', hstep, hevent, hcontrol'⟩ := step_spec hcontrol hs.allowed
    rw [hs.step] at hstep
    cases hstep
    rw [← hs.event] at hevent
    refine ⟨c', ?_, hcontrol'⟩
    rw [List.map_append]
    exact hc.snoc hevent

/-- A call of a run. -/
theorem run_call (hr : Lts.Run Calls Machine.init l s) (t : T) (op : Op) (ha : s.Allowed t op)
    (hs : s.step t op = .ok s') : Lts.Run Calls Machine.init (l ++ [(op, s.event t op)]) s' := hr.snoc ⟨ha, hs, rfl⟩

/-- A thread with a scheduler, which makes a fiber and resumes it, and the fiber yields. -/
theorem run_turn : ∃ l s, Lts.Run Calls (Machine.init : Machine Unit) l s ∧
    l.map (fun e => (e.1, e.2.routine, e.2.pos)) =
      [(.getThis 0, .thread (), 0), (.adopt, .thread (), 1), (.create 1, .thread (), 2), (.swapIn 1, .thread (), 3),
        (.yield .hold, .fiber 1 0, 0), (.swapOut, .fiber 1 0, 1), (.work, .thread (), 4)] := by
  have h1 := run_call .nil () (.getThis 0) (.getThis rfl rfl) rfl
  have h2 := run_call h1 () .adopt (.adopt rfl rfl rfl rfl) rfl
  have h3 := run_call h2 () (.create 1) (.create rfl rfl) rfl
  have h4 := run_call h3 () (.swapIn 1) (.swapIn ⟨rfl, rfl, rfl⟩ ⟨rfl, rfl, fun ⟨_, hphase, _⟩ => hphase rfl,
    fun ⟨_, hsched⟩ => nomatch hsched⟩ (.inl rfl)) rfl
  have h5 := run_call h4 () (.yield .hold) (.yield rfl ⟨by decide, by decide⟩ (.inr rfl)) rfl
  have h6 := run_call h5 () .swapOut (.swapOut (by decide) (by decide)) rfl
  exact ⟨_, _, run_call h6 () .work (.work rfl) rfl, rfl⟩

/-- Fibers are coroutines: whatever the schedulers and the functions of the fibers call, on any number of threads, each
call is a call, a return or a step of the function on top of its thread's stack; `t_fiber` is the fiber of that
function, no other thread is on it, and no call fails. -/
theorem fibers_are_coroutines (hr : Lts.Run Calls Machine.init l s) :
    ∃ c, Lts.Run Coroutines.Step (start T) (l.map Prod.snd) c ∧
      (∀ t, ∃ rest, c.stack t = (s.threads t).place.routine :: rest ∧
        (s.threads t).place.pos = c.count (s.threads t).place.routine) ∧
      (∀ t f, (s.threads t).fiber = some f → (∃ x, s.fibers f = some x ∧
        x.ctx.routine = (s.threads t).place.routine) ∧ ∀ u, (s.threads u).fiber = some f → u = t) ∧
      ∀ t op, s.Allowed t op → ∃ s', s.step t op = .ok s' := by
  obtain ⟨c, hc, h⟩ := control_of_run hr
  refine ⟨c, hc, fun t => ?_, fun t f hf => ?_, fun t op ha => ?_⟩
  · obtain ⟨r, rest, hstack, hplace⟩ := h.place t
    rw [hplace]
    exact ⟨rest, hstack, rfl⟩
  · obtain ⟨x, rest, hx, hstack, hplace, -⟩ := h.current hf
    refine ⟨⟨x, hx, by rw [hplace]⟩, fun u hu => ?_⟩
    obtain ⟨y, tail, hy, hstack', -⟩ := h.current hu
    rw [hx] at hy
    cases hy
    exact h.apart.thread (hstack' ▸ List.mem_cons_self) (hstack ▸ List.mem_cons_self)
  · obtain ⟨s', -, hstep, -⟩ := step_spec h ha
    exact ⟨s', hstep⟩

theorem fibers_are_coroutines_turn : ∃ l s c, Lts.Run Calls (Machine.init : Machine Unit) l s ∧ l.length = 7 ∧
    Lts.Run Coroutines.Step (start Unit) (l.map Prod.snd) c := by
  obtain ⟨l, s, hr, hl⟩ := run_turn
  obtain ⟨c, hc, -⟩ := fibers_are_coroutines hr
  exact ⟨l, s, c, hr, by simpa using congrArg List.length hl, hc⟩

/-- No step of a function is lost or made twice, however often it yields and on however many threads it goes on. -/
theorem functions_are_executed_once (hr : Lts.Run Calls Machine.init l s) (r : Routine T) :
    Coroutines.positions r (l.map Prod.snd) = List.range (Coroutines.positions r (l.map Prod.snd)).length := by
  obtain ⟨c, hc, -⟩ := control_of_run hr
  have hrange := (Coroutines.positions_eq hc r).2
  rw [start] at hrange
  rw [List.range_eq_range']
  exact hrange

/-- A fiber yields on one thread and is resumed on another. -/
theorem functions_are_executed_once_resumed : ∃ l s, Lts.Run Calls (Machine.init : Machine Bool) l s ∧
    l.map (fun e => (e.1, e.2.routine)) =
      [(.getThis 0, .thread false), (.adopt, .thread false), (.create 1, .thread false), (.swapIn 1, .thread false),
        (.yield .hold, .fiber 1 0), (.swapOut, .fiber 1 0), (.getThis 2, .thread true), (.adopt, .thread true),
        (.swapIn 1, .thread true), (.work, .fiber 1 0)] ∧
    Coroutines.positions (.fiber 1 0) (l.map Prod.snd) = [0, 1, 2] := by
  have h1 := run_call .nil false (.getThis 0) (.getThis rfl rfl) rfl
  have h2 := run_call h1 false .adopt (.adopt rfl rfl rfl rfl) rfl
  have h3 := run_call h2 false (.create 1) (.create rfl rfl) rfl
  have h4 := run_call h3 false (.swapIn 1) (.swapIn ⟨rfl, rfl, rfl⟩ ⟨rfl, rfl, by
    rintro ⟨_ | _, hphase, _⟩ <;> exact hphase rfl, by rintro ⟨_ | _, h⟩ <;> cases h⟩ (.inl rfl)) rfl
  have h5 := run_call h4 false (.yield .hold) (.yield rfl ⟨by decide, by decide⟩ (.inr rfl)) rfl
  have h6 := run_call h5 false .swapOut (.swapOut (by decide) (by decide)) rfl
  have h7 := run_call h6 true (.getThis 2) (.getThis rfl rfl) rfl
  have h8 := run_call h7 true .adopt (.adopt rfl rfl rfl rfl) rfl
  have h9 := run_call h8 true (.swapIn 1) (.swapIn ⟨rfl, rfl, rfl⟩ ⟨rfl, rfl, by
    rintro ⟨_ | _, hphase, _⟩ <;> exact hphase rfl, by rintro ⟨_ | _, h⟩ <;> cases h⟩ (.inr (.inr rfl))) rfl
  have h10 := run_call h9 true .work (.work rfl) rfl
  exact ⟨_, _, h10, rfl, functions_are_executed_once h10 (.fiber 1 0)⟩

end Runs

end ServerFrame.Fibers
