/-
What `swapcontext` does is a call or a return: the threads of `Fiber` refine coroutines. A fiber that yields goes back
to who resumed it, and goes on where it stopped, on whichever thread that is.
-/
import ServerFrame.Fiber.Basic
import ServerFrame.Lib.Coroutines

namespace ServerFrame.Fibers

open Schedulers (FiberState)

universe u

variable {T : Type u}

/-! ## Updates -/

namespace Machine

section Updates

variable (s : Machine T) {f : Nat} (x : Fiber T)

theorem fibers_setFiber_self : (s.setFiber f x).fibers f = some x := Function.update_self ..

theorem fibers_setFiber_of_ne {g : Nat} (h : g ≠ f) : (s.setFiber f x).fibers g = s.fibers g :=
  Function.update_of_ne h ..

variable [DecidableEq T] (t : T) (th : Thread T)

theorem fibers_setThread : (s.setThread t th).fibers = s.fibers := rfl

theorem fibers_advance : (s.advance t).fibers = s.fibers := rfl

theorem threads_setThread_self : (s.setThread t th).threads t = th := Function.update_self ..

theorem threads_setThread_of_ne {u : T} (h : u ≠ t) : (s.setThread t th).threads u = s.threads u :=
  Function.update_of_ne h ..

theorem threads_advance_of_ne {u : T} (h : u ≠ t) : (s.advance t).threads u = s.threads u :=
  threads_setThread_of_ne s t _ h

theorem place_advance {r : Routine T} {n : Nat} {ended : Bool} (h : (s.threads t).place = ⟨r, n, ended⟩) :
    ((s.advance t).threads t).place = ⟨r, n + 1, ended⟩ := by
  rw [advance, threads_setThread_self, h]

/-- The machine after the fiber `m`, on which the thread is, has gone over to `f`. -/
def enter (m : Nat) (y : Fiber T) (f : Nat) (x : Fiber T) : Machine T :=
  ((s.setFiber f { x with state := .exec }).setFiber m { y with ctx := s.here t }).setThread t
    { s.threads t with fiber := some f, place := x.ctx, phase := .running }

/-- The machine after the fiber `f`, on which the thread is, has gone back to `m`. -/
def leave (f : Nat) (x : Fiber T) (m : Nat) (y : Fiber T) : Machine T :=
  (s.setFiber f { x with ctx := s.here t }).setThread t
    { s.threads t with fiber := some m, place := y.ctx, phase := .running }

variable {s t x} {m : Nat} {y : Fiber T}

theorem swapcontext_enter (hy : s.fibers m = some y) (hne : m ≠ f) :
    ((s.setFiber f { x with state := .exec }).setThread t { s.threads t with fiber := some f }).swapcontext t
      (some m) (some f) = .ok (s.enter t m y f x) := by
  simp [swapcontext, enter, setThread, setFiber, here, hy, hne, hne.symm]

theorem swapcontext_leave (hx : s.fibers f = some x) (hy : s.fibers m = some y) (hne : m ≠ f) :
    (s.setThread t { s.threads t with fiber := some m }).swapcontext t (some f) (some m) =
      .ok (s.leave t f x m y) := by
  simp [swapcontext, leave, setThread, setFiber, here, hx, hy, hne]

end Updates

end Machine

/-! ## Coroutines -/

section Refines

variable (s : Machine T) (c : Coroutines T (Routine T)) (t : T)

/-- The fiber is suspended in the routine, which is that of its context, and has been resumed. -/
def Waits (o : Nat) (r : Routine T) : Prop :=
  ∃ x, s.fibers o = some x ∧ x.state = .exec ∧ x.ctx = ⟨r, c.count r, false⟩

/-- The state of the fiber on which a thread is. -/
def StateIn : Phase → FiberState → Prop
  | .running, st => st = .exec
  | .yielding, st => st = .ready ∨ st = .hold
  | .ending, st => st = .term ∨ st = .except

/-- The fiber to which another one goes back. -/
def Thread.back (th : Thread T) (o : Nat) : Option Nat :=
  if th.schedulerFiber = some o then th.threadFiber else th.schedulerFiber

/-- The routines that wait under the fiber, each for the one above it. -/
inductive Under : Nat → List (Routine T) → Prop
  | main {m : Nat} (main : (s.threads t).threadFiber = some m) : Under m []
  | ended {o o' : Nat} {r : Routine T} {rest : List (Routine T)} (main : (s.threads t).threadFiber ≠ some o)
      (back : (s.threads t).back o = some o') (waits : Waits s c o' r) (under : Under o' rest) : Under o (r :: rest)

/-- The thread is on its own stack, or on a fiber. -/
inductive OnThread : List (Routine T) → Prop
  | native (running : (s.threads t).phase = .running) (fiber : (s.threads t).fiber = (s.threads t).threadFiber) :
      OnThread [.thread t]
  | fiber {f l : Nat} {x : Fiber T} {rest : List (Routine T)} (fiber : (s.threads t).fiber = some f)
      (object : s.fibers f = some x) (stack : x.stack = true) (routine : x.ctx.routine = .fiber f l)
      (state : StateIn (s.threads t).phase x.state) (under : Under s c t f rest) : OnThread (.fiber f l :: rest)

/-- The main fibers and the scheduler's fibers of the threads. -/
structure Pointers : Prop where
  main : ∀ {t m}, (s.threads t).threadFiber = some m →
    ∃ x, s.fibers m = some x ∧ x.stack = false ∧ x.state = .exec ∧ x.ctx.routine = .thread t
  stackless : ∀ {m x}, s.fibers m = some x → x.stack = false → ∃ t, (s.threads t).threadFiber = some m
  scheduler : ∀ {t r}, (s.threads t).schedulerFiber = some r →
    (s.threads t).threadFiber = some r ∨ ∃ x, s.fibers r = some x ∧ x.stack = true
  owner : ∀ {t u r}, (s.threads t).schedulerFiber = some r → (s.threads u).schedulerFiber = some r → t = u
  unscheduled : ∀ {t}, (s.threads t).threadFiber = none → (s.threads t).schedulerFiber = none

/-- A fiber that no thread executes or waits for goes on after the last step of its routine. -/
structure Idle (x : Fiber T) : Prop where
  state : x.state ≠ .exec
  pos : x.ctx.pos = c.count x.ctx.routine
  ended : x.ctx.ended = true ↔ x.state = .term ∨ x.state = .except

/-- The routine is none that the fiber has had so far. -/
def Later (f l : Nat) : Prop := ∀ x, s.fibers f = some x → ∃ l' < l, x.ctx.routine = .fiber f l'

/-- The machine controls the coroutines. -/
structure Control : Prop where
  apart : c.Apart
  thread : ∀ t, OnThread s c t (c.stack t)
  place : ∀ t, ∃ r rest, c.stack t = r :: rest ∧ (s.threads t).place = ⟨r, c.count r, false⟩
  pointers : Pointers s
  home : ∀ {f x}, s.fibers f = some x → x.stack = true → ∃ l, x.ctx.routine = .fiber f l
  idle : ∀ {f x}, s.fibers f = some x → (∀ t, x.ctx.routine ∉ c.stack t) → Idle c x
  later : ∀ {f l}, Later s f l → c.count (.fiber f l) = 0

end Refines

section Lemmas

variable {s s' : Machine T} {c c' : Coroutines T (Routine T)} {t u : T} {f m o : Nat} {x y : Fiber T}
  {r : Routine T} {rest : List (Routine T)}

theorem Under.congr (h : Under s c u o rest) (hmain : (s'.threads u).threadFiber = (s.threads u).threadFiber)
    (hsched : (s'.threads u).schedulerFiber = (s.threads u).schedulerFiber)
    (hcount : ∀ r ∈ rest, c'.count r = c.count r)
    (hfib : ∀ f x, s.fibers f = some x → x.ctx.routine ∈ rest → s'.fibers f = some x) : Under s' c' u o rest := by
  induction h with
  | main main => exact .main (hmain.trans main)
  | @ended o o' r rest main back waits under ih =>
    rw [List.forall_mem_cons] at hcount
    refine .ended (hmain ▸ main) (by rw [Thread.back, hmain, hsched]; exact back) ?_
      (ih hcount.2 fun f x hx hr => hfib f x hx (List.mem_cons_of_mem _ hr))
    obtain ⟨x, hx, hstate, hctx⟩ := waits
    exact ⟨x, hfib o' x hx (by rw [hctx]; exact List.mem_cons_self), hstate, by rw [hctx, hcount.1]⟩

theorem OnThread.congr {l : List (Routine T)} (h : OnThread s c u l)
    (hthread : s'.threads u = { s.threads u with place := (s'.threads u).place })
    (hcount : ∀ r ∈ l.tail, c'.count r = c.count r)
    (hfib : ∀ f x, s.fibers f = some x → x.ctx.routine ∈ l → s'.fibers f = some x) : OnThread s' c' u l := by
  cases h with
  | native running fiber => exact .native (by rw [hthread]; exact running) (by rw [hthread]; exact fiber)
  | @fiber f l x rest fiber object stack routine state under =>
    refine .fiber (by rw [hthread]; exact fiber) (hfib f x object (routine ▸ List.mem_cons_self)) stack routine
      (by rw [hthread]; exact state) ?_
    exact under.congr (by rw [hthread]) (by rw [hthread]) hcount
      fun f x hx hr => hfib f x hx (List.mem_cons_of_mem _ hr)

/-- The thread's own stack is at the bottom. -/
theorem Under.bottom (hp : Pointers s) (h : Under s c t o rest) (ho : (s.threads t).threadFiber ≠ some o) :
    .thread t ∈ rest := by
  induction h with
  | main main => exact absurd main ho
  | @ended o o' r rest main back waits under ih =>
    by_cases ho' : (s.threads t).threadFiber = some o'
    · obtain ⟨x, hx, -, -, hr⟩ := hp.main ho'
      obtain ⟨y, hy, -, hctx⟩ := waits
      rw [hx] at hy
      cases hy
      rw [hctx] at hr
      exact hr ▸ List.mem_cons_self
    · exact List.mem_cons_of_mem _ (ih ho')

namespace Control

/-- A main fiber has no stack. -/
theorem main_ne (h : Control s c) (hx : s.fibers f = some x) (hstack : x.stack = true) (t : T) :
    (s.threads t).threadFiber ≠ some f := by
  intro hmain
  obtain ⟨y, hy, hfalse, -⟩ := h.pointers.main hmain
  rw [hx] at hy
  cases hy
  rw [hstack] at hfalse
  cases hfalse

theorem thread_mem (h : Control s c) (t : T) : .thread t ∈ c.stack t := by
  generalize hl : c.stack t = l
  have hon := hl ▸ h.thread t
  cases hon with
  | native => exact List.mem_singleton_self _
  | fiber fiber object stack routine state under =>
    exact List.mem_cons_of_mem _ (under.bottom h.pointers (h.main_ne object stack t))

theorem thread_of_stackless (h : Control s c) (hx : s.fibers f = some x) (hstack : x.stack = false) :
    ∃ u, (s.threads u).threadFiber = some f ∧ x.ctx.routine = .thread u := by
  obtain ⟨u, hu⟩ := h.pointers.stackless hx hstack
  obtain ⟨y, hy, -, -, hr⟩ := h.pointers.main hu
  rw [hx] at hy
  cases hy
  exact ⟨u, hu, hr⟩

/-- The fiber of a routine. -/
theorem eq_of_routine (h : Control s c) {l : Nat} (hx : s.fibers o = some x) (hr : x.ctx.routine = .fiber f l) :
    o = f := by
  cases hstack : x.stack with
  | true =>
    obtain ⟨k, hk⟩ := h.home hx hstack
    rw [hr] at hk
    cases hk
    rfl
  | false =>
    obtain ⟨u, -, hu⟩ := h.thread_of_stackless hx hstack
    rw [hr] at hu
    cases hu

/-- The object of a routine on a stack: it waits or runs in state `EXEC`, or a thread is leaving it. -/
theorem object_of_mem (h : Control s c) {f l : Nat} (hmem : .fiber f l ∈ c.stack t) : ∃ x, s.fibers f = some x ∧
    x.stack = true ∧ x.ctx.routine = .fiber f l ∧ (x.state = .exec ∨ s.Leaving f) := by
  have key : ∀ {o rest}, Under s c t o rest → .fiber f l ∈ rest →
      ∃ x, s.fibers f = some x ∧ x.stack = true ∧ x.ctx.routine = .fiber f l ∧ (x.state = .exec ∨ s.Leaving f) := by
    intro o rest hunder hrest
    induction hunder with
    | main => cases hrest
    | @ended o o' r rest main back waits under ih =>
      obtain rfl | hrest := List.mem_cons.1 hrest
      · obtain ⟨x, hx, hstate, hctx⟩ := waits
        have hr : x.ctx.routine = .fiber f l := by rw [hctx]
        cases h.eq_of_routine hx hr
        refine ⟨x, hx, ?_, hr, .inl hstate⟩
        by_contra hfalse
        obtain ⟨v, -, hv⟩ := h.thread_of_stackless hx (by simpa using hfalse)
        rw [hr] at hv
        cases hv
      · exact ih hrest
  generalize hl : c.stack t = k at hmem
  have hon := hl ▸ h.thread t
  cases hon with
  | native => cases List.mem_singleton.1 hmem
  | fiber fiber object stack routine state under =>
    obtain heq | hmem := List.mem_cons.1 hmem
    · cases heq
      refine ⟨_, object, stack, routine, ?_⟩
      cases hphase : (s.threads t).phase with
      | running => exact .inl (by rw [hphase] at state; exact state)
      | yielding => exact .inr ⟨t, by rw [hphase]; decide, fiber⟩
      | ending => exact .inr ⟨t, by rw [hphase]; decide, fiber⟩
    · exact key under hmem

/-- A fiber that no thread is leaving, and whose state is not `EXEC`, is on no stack. -/
theorem free_of_loose (h : Control s c) (hloose : s.Loose f x) (hstate : x.state ≠ .exec) (u : T) :
    x.ctx.routine ∉ c.stack u := by
  intro hmem
  obtain ⟨l, hl⟩ := h.home hloose.fiber hloose.stack
  rw [hl] at hmem
  obtain ⟨y, hy, -, -, hexec | hleaving⟩ := h.object_of_mem hmem
  · rw [hloose.fiber] at hy
    cases hy
    exact hstate hexec
  · exact hloose.leaving hleaving

/-- A thread on its own stack. -/
theorem native (h : Control s c) (hfiber : (s.threads t).fiber = (s.threads t).threadFiber) :
    c.stack t = [.thread t] ∧ (s.threads t).phase = .running := by
  generalize hl : c.stack t = l
  have hon := hl ▸ h.thread t
  cases hon with
  | native running => exact ⟨rfl, running⟩
  | fiber fiber object stack => exact absurd (hfiber.symm.trans fiber) (h.main_ne object stack t)

/-- The place of a thread. -/
theorem place_eq (h : Control s c) (hstack : c.stack t = r :: rest) : (s.threads t).place = ⟨r, c.count r, false⟩ := by
  obtain ⟨q, tail, htop, hplace⟩ := h.place t
  rw [hstack] at htop
  cases htop
  exact hplace

/-- Where the thread is, if it has a fiber. -/
theorem current (h : Control s c) (hm : (s.threads t).fiber = some m) : ∃ y rest,
    s.fibers m = some y ∧ c.stack t = y.ctx.routine :: rest ∧
      (s.threads t).place = ⟨y.ctx.routine, c.count y.ctx.routine, false⟩ ∧ StateIn (s.threads t).phase y.state ∧
      Under s c t m rest ∧ (y.stack = false → (s.threads t).threadFiber = some m) := by
  obtain ⟨r, rest, hstack, hplace⟩ := h.place t
  have hon := hstack ▸ h.thread t
  cases hon with
  | native running fiber =>
    rw [hm] at fiber
    obtain ⟨y, hy, -, hstate, hr⟩ := h.pointers.main fiber.symm
    refine ⟨y, [], hy, hr ▸ hstack, hr ▸ hplace, ?_, .main fiber.symm, fun _ => fiber.symm⟩
    rw [running]
    exact hstate
  | fiber fiber object stack routine state under =>
    rw [hm] at fiber
    cases fiber
    exact ⟨_, rest, object, routine ▸ hstack, routine ▸ hplace, state, under, fun hfalse => by simp [stack] at hfalse⟩

variable [DecidableEq T]

/-- A step of the thread, in the routine on top of its stack, that touches only fibers of its own stack and such as are
on no stack. -/
theorem next {l : List (Routine T)} (h : Control s c) (hstack : c.stack t = r :: rest) (hapart : (c.set t r l).Apart)
    (hthread : OnThread s' (c.set t r l) t l)
    (hplace : ∃ q rest, l = q :: rest ∧ (s'.threads t).place = ⟨q, (c.set t r l).count q, false⟩)
    (hpointers : Pointers s') (hothers : ∀ u, u ≠ t → s'.threads u = s.threads u)
    (hfib : ∀ f x u, u ≠ t → s.fibers f = some x → x.ctx.routine ∈ c.stack u → s'.fibers f = some x)
    (hhome : ∀ f x, s'.fibers f = some x → x.stack = true → ∃ l, x.ctx.routine = .fiber f l)
    (hidle : ∀ f x, s'.fibers f = some x → x.ctx.routine ∉ l → (∀ u, u ≠ t → x.ctx.routine ∉ c.stack u) →
      s.fibers f = some x ∧ x.ctx.routine ∉ c.stack t ∨ Idle (c.set t r l) x)
    (hlater : ∀ f l, Later s' f l → Later s f l) : Control s' (c.set t r l) := by
  have hr : r ∈ c.stack t := hstack ▸ List.mem_cons_self
  have hne : ∀ u, u ≠ t → ∀ q ∈ c.stack u, q ≠ r := by
    rintro u hu q hq rfl
    exact hu (h.apart.thread hq hr)
  have hcount : ∀ u, u ≠ t → ∀ q ∈ c.stack u, (c.set t r l).count q = c.count q := fun u hu q hq =>
    Coroutines.count_set_of_ne (hne u hu q hq) t l
  refine ⟨hapart, fun u => ?_, fun u => ?_, hpointers, fun {f x} => hhome f x, fun {f x} hx hno => ?_,
    fun {f k} hk => ?_⟩
  · obtain rfl | hu := eq_or_ne u t
    · rw [Coroutines.stack_set_self]
      exact hthread
    · rw [Coroutines.stack_set_of_ne hu]
      exact (h.thread u).congr (by rw [hothers u hu]) (fun q hq => hcount u hu q (List.mem_of_mem_tail hq))
        fun f x hx hr => hfib f x u hu hx hr
  · obtain rfl | hu := eq_or_ne u t
    · rw [Coroutines.stack_set_self]
      exact hplace
    · obtain ⟨q, tail, htop, hq⟩ := h.place u
      refine ⟨q, tail, (Coroutines.stack_set_of_ne hu ..).trans htop, ?_⟩
      rw [hothers u hu, hcount u hu q (htop ▸ List.mem_cons_self), hq]
  · have hl : x.ctx.routine ∉ l := by simpa [Coroutines.stack_set_self] using hno t
    have hu : ∀ u, u ≠ t → x.ctx.routine ∉ c.stack u := fun u hu => by
      simpa [Coroutines.stack_set_of_ne hu] using hno u
    obtain ⟨hold, ht⟩ | hidle := hidle f x hx hl hu
    · have hall : ∀ u, x.ctx.routine ∉ c.stack u := fun u => by
        obtain rfl | hut := eq_or_ne u t
        · exact ht
        · exact hu u hut
      obtain ⟨hstate, hpos, hover⟩ := h.idle hold hall
      refine ⟨hstate, ?_, hover⟩
      rw [hpos, Coroutines.count_set_of_ne (ne_of_mem_of_not_mem hr ht).symm]
    · exact hidle
  · have hold := hlater f k hk
    rw [Coroutines.count_set_of_ne, h.later hold]
    rintro rfl
    obtain ⟨x, hx, -, hxr, -⟩ := h.object_of_mem hr
    obtain ⟨k', hlt, heq⟩ := hold x hx
    rw [hxr] at heq
    cases heq
    exact Nat.lt_irrefl _ hlt

/-! ## The calls -/

/-- The thread goes on in its routine, with nothing else changed but the fiber it is on, and fibers that are on no
stack. -/
theorem stay (h : Control s c) (hstack : c.stack t = r :: rest)
    (hplace : (s'.threads t).place = ⟨r, c.count r + 1, false⟩) (hothers : ∀ u, u ≠ t → s'.threads u = s.threads u)
    (hthread : OnThread s' (c.set t r (r :: rest)) t (r :: rest)) (hpointers : Pointers s')
    (hfib : ∀ f x u, u ≠ t → s.fibers f = some x → x.ctx.routine ∈ c.stack u → s'.fibers f = some x)
    (hhome : ∀ f x, s'.fibers f = some x → x.stack = true → ∃ l, x.ctx.routine = .fiber f l)
    (hidle : ∀ f x, s'.fibers f = some x → x.ctx.routine ∉ c.stack t → (∀ u, u ≠ t → x.ctx.routine ∉ c.stack u) →
      s.fibers f = some x ∨ Idle c x)
    (hlater : ∀ f l, Later s' f l → Later s f l) : Control s' (c.set t r (r :: rest)) := by
  have hr : r ∈ c.stack t := hstack ▸ List.mem_cons_self
  refine h.next hstack ?_ hthread ⟨r, rest, rfl, ?_⟩ hpointers hothers hfib hhome ?_ hlater
  · exact h.apart.step (.stay hstack)
  · rw [hplace, Coroutines.count_set_self]
  · intro f x hx hl hu
    rw [← hstack] at hl
    obtain hold | ⟨hstate, hpos, hover⟩ := hidle f x hx hl hu
    · exact .inl ⟨hold, hl⟩
    · exact .inr ⟨hstate, by rw [hpos, Coroutines.count_set_of_ne (ne_of_mem_of_not_mem hr hl).symm], hover⟩

end Control

end Lemmas

end ServerFrame.Fibers
