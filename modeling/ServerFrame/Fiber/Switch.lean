/-
Every call that the schedulers and the functions of fibers make of `Fiber` goes well, and is a step of the coroutines:
`swapIn` and `call` enter a routine, `swapOut` and `back` leave one.
-/
import ServerFrame.Fiber.Control

namespace ServerFrame.Fibers

open Schedulers (FiberState)

universe u

variable {T : Type u} {s s' : Machine T} {c : Coroutines T (Routine T)} {t : T} {f m : Nat} {x y : Fiber T}
  {r : Routine T} {rest : List (Routine T)}

/-! ## What stays -/

/-- A fiber that is left has another state than `EXEC`; it has ended where its routine is over. -/
theorem StateIn.left {ph : Phase} {st : FiberState} (h : StateIn ph st) (hph : ph ≠ .running) :
    st ≠ .exec ∧ (decide (ph = .ending) = true ↔ st = .term ∨ st = .except) := by
  cases ph with
  | running => exact absurd rfl hph
  | yielding => rcases h with rfl | rfl <;> decide
  | ending => rcases h with rfl | rfl <;> decide

/-- A change of a fiber that keeps whether it has a stack, and what a main fiber is. -/
theorem Pointers.setFiber (h : Pointers s) (hnew : s.fibers f = none → x.stack = true)
    (hold : ∀ y, s.fibers f = some y → x.stack = y.stack ∧ (y.stack = false → y.state = .exec → x.state = .exec ∧
      x.ctx.routine = y.ctx.routine)) : Pointers (s.setFiber f x) where
  main {t m} hm := by
    obtain ⟨y, hy, hstack, hstate, hr⟩ := h.main hm
    obtain rfl | hne := eq_or_ne m f
    · obtain ⟨hstack', hmain⟩ := hold y hy
      obtain ⟨hstate', hr'⟩ := hmain hstack hstate
      exact ⟨x, Machine.fibers_setFiber_self .., hstack'.trans hstack, hstate', hr'.trans hr⟩
    · exact ⟨y, (Machine.fibers_setFiber_of_ne _ _ hne).trans hy, hstack, hstate, hr⟩
  stackless {m y} hy hfalse := by
    obtain rfl | hne := eq_or_ne m f
    · rw [Machine.fibers_setFiber_self] at hy
      cases hy
      cases hz : s.fibers m with
      | none => rw [hnew hz] at hfalse; cases hfalse
      | some z => exact h.stackless hz ((hold z hz).1.symm.trans hfalse)
    · rw [Machine.fibers_setFiber_of_ne _ _ hne] at hy
      exact h.stackless hy hfalse
  scheduler {t r} hr := by
    refine (h.scheduler hr).imp_right ?_
    rintro ⟨y, hy, hstack⟩
    obtain rfl | hne := eq_or_ne r f
    · exact ⟨x, Machine.fibers_setFiber_self .., (hold y hy).1.trans hstack⟩
    · exact ⟨y, (Machine.fibers_setFiber_of_ne _ _ hne).trans hy, hstack⟩
  owner := h.owner
  unscheduled := h.unscheduled

variable [DecidableEq T]

theorem Pointers.setThread (h : Pointers s) {th : Thread T} (hmain : th.threadFiber = (s.threads t).threadFiber)
    (hsched : th.schedulerFiber = (s.threads t).schedulerFiber) : Pointers (s.setThread t th) := by
  have hmain' : ∀ u, ((s.setThread t th).threads u).threadFiber = (s.threads u).threadFiber := by
    intro u
    obtain rfl | hu := eq_or_ne u t
    · rw [Machine.threads_setThread_self, hmain]
    · rw [Machine.threads_setThread_of_ne _ _ _ hu]
  have hsched' : ∀ u, ((s.setThread t th).threads u).schedulerFiber = (s.threads u).schedulerFiber := by
    intro u
    obtain rfl | hu := eq_or_ne u t
    · rw [Machine.threads_setThread_self, hsched]
    · rw [Machine.threads_setThread_of_ne _ _ _ hu]
  refine ⟨fun ht => h.main ((hmain' _).symm.trans ht), fun hx hstack => ?_, fun {u r} hr => ?_,
    fun {u v r} hu hv => h.owner ((hsched' u).symm.trans hu) ((hsched' v).symm.trans hv),
    fun {u} hu => (hsched' u).trans (h.unscheduled ((hmain' u).symm.trans hu))⟩
  · obtain ⟨u, hu⟩ := h.stackless hx hstack
    exact ⟨u, (hmain' u).trans hu⟩
  · rw [hmain']
    exact h.scheduler ((hsched' u).symm.trans hr)

/-- `t_scheduler_fiber` is set to a fiber that no other scheduler runs on. -/
theorem Pointers.adopt (h : Pointers s) {r : Nat} (hsome : (s.threads t).threadFiber.isSome = true)
    (hr : (s.threads t).threadFiber = some r ∨ ∃ x, s.fibers r = some x ∧ x.stack = true)
    (hown : ∀ u, u ≠ t → (s.threads u).schedulerFiber ≠ some r) :
    Pointers (s.setThread t { s.threads t with schedulerFiber := some r }) := by
  have hself : (s.setThread t { s.threads t with schedulerFiber := some r }).threads t =
      { s.threads t with schedulerFiber := some r } := Machine.threads_setThread_self ..
  have hother : ∀ u, u ≠ t →
      (s.setThread t { s.threads t with schedulerFiber := some r }).threads u = s.threads u := fun u hu =>
    Machine.threads_setThread_of_ne _ _ _ hu
  have hmain : ∀ u, ((s.setThread t { s.threads t with schedulerFiber := some r }).threads u).threadFiber =
      (s.threads u).threadFiber := by
    intro u
    obtain rfl | hu := eq_or_ne u t
    · rw [hself]
    · rw [hother u hu]
  refine ⟨fun ht => h.main ((hmain _).symm.trans ht), fun hx hstack => ?_, fun {u q} hq => ?_,
    fun {u v q} hu hv => ?_, fun {u} hu => ?_⟩
  · obtain ⟨u, hu⟩ := h.stackless hx hstack
    exact ⟨u, (hmain u).trans hu⟩
  · rw [hmain]
    obtain rfl | hu := eq_or_ne u t
    · rw [hself] at hq
      cases hq
      exact hr
    · rw [hother u hu] at hq
      exact h.scheduler hq
  · obtain rfl | hut := eq_or_ne u t <;> obtain rfl | hvt := eq_or_ne v u
    · rfl
    · rw [hself] at hu
      cases hu
      rw [hother v hvt] at hv
      exact absurd hv (hown v hvt)
    · rfl
    · rw [hother u hut] at hu
      obtain rfl | hv' := eq_or_ne v t
      · rw [hself] at hv
        cases hv
        exact absurd hu (hown u hut)
      · rw [hother v hv'] at hv
        exact h.owner hu hv
  · rw [hmain] at hu
    obtain rfl | hne := eq_or_ne u t
    · rw [hu] at hsome
      cases hsome
    · rw [hother u hne]
      exact h.unscheduled hu

theorem count_tail (h : Control s c) (hstack : c.stack t = r :: rest) (l : List (Routine T)) :
    ∀ q ∈ rest, (c.set t r l).count q = c.count q := fun _ hq =>
  Coroutines.count_set_of_ne (ne_of_mem_of_not_mem hq (List.nodup_cons.1 (hstack ▸ h.apart.nodup t)).1) t l

namespace Control

/-! ## Steps in a routine -/

/-- A step without any call. -/
theorem work (h : Control s c) (hstack : c.stack t = r :: rest) : Control (s.advance t) (c.set t r (r :: rest)) := by
  refine h.stay hstack (s.place_advance t (h.place_eq hstack)) (fun u hu => s.threads_advance_of_ne t hu) ?_
    (h.pointers.setThread rfl rfl) (fun f x u _ hx _ => hx) (fun f x hx hs => h.home hx hs) (fun f x hx _ _ => .inl hx)
    (fun f l hl => hl)
  refine (hstack ▸ h.thread t).congr ?_ (count_tail h hstack _) fun f x hx _ => hx
  rw [Machine.advance, Machine.threads_setThread_self]

/-- A call that changes a fiber on no stack, or makes one. -/
theorem change {k : Nat} (h : Control s c) (hstack : c.stack t = r :: rest)
    (hfree : ∀ y, s.fibers f = some y → y.stack = true ∧ ∀ u, y.ctx.routine ∉ c.stack u) (hx : x.stack = true)
    (hhome : x.ctx.routine = .fiber f k) (hlater : Later s f (k + 1)) (hidle : Idle c x) :
    Control ((s.setFiber f x).advance t) (c.set t r (r :: rest)) := by
  have hkeep : ∀ g y u, s.fibers g = some y → y.ctx.routine ∈ c.stack u → (s.setFiber f x).fibers g = some y := by
    intro g y u hy hmem
    obtain rfl | hne := eq_or_ne g f
    · exact absurd hmem ((hfree y hy).2 u)
    · exact (Machine.fibers_setFiber_of_ne _ _ hne).trans hy
  refine h.stay hstack (Machine.place_advance _ t (h.place_eq hstack))
    (fun u hu => Machine.threads_advance_of_ne _ t hu) ?_ ?_ (fun g y u _ hy hmem => hkeep g y u hy hmem)
    (fun g y hy hs => ?_) (fun g y hy _ _ => ?_) (fun g l hl y hy => ?_)
  · refine (hstack ▸ h.thread t).congr ?_ (count_tail h hstack _) fun g y hy hmem => hkeep g y t hy (hstack ▸ hmem)
    rw [Machine.advance, Machine.threads_setThread_self]
    rfl
  · refine Pointers.setThread (h.pointers.setFiber (fun _ => hx) fun y hy => ?_) rfl rfl
    exact ⟨hx.trans (hfree y hy).1.symm, fun hfalse => by rw [(hfree y hy).1] at hfalse; cases hfalse⟩
  · rw [Machine.fibers_advance] at hy
    obtain rfl | hne := eq_or_ne g f
    · rw [Machine.fibers_setFiber_self] at hy
      cases hy
      exact ⟨k, hhome⟩
    · rw [Machine.fibers_setFiber_of_ne _ _ hne] at hy
      exact h.home hy hs
  · rw [Machine.fibers_advance] at hy
    obtain rfl | hne := eq_or_ne g f
    · rw [Machine.fibers_setFiber_self] at hy
      cases hy
      exact .inr hidle
    · rw [Machine.fibers_setFiber_of_ne _ _ hne] at hy
      exact .inl hy
  · obtain rfl | hne := eq_or_ne g f
    · obtain ⟨l', hlt, hl'⟩ := hl x (Machine.fibers_setFiber_self ..)
      rw [hhome] at hl'
      cases hl'
      obtain ⟨l'', hlt', hy'⟩ := hlater y hy
      exact ⟨l'', by omega, hy'⟩
    · exact hl y ((Machine.fibers_setFiber_of_ne _ _ hne).trans hy)

/-- The state that a fiber writes before it is left. -/
theorem mark {st : FiberState} {ph : Phase} (h : Control s c) (hstack : c.stack t = r :: rest)
    (hfiber : (s.threads t).fiber = some f) (hne : (s.threads t).threadFiber ≠ some f) (hst : StateIn ph st)
    (hx : s.fibers f = some x) :
    Control (((s.setFiber f { x with state := st }).setThread t { s.threads t with phase := ph }).advance t)
      (c.set t r (r :: rest)) := by
  obtain ⟨y, tail, hy, hstack', -, -, hunder, hmain⟩ := h.current hfiber
  rw [hx] at hy
  cases hy
  rw [hstack] at hstack'
  cases hstack'
  have hxs : x.stack = true := by
    by_contra hfalse
    exact hne (hmain (by simpa using hfalse))
  have hnot : ∀ u, u ≠ t → x.ctx.routine ∉ c.stack u := fun u hu hmem =>
    hu (h.apart.thread hmem (hstack ▸ List.mem_cons_self))
  have hkeep : ∀ g y, g ≠ f → s.fibers g = some y → (s.setFiber f { x with state := st }).fibers g = some y :=
    fun g y hg hy => (Machine.fibers_setFiber_of_ne _ _ hg).trans hy
  obtain ⟨k, hk⟩ := h.home hx hxs
  have hself : x.ctx.routine ∉ rest := (List.nodup_cons.1 (hstack ▸ h.apart.nodup t)).1
  refine h.stay hstack (Machine.place_advance _ t ?_) (fun u hu => ?_) ?_ ?_ (fun g y u hu hy hmem => ?_)
    (fun g y hy hs => ?_) (fun g y hy hmem _ => ?_) (fun g l hl y hy => ?_)
  · rw [Machine.threads_setThread_self]
    exact h.place_eq hstack
  · rw [Machine.threads_advance_of_ne _ t hu, Machine.threads_setThread_of_ne _ _ _ hu]
    rfl
  · rw [hk]
    have hcur : (((s.setFiber f { x with state := st }).setThread t { s.threads t with phase := ph }).advance t).threads
        t = { s.threads t with phase := ph, place := ⟨x.ctx.routine, c.count x.ctx.routine + 1, false⟩ } := by
      rw [Machine.advance, Machine.threads_setThread_self, Machine.threads_setThread_self, h.place_eq hstack]
    refine .fiber (by rw [hcur]; exact hfiber) (Machine.fibers_setFiber_self ..) hxs hk (by rw [hcur]; exact hst) ?_
    refine hunder.congr (by rw [hcur]) (by rw [hcur]) (by rw [← hk]; exact count_tail h hstack _) fun g y hy hmem => ?_
    obtain rfl | hg := eq_or_ne g f
    · rw [hx] at hy
      cases hy
      exact absurd hmem hself
    · exact hkeep g y hg hy
  · have hstate : Pointers (s.setFiber f { x with state := st }) := by
      refine h.pointers.setFiber (fun _ => hxs) fun y hy => ?_
      rw [hx] at hy
      cases hy
      exact ⟨rfl, fun hfalse => by rw [hxs] at hfalse; cases hfalse⟩
    have hphase : Pointers ((s.setFiber f { x with state := st }).setThread t { s.threads t with phase := ph }) :=
      hstate.setThread rfl rfl
    exact hphase.setThread rfl rfl
  · obtain rfl | hg := eq_or_ne g f
    · rw [hx] at hy
      cases hy
      exact absurd hmem (hnot u hu)
    · exact hkeep g y hg hy
  · obtain rfl | hg := eq_or_ne g f
    · rw [Machine.fibers_advance, Machine.fibers_setThread, Machine.fibers_setFiber_self] at hy
      cases hy
      exact ⟨k, hk⟩
    · rw [Machine.fibers_advance, Machine.fibers_setThread, Machine.fibers_setFiber_of_ne _ _ hg] at hy
      exact h.home hy hs
  · obtain rfl | hg := eq_or_ne g f
    · rw [Machine.fibers_advance, Machine.fibers_setThread, Machine.fibers_setFiber_self] at hy
      cases hy
      exact absurd (hstack ▸ List.mem_cons_self) hmem
    · rw [Machine.fibers_advance, Machine.fibers_setThread, Machine.fibers_setFiber_of_ne _ _ hg] at hy
      exact .inl hy
  · obtain rfl | hg := eq_or_ne g f
    · rw [hx] at hy
      cases hy
      exact hl { x with state := st } (Machine.fibers_setFiber_self ..)
    · exact hl y (hkeep g y hg hy)

/-! ## The pointers of a thread -/

/-- `t_scheduler_fiber` of a thread on its own stack is set. -/
theorem adopt {o : Option Nat} (h : Control s c) (hfiber : (s.threads t).fiber = (s.threads t).threadFiber)
    (hpointers : Pointers (s.setThread t { s.threads t with schedulerFiber := o })) :
    Control ((s.setThread t { s.threads t with schedulerFiber := o }).advance t)
      (c.set t (.thread t) [.thread t]) := by
  obtain ⟨hstack, hrun⟩ := h.native hfiber
  refine h.stay hstack (Machine.place_advance _ t ?_) (fun u hu => ?_) ?_ (hpointers.setThread rfl rfl)
    (fun g y u _ hy _ => hy) (fun g y hy hs => h.home hy hs) (fun g y hy _ _ => .inl hy) (fun g l hl => hl)
  · rw [Machine.threads_setThread_self]
    exact h.place_eq hstack
  · rw [Machine.threads_advance_of_ne _ t hu, Machine.threads_setThread_of_ne _ _ _ hu]
  · refine .native ?_ ?_ <;> rw [Machine.advance, Machine.threads_setThread_self, Machine.threads_setThread_self]
    · exact hrun
    · exact hfiber

/-- The first `GetThis` of a thread makes its main fiber. -/
theorem getThis {a : Nat} (h : Control s c) (hfiber : (s.threads t).fiber = none) (hfresh : s.fibers a = none) :
    Control ((s.getThis t a).advance t) (c.set t (.thread t) [.thread t]) := by
  have hmain : (s.threads t).threadFiber = none := by
    have hon := h.thread t
    generalize c.stack t = l at hon
    cases hon with
    | native running fiber => exact fiber.symm.trans hfiber
    | fiber fiber => rw [hfiber] at fiber; cases fiber
  obtain ⟨hstack, hrun⟩ := h.native (hfiber.trans hmain.symm)
  have hplace := h.place_eq hstack
  have hget : s.getThis t a = (s.setFiber a ⟨.exec, (s.threads t).place, false⟩).setThread t
      { s.threads t with fiber := some a, threadFiber := some a } := by
    rw [Machine.getThis, hfiber]
    rfl
  rw [hget]
  have hne : ∀ g y, s.fibers g = some y → g ≠ a := by
    rintro g y hy rfl
    rw [hfresh] at hy
    cases hy
  have hnew : ∀ g y, (s.setFiber a ⟨.exec, (s.threads t).place, false⟩).fibers g = some y →
      s.fibers g = some y ∨ g = a ∧ y = ⟨.exec, (s.threads t).place, false⟩ := by
    intro g y hy
    obtain rfl | hg := eq_or_ne g a
    · rw [Machine.fibers_setFiber_self] at hy
      cases hy
      exact .inr ⟨rfl, rfl⟩
    · rw [Machine.fibers_setFiber_of_ne _ _ hg] at hy
      exact .inl hy
  have hkeep : ∀ g y, s.fibers g = some y → (s.setFiber a ⟨.exec, (s.threads t).place, false⟩).fibers g = some y :=
    fun g y hy => (Machine.fibers_setFiber_of_ne _ _ (hne g y hy)).trans hy
  have hthreads : ∀ u, u ≠ t → ((s.setFiber a ⟨.exec, (s.threads t).place, false⟩).setThread t
      { s.threads t with fiber := some a, threadFiber := some a }).threads u = s.threads u := fun u hu =>
    Machine.threads_setThread_of_ne _ _ _ hu
  have hself : ((s.setFiber a ⟨.exec, (s.threads t).place, false⟩).setThread t
      { s.threads t with fiber := some a, threadFiber := some a }).threads t =
      { s.threads t with fiber := some a, threadFiber := some a } := Machine.threads_setThread_self ..
  have hsched : ∀ u, (((s.setFiber a ⟨.exec, (s.threads t).place, false⟩).setThread t
      { s.threads t with fiber := some a, threadFiber := some a }).threads u).schedulerFiber =
      (s.threads u).schedulerFiber := by
    intro u
    obtain rfl | hu := eq_or_ne u t
    · rw [hself]
    · rw [hthreads u hu]
  have hpointers : Pointers ((s.setFiber a ⟨.exec, (s.threads t).place, false⟩).setThread t
      { s.threads t with fiber := some a, threadFiber := some a }) := by
    refine ⟨fun {u m} hm => ?_, fun {m y} hy hfalse => ?_, fun {u r} hr => ?_,
      fun {u v r} hu hv => h.pointers.owner ((hsched u).symm.trans hu) ((hsched v).symm.trans hv), fun {u} hu => ?_⟩
    · obtain rfl | hu := eq_or_ne u t
      · rw [hself] at hm
        cases hm
        exact ⟨_, Machine.fibers_setFiber_self .., rfl, rfl, by rw [hplace]⟩
      · rw [hthreads u hu] at hm
        obtain ⟨y, hy, hrest⟩ := h.pointers.main hm
        exact ⟨y, hkeep m y hy, hrest⟩
    · obtain hold | ⟨rfl, rfl⟩ := hnew m y hy
      · obtain ⟨u, hu⟩ := h.pointers.stackless hold hfalse
        refine ⟨u, ?_⟩
        rw [hthreads u]
        · exact hu
        · rintro rfl
          rw [hmain] at hu
          cases hu
      · exact ⟨t, by rw [hself]⟩
    · rw [hsched] at hr
      obtain rfl | hu := eq_or_ne u t
      · rw [h.pointers.unscheduled hmain] at hr
        cases hr
      · rw [hthreads u hu]
        refine (h.pointers.scheduler hr).imp_right ?_
        rintro ⟨y, hy, hstack⟩
        exact ⟨y, hkeep r y hy, hstack⟩
    · rw [hsched]
      obtain rfl | hne := eq_or_ne u t
      · exact h.pointers.unscheduled hmain
      · rw [hthreads u hne] at hu
        exact h.pointers.unscheduled hu
  refine h.stay hstack (Machine.place_advance _ t ?_) (fun u hu => ?_) ?_ (hpointers.setThread rfl rfl)
    (fun g y u _ hy _ => hkeep g y hy) (fun g y hy hs => ?_) (fun g y hy hmem _ => ?_) (fun g l hl y hy => ?_)
  · rw [Machine.threads_setThread_self]
    exact hplace
  · rw [Machine.threads_advance_of_ne _ t hu, hthreads u hu]
  · refine .native ?_ ?_ <;> rw [Machine.advance, Machine.threads_setThread_self, Machine.threads_setThread_self]
    exact hrun
  · obtain hold | ⟨rfl, rfl⟩ := hnew g y hy
    · exact h.home hold hs
    · cases hs
  · obtain hold | ⟨rfl, rfl⟩ := hnew g y hy
    · exact .inl hold
    · rw [hplace, hstack] at hmem
      exact absurd List.mem_cons_self hmem
  · exact hl y (hkeep g y hy)

/-! ## Switches -/

/-- The thread goes over from its fiber to one that goes back to it. -/
theorem enter (h : Control s c) (hm : (s.threads t).fiber = some m) (hrun : (s.threads t).phase = .running)
    (hy : s.fibers m = some y) (hstack : c.stack t = y.ctx.routine :: rest) (hx : s.fibers f = some x)
    (hxs : x.stack = true) (hfree : ∀ u, x.ctx.routine ∉ c.stack u) (hst : x.state ≠ .term ∧ x.state ≠ .except)
    (hback : (s.threads t).back f = some m) :
    Control (s.enter t m y f x) (c.set t y.ctx.routine (x.ctx.routine :: y.ctx.routine :: rest)) := by
  obtain ⟨y', tail, hy', hstack', hplace, hexec, hunder, -⟩ := h.current hm
  rw [hy] at hy'
  cases hy'
  rw [hstack] at hstack'
  cases hstack'
  rw [hrun] at hexec
  obtain ⟨-, hpos, hover⟩ := h.idle hx hfree
  obtain ⟨k, hk⟩ := h.home hx hxs
  have hmem : y.ctx.routine ∈ c.stack t := hstack ▸ List.mem_cons_self
  have hself : y.ctx.routine ∉ rest := (List.nodup_cons.1 (hstack ▸ h.apart.nodup t)).1
  have hne : m ≠ f := by
    rintro rfl
    rw [hx] at hy
    cases hy
    exact hfree t hmem
  have hthread : (s.enter t m y f x).threads t =
      { s.threads t with fiber := some f, place := x.ctx, phase := .running } :=
    Machine.threads_setThread_self ..
  have hfm : (s.enter t m y f x).fibers m = some { y with ctx := s.here t } := Machine.fibers_setFiber_self ..
  have hff : (s.enter t m y f x).fibers f = some { x with state := .exec } :=
    (Machine.fibers_setFiber_of_ne _ _ hne.symm).trans (Machine.fibers_setFiber_self ..)
  have hfg : ∀ g, g ≠ m → g ≠ f → (s.enter t m y f x).fibers g = s.fibers g := fun g hgm hgf =>
    (Machine.fibers_setFiber_of_ne _ _ hgm).trans (Machine.fibers_setFiber_of_ne _ _ hgf)
  have hhere : s.here t = ⟨y.ctx.routine, c.count y.ctx.routine + 1, false⟩ := by
    rw [Machine.here, hplace, hrun]
    rfl
  have hkeep : ∀ g z, z.ctx.routine ∈ rest ∨ (∃ u, u ≠ t ∧ z.ctx.routine ∈ c.stack u) → s.fibers g = some z →
      (s.enter t m y f x).fibers g = some z := by
    intro g z hz hg
    have hz' : ∃ u, z.ctx.routine ∈ c.stack u ∧ z.ctx.routine ≠ y.ctx.routine := by
      obtain hz | ⟨u, hu, hz⟩ := hz
      · exact ⟨t, hstack ▸ List.mem_cons_of_mem _ hz, ne_of_mem_of_not_mem hz hself⟩
      · exact ⟨u, hz, fun heq => hu (h.apart.thread (heq ▸ hz) hmem)⟩
    obtain ⟨u, hz, hney⟩ := hz'
    rw [hfg, hg]
    · rintro rfl
      rw [hy] at hg
      cases hg
      exact hney rfl
    · rintro rfl
      rw [hx] at hg
      cases hg
      exact hfree u hz
  refine h.next hstack (h.apart.step (.enter hstack hfree)) ?_ ⟨_, _, rfl, ?_⟩ ?_ (fun u hu => ?_)
    (fun g z u hu hz hr => hkeep g z (.inr ⟨u, hu, hr⟩) hz) (fun g z hz hs => ?_) (fun g z hz hl _ => ?_)
    (fun g l hl z hz => ?_)
  · rw [hk]
    refine .fiber (by rw [hthread]) hff hxs hk (by rw [hthread]; rfl) ?_
    refine .ended (by rw [hthread]; exact h.main_ne hx hxs t) (by rw [hthread]; exact hback)
      ⟨_, hfm, hexec, by rw [← hk, Coroutines.count_set_self]; exact hhere⟩ ?_
    refine hunder.congr (by rw [hthread]) (by rw [hthread]) (count_tail h hstack _) fun g z hz hr => ?_
    exact hkeep g z (.inl hr) hz
  · rw [hthread, Coroutines.count_set_of_ne (ne_of_mem_of_not_mem hmem (hfree t)).symm, ← hpos]
    have hfalse : x.ctx.ended = false := by
      by_contra htrue
      exact (hover.1 (by simpa using htrue)).elim hst.1 hst.2
    rw [← hfalse]
  · have hf : Pointers (s.setFiber f { x with state := .exec }) := by
      refine h.pointers.setFiber (fun _ => hxs) fun z hz => ?_
      rw [hx] at hz
      cases hz
      exact ⟨rfl, fun hfalse => by rw [hxs] at hfalse; cases hfalse⟩
    refine Pointers.setThread (hf.setFiber (fun hnone => ?_) fun z hz => ?_) rfl rfl
    · rw [Machine.fibers_setFiber_of_ne _ _ hne, hy] at hnone
      cases hnone
    · rw [Machine.fibers_setFiber_of_ne _ _ hne, hy] at hz
      cases hz
      exact ⟨rfl, fun _ hstate => ⟨hstate, by rw [hhere]⟩⟩
  · exact Machine.threads_setThread_of_ne _ _ _ hu
  · by_cases hgm : g = m
    · rw [hgm, hfm] at hz
      cases hz
      rw [hhere, hgm]
      exact h.home (x := y) hy hs
    · by_cases hgf : g = f
      · rw [hgf, hff] at hz
        cases hz
        exact ⟨k, hgf ▸ hk⟩
      · exact h.home ((hfg g hgm hgf).symm.trans hz) hs
  · by_cases hgm : g = m
    · rw [hgm, hfm] at hz
      cases hz
      rw [hhere] at hl
      exact absurd (List.mem_cons_of_mem _ List.mem_cons_self) hl
    · by_cases hgf : g = f
      · rw [hgf, hff] at hz
        cases hz
        exact absurd List.mem_cons_self hl
      · exact .inl ⟨(hfg g hgm hgf).symm.trans hz, fun hmem' => hl (List.mem_cons_of_mem _ (hstack ▸ hmem'))⟩
  · by_cases hgm : g = m
    · subst hgm
      rw [hy] at hz
      cases hz
      have hm' := hl _ hfm
      rw [hhere] at hm'
      exact hm'
    · by_cases hgf : g = f
      · subst hgf
        rw [hx] at hz
        cases hz
        exact hl { x with state := .exec } hff
      · exact hl z ((hfg g hgm hgf).trans hz)

/-- The thread is on the fiber below, which waits for it. -/
theorem left (h : Control s c) (hf : (s.threads t).fiber = some f) (hphase : (s.threads t).phase ≠ .running)
    (hx : s.fibers f = some x) (hxs : x.stack = true) (hstack : c.stack t = x.ctx.routine :: y.ctx.routine :: rest)
    (hne : m ≠ f) (hy : s.fibers m = some y) (hexec : y.state = .exec)
    (hctx : y.ctx = ⟨y.ctx.routine, c.count y.ctx.routine, false⟩) (hunder : Under s c t m rest)
    (hstate : StateIn (s.threads t).phase x.state) :
    Control (s.leave t f x m y) (c.set t x.ctx.routine (y.ctx.routine :: rest)) := by
  have hnodup := List.nodup_cons.1 (hstack ▸ h.apart.nodup t)
  have hnodup' := List.nodup_cons.1 hnodup.2
  have hmem : x.ctx.routine ∈ c.stack t := hstack ▸ List.mem_cons_self
  obtain ⟨k, hk⟩ := h.home hx hxs
  have hthread : (s.leave t f x m y).threads t =
      { s.threads t with fiber := some m, place := y.ctx, phase := .running } :=
    Machine.threads_setThread_self ..
  have hff : (s.leave t f x m y).fibers f = some { x with ctx := s.here t } := Machine.fibers_setFiber_self ..
  have hfg : ∀ g, g ≠ f → (s.leave t f x m y).fibers g = s.fibers g := fun g hg => Machine.fibers_setFiber_of_ne _ _ hg
  have hhere : s.here t = ⟨x.ctx.routine, c.count x.ctx.routine + 1, (s.threads t).phase = .ending⟩ := by
    rw [Machine.here, h.place_eq hstack]
  have hcount : ∀ q ∈ y.ctx.routine :: rest, (c.set t x.ctx.routine (y.ctx.routine :: rest)).count q = c.count q :=
    count_tail h hstack _
  have hkeep : ∀ g z, z.ctx.routine ≠ x.ctx.routine → s.fibers g = some z → (s.leave t f x m y).fibers g = some z := by
    intro g z hz hg
    rw [hfg, hg]
    rintro rfl
    rw [hx] at hg
    cases hg
    exact hz rfl
  refine h.next hstack (h.apart.step (.leave hstack)) ?_ ⟨_, _, rfl, ?_⟩ ?_ (fun u hu => ?_)
    (fun g z u hu hz hr => hkeep g z (fun heq => hu (h.apart.thread hr (heq ▸ hmem))) hz) (fun g z hz hs => ?_)
    (fun g z hz hl _ => ?_) (fun g l hl z hz => ?_)
  · have hunder' : Under (s.leave t f x m y) (c.set t x.ctx.routine (y.ctx.routine :: rest)) t m rest := by
      refine hunder.congr (by rw [hthread]) (by rw [hthread]) (fun q hq => hcount q (List.mem_cons_of_mem _ hq))
        fun g z hz hr => hkeep g z ?_ hz
      exact ne_of_mem_of_not_mem (List.mem_cons_of_mem _ hr) hnodup.1
    by_cases hmain : (s.threads t).threadFiber = some m
    · obtain ⟨y', hy', -, -, hr⟩ := h.pointers.main hmain
      rw [hy] at hy'
      cases hy'
      rw [hr]
      cases hunder with
      | main => exact .native (by rw [hthread]) (by rw [hthread]; exact hmain.symm)
      | ended main => exact absurd hmain main
    · have hys : y.stack = true := by
        by_contra hfalse
        obtain ⟨u, hu, hr⟩ := h.thread_of_stackless hy (by simpa using hfalse)
        have hmem' : Routine.thread u ∈ c.stack t := by
          rw [hstack, hr]
          exact List.mem_cons_of_mem _ List.mem_cons_self
        exact hmain (h.apart.thread hmem' (h.thread_mem u) ▸ hu)
      obtain ⟨l, hl⟩ := h.home hy hys
      rw [hl] at hunder' ⊢
      exact .fiber (by rw [hthread]) ((hfg m hne).trans hy) hys hl (by rw [hthread]; exact hexec) hunder'
  · rw [hthread, hcount _ List.mem_cons_self]
    exact hctx
  · have hsaved : Pointers (s.setFiber f { x with ctx := s.here t }) := by
      refine h.pointers.setFiber (fun _ => hxs) fun z hz => ?_
      rw [hx] at hz
      cases hz
      exact ⟨rfl, fun hfalse => by rw [hxs] at hfalse; cases hfalse⟩
    exact hsaved.setThread rfl rfl
  · exact Machine.threads_setThread_of_ne _ _ _ hu
  · by_cases hg : g = f
    · subst hg
      rw [hff] at hz
      cases hz
      rw [hhere]
      exact ⟨k, hk⟩
    · exact h.home ((hfg g hg).symm.trans hz) hs
  · by_cases hg : g = f
    · subst hg
      rw [hff] at hz
      cases hz
      obtain ⟨hne', hover⟩ := hstate.left hphase
      exact .inr ⟨hne', by rw [hhere, Coroutines.count_set_self], by rw [hhere]; exact hover⟩
    · have hz' := (hfg g hg).symm.trans hz
      refine .inl ⟨hz', fun hmem' => ?_⟩
      rw [hstack] at hmem'
      obtain heq | hmem' := List.mem_cons.1 hmem'
      · exact hg (h.eq_of_routine hz' (heq.trans hk))
      · exact hl hmem'
  · by_cases hg : g = f
    · subst hg
      rw [hx] at hz
      cases hz
      have hf' := hl _ hff
      rw [hhere] at hf'
      exact hf'
    · exact hl z ((hfg g hg).trans hz)

/-- The thread goes back from its fiber. -/
theorem leave (h : Control s c) (hf : (s.threads t).fiber = some f) (hphase : (s.threads t).phase ≠ .running)
    (hx : s.fibers f = some x) (hback : (s.threads t).back f = some m) :
    ∃ y rest, s.fibers m = some y ∧ m ≠ f ∧ c.stack t = x.ctx.routine :: y.ctx.routine :: rest ∧
      Control (s.leave t f x m y) (c.set t x.ctx.routine (y.ctx.routine :: rest)) := by
  generalize hstack : c.stack t = l
  have hon := hstack ▸ h.thread t
  cases hon with
  | native running => exact absurd running hphase
  | @fiber f' k x' tail fiber object xstack hk state under =>
    rw [hf] at fiber
    cases fiber
    rw [hx] at object
    cases object
    cases under with
    | main main => exact absurd main (h.main_ne hx xstack t)
    | @ended _ m' r rest main back waits under =>
      rw [hback] at back
      cases back
      obtain ⟨y, hy, hexec, hctx⟩ := waits
      have hr : y.ctx.routine = r := by rw [hctx]
      have hnodup := List.nodup_cons.1 (hstack ▸ h.apart.nodup t)
      have hne : m ≠ f := by
        rintro rfl
        rw [hx] at hy
        cases hy
        exact hnodup.1 (by rw [← hk, hr]; exact List.mem_cons_self)
      refine ⟨y, rest, hy, hne, by rw [hk, hr], ?_⟩
      subst hr
      exact h.left hf hphase hx xstack (hk ▸ hstack) hne hy hexec hctx under state

end Control

end ServerFrame.Fibers
