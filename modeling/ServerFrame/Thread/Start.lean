/-
How a `Thread` starts (`thread.cc`): its constructor waits on a semaphore until the new thread has read what it needs of
the object. From then on the object belongs to its creator, who may destroy it while the thread runs. A wait that fails
throws out of the constructor, and the object is gone while the new thread still reads it.
-/
import ServerFrame.Http.Request
import ServerFrame.Lib.Run

namespace ServerFrame.Threads

open Http (bytes)

/-- `Thread`: `m_id`, which is not initialised, whether `m_thread` is set, and the count of `m_semaphore`. -/
structure Thread (C : Type) where
  id : Option Nat
  thread : Bool
  cb : Option C
  name : List UInt8
  semaphore : Nat

/-- Where the creator is: before `pthread_create`, before or in `m_semaphore.wait()`, and out of the constructor, which
may have thrown. -/
inductive Creator
  | creating
  | waiting
  | constructed
  | thrown
deriving DecidableEq, Repr

/-- Where the new thread is in `Thread::run`. -/
inductive Runner
  | absent
  | entered
  | identified
  | named
  | taken
  | notified
  | returned
deriving DecidableEq, Repr

/-- The object, while there is one; the new thread, with its `t_thread_name`, what it has told the kernel, its local
`cb` and the callbacks it has run; and whether an object has been used that is no more. -/
structure State (C : Type) where
  object : Option (Thread C)
  creator : Creator
  runner : Runner
  threadName : List UInt8
  kernelName : List UInt8
  cb : Option C
  ran : List C
  misused : Bool

/-- What the creator does, a step of the new thread, and a call of `Thread::setName` by its callback. -/
inductive Act
  | create (ok : Bool)
  | wait (ok : Bool)
  | join
  | destroy
  | run
  | setName (name : List UInt8)
deriving DecidableEq

namespace State

variable {C : Type}

/-- `Thread(cb, name)`, up to `pthread_create`. -/
def init (cb : C) (name : List UInt8) : State C where
  object := some ⟨none, false, some cb, if name.isEmpty then bytes "UNKNOWN" else name, 0⟩
  creator := .creating
  runner := .absent
  threadName := bytes "UNKNOWN"
  kernelName := []
  cb := none
  ran := []
  misused := false

/-- The new thread uses the object. -/
def use (s : State C) (f : Thread C → State C) : State C :=
  match s.object with
  | none => { s with misused := true }
  | some o => f o

/-- A step of `Thread::run`, on the thread `tid`. -/
def run (tid : Nat) (s : State C) : Option (State C) :=
  match s.runner with
  | .absent => none
  | .entered => some (s.use fun o => { s with object := some { o with id := some tid }, runner := .identified })
  | .identified => some (s.use fun o =>
      -- `c_str()` ends at the first zero byte
      { s with threadName := o.name, kernelName := (o.name.take 15).takeWhile (· ≠ 0), runner := .named })
  | .named => some (s.use fun o => { s with object := some { o with cb := none }, cb := o.cb, runner := .taken })
  | .taken => some (s.use fun o =>
      { s with object := some { o with semaphore := o.semaphore + 1 }, runner := .notified })
  | .notified => some { s with ran := s.ran ++ s.cb.toList, runner := .returned }
  | .returned => none

/-- A step. `pthread_create` and `sem_wait` may fail, which leaves no object; `wait` goes on when the semaphore is
positive, and `pthread_join` when the thread has returned. -/
def next (tid : Nat) (s : State C) : Act → Option (State C)
  | .create ok =>
    match s.creator, s.object with
    | .creating, some o =>
      if ok then some { s with object := some { o with thread := true }, creator := .waiting, runner := .entered }
      else some { s with object := none, creator := .thrown }
    | _, _ => none
  | .wait ok =>
    match s.creator, s.object with
    | .waiting, some o =>
      if ok = false then some { s with object := none, creator := .thrown }
      else if o.semaphore = 0 then none
      else some { s with object := some { o with semaphore := o.semaphore - 1 }, creator := .constructed }
    | _, _ => none
  | .join =>
    match s.creator, s.object with
    | .constructed, some o =>
      if o.thread then
        if s.runner = .returned then some { s with object := some { o with thread := false } } else none
      else some s
    | _, _ => none
  | .destroy =>
    match s.creator, s.object with
    | .constructed, some _ => some { s with object := none }
    | _, _ => none
  | .run => s.run tid
  | .setName name =>
    if s.runner = .notified then
      some { s.use fun o => { s with object := some { o with name } } with threadName := name }
    else none

def Step (tid : Nat) (s : State C) (a : Act) (s' : State C) : Prop := s.next tid a = some s'

end State

/-! ## What holds all along -/

namespace Runner

/-- The new thread has set `m_id`. -/
def hasId : Runner → Bool
  | .absent | .entered => false
  | _ => true

/-- The new thread has told the kernel the name. -/
def hasName : Runner → Bool
  | .absent | .entered | .identified => false
  | _ => true

/-- The new thread has taken the callback. -/
def hasCb : Runner → Bool
  | .absent | .entered | .identified | .named => false
  | _ => true

/-- The new thread has notified its creator. -/
def hasNotified : Runner → Bool
  | .notified | .returned => true
  | _ => false

theorem has_of_hasNotified {r : Runner} (h : r.hasNotified = true) :
    r.hasId = true ∧ r.hasName = true ∧ r.hasCb = true := by
  cases r <;> simp_all [hasNotified, hasId, hasName, hasCb]

end Runner

section Invariant

variable {C : Type} (tid : Nat) (cb : C) (name : List UInt8)

/-- `m_name` after the constructor. -/
def nameOf (name : List UInt8) : List UInt8 := if name.isEmpty then bytes "UNKNOWN" else name

/-- What the kernel is told of it. -/
def kernelNameOf (name : List UInt8) : List UInt8 := ((nameOf name).take 15).takeWhile (· ≠ 0)

/-- What the object holds when the new thread has come so far. -/
structure Holds (r : Runner) (o : Thread C) : Prop where
  id : o.id = if r.hasId then some tid else none
  cb : o.cb = if r.hasCb then none else some cb
  name : r.hasNotified = false → o.name = nameOf name

/-- The creator and the new thread. -/
inductive Agree (r : Runner) : Creator → Option (Thread C) → Prop
  | creating {o : Thread C} (absent : r = .absent) (semaphore : o.semaphore = 0) : Agree r .creating (some o)
  | thrown : Agree r .thrown none
  | waiting {o : Thread C} (started : r ≠ .absent) (thread : o.thread = true)
      (semaphore : o.semaphore = if r.hasNotified then 1 else 0) : Agree r .waiting (some o)
  | constructed {o : Thread C} (notified : r.hasNotified = true) (joined : o.thread = false → r = .returned)
      (semaphore : o.semaphore = 0) : Agree r .constructed (some o)
  | destroyed (notified : r.hasNotified = true) : Agree r .constructed none

namespace Agree

variable {r : Runner} {c : Creator} {o o' : Thread C}

/-- Only whether the object has a thread and its semaphore matter. -/
theorem object (h : Agree r c (some o)) (hthread : o'.thread = o.thread) (hsem : o'.semaphore = o.semaphore) :
    Agree r c (some o') := by
  cases h with
  | creating absent semaphore => exact .creating absent (hsem.trans semaphore)
  | waiting started thread semaphore => exact .waiting started (hthread.trans thread) (hsem.trans semaphore)
  | constructed notified joined semaphore =>
    exact .constructed notified (fun h => joined (hthread.symm.trans h)) (hsem.trans semaphore)

theorem returned {obj : Option (Thread C)} (h : Agree .notified c obj) : Agree .returned c obj := by
  cases h with
  | creating absent => cases absent
  | thrown => exact .thrown
  | waiting started thread semaphore => exact .waiting (by decide) thread semaphore
  | constructed notified joined semaphore => exact .constructed rfl (fun _ => rfl) semaphore
  | destroyed notified => exact .destroyed rfl

end Agree

/-- What holds in every state of every run. -/
structure Inv (s : State C) : Prop where
  agree : Agree s.runner s.creator s.object
  object : ∀ {o}, s.object = some o → Holds tid cb name s.runner o
  callback : s.cb = if s.runner.hasCb then some cb else none
  ran : s.ran = if s.runner = .returned then [cb] else []
  kernelName : s.runner.hasName = true → s.kernelName = kernelNameOf name

end Invariant

section Steps

variable {C : Type} {tid : Nat} {cb : C} {name : List UInt8} {s s' : State C}

theorem inv_init : Inv tid cb name (State.init cb name) where
  agree := .creating rfl rfl
  object h := by
    cases h
    exact ⟨rfl, rfl, fun _ => rfl⟩
  callback := rfl
  ran := rfl
  kernelName h := by cases h

/-- Until it notifies, the new thread has an object to use, unless the wait has failed. -/
theorem object_of_running (h : Inv tid cb name s) (hr : s.runner ≠ .absent) (hn : s.runner.hasNotified = false) :
    s.creator = .thrown ∧ s.object = none ∨
      s.creator = .waiting ∧ ∃ o, s.object = some o ∧ o.thread = true ∧ o.semaphore = 0 := by
  have hagree := h.agree
  generalize s.creator = c, s.object = obj at hagree
  cases hagree with
  | creating absent => exact absurd absent hr
  | thrown => exact .inl ⟨rfl, rfl⟩
  | waiting started thread semaphore =>
    rw [hn] at semaphore
    exact .inr ⟨rfl, _, rfl, thread, semaphore⟩
  | constructed notified =>
    rw [hn] at notified
    cases notified
  | destroyed notified =>
    rw [hn] at notified
    cases notified

theorem hasNotified_of_constructed (h : Inv tid cb name s) (hc : s.creator = .constructed) :
    s.runner.hasNotified = true := by
  have hagree := h.agree
  rw [hc] at hagree
  generalize s.object = obj at hagree
  cases hagree with
  | constructed notified => exact notified
  | destroyed notified => exact notified

/-- A step of the new thread before it notifies, which uses the object. -/
theorem inv_use {q r : Runner} {f : Thread C → State C} (h : Inv tid cb name s) (hq : s.runner = q) (ha : q ≠ .absent)
    (hn : q.hasNotified = false) (hs : s.use f = s')
    (hf : ∀ o, s.object = some o → o.thread = true → o.semaphore = 0 → Holds tid cb name q o → s.ran = [] →
      s.cb = (if q.hasCb then some cb else none) → (q.hasName = true → s.kernelName = kernelNameOf name) →
      (f o).creator = s.creator ∧ (f o).runner = r ∧ r ≠ .absent ∧ (f o).ran = [] ∧ r ≠ .returned ∧
      (f o).misused = s.misused ∧ (f o).cb = (if r.hasCb then some cb else none) ∧
      (r.hasName = true → (f o).kernelName = kernelNameOf name) ∧
      ∃ o', (f o).object = some o' ∧ o'.thread = true ∧ Holds tid cb name r o' ∧
        o'.semaphore = if r.hasNotified then 1 else 0) :
    Inv tid cb name s' ∧ (s'.misused = true ↔ s.misused = true ∨ q.hasNotified = false ∧ s.object = none) := by
  subst hq
  rw [hn, eq_self, true_and]
  rcases object_of_running h ha hn with ⟨hc, ho⟩ | ⟨hc, o, ho, hthread, hsem⟩
  · have huse : s.use f = { s with misused := true } := by rw [State.use, ho]
    rw [huse] at hs
    subst hs
    exact ⟨⟨h.agree, h.object, h.callback, h.ran, h.kernelName⟩, by simp [ho]⟩
  · have huse : s.use f = f o := by rw [State.use, ho]
    have hran : s.ran = [] := h.ran.trans (if_neg fun hr => by rw [hr] at hn; cases hn)
    rw [huse] at hs
    subst hs
    obtain ⟨hcreator, hrunner, habsent, hran, hreturned, hmisused, hcb, hkernel, o', ho', hthread', hholds, hsem'⟩ :=
      hf o ho hthread hsem (h.object ho) hran h.callback h.kernelName
    refine ⟨⟨?_, fun {o₁} ho₁ => ?_, by rw [hrunner]; exact hcb, by rw [hrunner, hran, if_neg hreturned],
      by rw [hrunner]; exact hkernel⟩, by simp [hmisused, ho]⟩
    · rw [hrunner, hcreator, hc, ho']
      exact .waiting habsent hthread' hsem'
    · rw [ho'] at ho₁
      cases ho₁
      rw [hrunner]
      exact hholds

/-- A step of the new thread. -/
theorem inv_run (h : Inv tid cb name s) (hs : s.run tid = some s') : Inv tid cb name s' ∧
    (s'.misused = true ↔ s.misused = true ∨ s.runner.hasNotified = false ∧ s.object = none) := by
  cases hr : s.runner with
  | absent =>
    rw [State.run, hr] at hs
    cases hs
  | returned =>
    rw [State.run, hr] at hs
    cases hs
  | entered =>
    rw [State.run, hr] at hs
    refine inv_use (r := .identified) h hr nofun rfl (Option.some.inj hs)
      fun o ho hthread hsem hold hran hcb hkernel => ?_
    exact ⟨rfl, rfl, by decide, hran, by decide, rfl, hcb, nofun, _, rfl, hthread,
      ⟨rfl, hold.cb, fun _ => hold.name rfl⟩, hsem⟩
  | identified =>
    rw [State.run, hr] at hs
    refine inv_use (r := .named) h hr nofun rfl (Option.some.inj hs) fun o ho hthread hsem hold hran hcb hkernel => ?_
    exact ⟨rfl, rfl, by decide, hran, by decide, rfl, hcb, fun _ => by rw [hold.name rfl]; rfl, _, ho, hthread,
      ⟨hold.id, hold.cb, fun _ => hold.name rfl⟩, hsem⟩
  | named =>
    rw [State.run, hr] at hs
    refine inv_use (r := .taken) h hr nofun rfl (Option.some.inj hs) fun o ho hthread hsem hold hran hcb hkernel => ?_
    exact ⟨rfl, rfl, by decide, hran, by decide, rfl, hold.cb, hkernel, _, rfl, hthread,
      ⟨hold.id, rfl, fun _ => hold.name rfl⟩, hsem⟩
  | taken =>
    rw [State.run, hr] at hs
    refine inv_use (r := .notified) h hr nofun rfl (Option.some.inj hs)
      fun o ho hthread hsem hold hran hcb hkernel => ?_
    exact ⟨rfl, rfl, by decide, hran, by decide, rfl, hcb, hkernel, _, rfl, hthread, ⟨hold.id, hold.cb, nofun⟩,
      by rw [hsem]; rfl⟩
  | notified =>
    have hran := h.ran
    have hcb := h.callback
    have hkernel := h.kernelName
    rw [State.run, hr] at hs
    rw [hr] at hran hcb hkernel
    cases Option.some.inj hs
    have hcb' : s.cb = some cb := hcb
    have hran' : s.ran = [] := hran
    refine ⟨⟨(hr ▸ h.agree).returned, fun {o} ho => ?_, hcb, ?_, hkernel⟩, by simp [Runner.hasNotified]⟩
    · have hold := h.object ho
      rw [hr] at hold
      exact ⟨hold.id, hold.cb, nofun⟩
    · change s.ran ++ s.cb.toList = [cb]
      rw [hran', hcb']
      rfl

/-- `setName` by the callback keeps what holds, and misuses an object exactly when there is none. -/
theorem inv_setName {n : List UInt8} (h : Inv tid cb name s) (hr : s.runner = .notified)
    (hs : { s.use fun o => { s with object := some { o with name := n } } with threadName := n } = s') :
    Inv tid cb name s' ∧ (s'.misused = true ↔ s.misused = true ∨ s.object = none) := by
  subst hs
  have hagree := h.agree
  have hhold := fun o => h.object (o := o)
  cases ho : s.object with
  | none =>
    rw [ho] at hagree
    rw [State.use, ho]
    exact ⟨⟨hagree, nofun, h.callback, h.ran, h.kernelName⟩, by simp⟩
  | some o =>
    rw [ho] at hagree
    rw [State.use, ho]
    refine ⟨⟨hagree.object rfl rfl, fun {o'} ho' => ?_, h.callback, h.ran, h.kernelName⟩, by simp⟩
    cases ho'
    have hold := hhold o ho
    refine ⟨hold.id, hold.cb, fun hn => ?_⟩
    change s.runner.hasNotified = false at hn
    rw [hr] at hn
    cases hn

/-- The steps of the creator. -/
inductive CreatorStep (s : State C) : Act → State C → Prop
  | created {o : Thread C} (hc : s.creator = .creating) (ho : s.object = some o) : CreatorStep s (.create true)
    { s with object := some { o with thread := true }, creator := .waiting, runner := .entered }
  | refused {o : Thread C} (hc : s.creator = .creating) (ho : s.object = some o) :
    CreatorStep s (.create false) { s with object := none, creator := .thrown }
  | interrupted {o : Thread C} (hc : s.creator = .waiting) (ho : s.object = some o) :
    CreatorStep s (.wait false) { s with object := none, creator := .thrown }
  | passed {o : Thread C} (hc : s.creator = .waiting) (ho : s.object = some o) (hpos : o.semaphore ≠ 0) :
    CreatorStep s (.wait true)
      { s with object := some { o with semaphore := o.semaphore - 1 }, creator := .constructed }
  | joined {o : Thread C} (hc : s.creator = .constructed) (ho : s.object = some o) (hr : s.runner = .returned) :
    CreatorStep s .join { s with object := some { o with thread := false }, creator := .constructed }
  | through {o : Thread C} (hc : s.creator = .constructed) (ho : s.object = some o) : CreatorStep s .join s
  | destroyed {o : Thread C} (hc : s.creator = .constructed) (ho : s.object = some o) :
    CreatorStep s .destroy { s with object := none, creator := .constructed }

theorem creator_step {a : Act} (ha : a ≠ .run) (hn : ∀ n, a ≠ .setName n) (hs : s.next tid a = some s') :
    CreatorStep s a s' := by
  cases a with
  | run => exact absurd rfl ha
  | setName n => exact absurd rfl (hn n)
  | create ok =>
    cases hc : s.creator <;> cases ho : s.object <;> rw [State.next, hc, ho] at hs <;> try cases hs
    cases ok with
    | true =>
      cases Option.some.inj hs
      exact .created hc ho
    | false =>
      cases Option.some.inj hs
      exact .refused hc ho
  | wait ok =>
    cases hc : s.creator <;> cases ho : s.object <;> rw [State.next, hc, ho] at hs <;> try cases hs
    cases ok with
    | false =>
      cases Option.some.inj hs
      exact .interrupted hc ho
    | true =>
      dsimp only at hs
      rw [if_neg nofun] at hs
      split at hs
      · cases hs
      · rename_i hpos
        cases Option.some.inj hs
        exact .passed hc ho hpos
  | join =>
    cases hc : s.creator <;> cases ho : s.object <;> rw [State.next, hc, ho] at hs <;> try cases hs
    dsimp only at hs
    split at hs
    · split at hs
      · rename_i hr
        cases Option.some.inj hs
        exact .joined hc ho hr
      · cases hs
    · cases Option.some.inj hs
      exact .through hc ho
  | destroy =>
    cases hc : s.creator <;> cases ho : s.object <;> rw [State.next, hc, ho] at hs <;> cases hs
    exact .destroyed hc ho

/-- A step of the creator. -/
theorem inv_creator {a : Act} (h : Inv tid cb name s) (hs : CreatorStep s a s') :
    Inv tid cb name s' ∧ s'.misused = s.misused := by
  have hagree := h.agree
  cases hs with
  | created hc ho =>
    rw [hc, ho] at hagree
    cases hagree with
    | creating absent semaphore =>
      have hold := h.object ho
      have hcb := h.callback
      have hran := h.ran
      rw [absent] at hold hcb hran
      refine ⟨⟨.waiting nofun rfl semaphore, fun {o'} ho' => ?_, hcb, hran, nofun⟩, rfl⟩
      cases ho'
      exact ⟨hold.id, hold.cb, fun _ => hold.name rfl⟩
  | refused => exact ⟨⟨.thrown, nofun, h.callback, h.ran, h.kernelName⟩, rfl⟩
  | interrupted => exact ⟨⟨.thrown, nofun, h.callback, h.ran, h.kernelName⟩, rfl⟩
  | passed hc ho hpos =>
    rw [hc, ho] at hagree
    cases hagree with
    | waiting started thread semaphore =>
      have hn : s.runner.hasNotified = true := by
        by_contra hn
        exact hpos (by rw [semaphore, if_neg hn])
      rw [if_pos hn] at semaphore
      refine ⟨⟨.constructed hn (fun hf => ?_) (by simp [semaphore]), fun {o'} ho' => ?_, h.callback, h.ran,
        h.kernelName⟩, rfl⟩
      · rw [thread] at hf
        cases hf
      · cases ho'
        have hold := h.object ho
        exact ⟨hold.id, hold.cb, hold.name⟩
  | joined hc ho hr =>
    rw [hc, ho] at hagree
    cases hagree with
    | constructed notified joined semaphore =>
      refine ⟨⟨.constructed notified (fun _ => hr) semaphore, fun {o'} ho' => ?_, h.callback, h.ran, h.kernelName⟩, rfl⟩
      cases ho'
      have hold := h.object ho
      exact ⟨hold.id, hold.cb, hold.name⟩
  | through => exact ⟨h, rfl⟩
  | destroyed hc ho =>
    rw [hc, ho] at hagree
    cases hagree with
    | constructed notified => exact ⟨⟨.destroyed notified, nofun, h.callback, h.ran, h.kernelName⟩, rfl⟩

/-- In this step the new thread uses the object. -/
def State.Uses (s : State C) (a : Act) : Prop := (∃ n, a = .setName n) ∨ a = .run ∧ s.runner.hasNotified = false

/-- A step, which misuses an object exactly when the new thread uses it in the step and it is no more. -/
theorem inv_step {a : Act} (h : Inv tid cb name s) (hs : State.Step tid s a s') :
    Inv tid cb name s' ∧ (s'.misused = true ↔ s.misused = true ∨ s.Uses a ∧ s.object = none) := by
  by_cases ha : a = .run
  · subst ha
    obtain ⟨hinv, hm⟩ := inv_run h hs
    exact ⟨hinv, by simp [hm, State.Uses]⟩
  · by_cases hn : ∃ n, a = .setName n
    · obtain ⟨n, rfl⟩ := hn
      rw [State.Step, State.next] at hs
      split at hs
      · rename_i hr
        obtain ⟨hinv, hm⟩ := inv_setName h hr (Option.some.inj hs)
        exact ⟨hinv, by simp [hm, State.Uses]⟩
      · cases hs
    · obtain ⟨hinv, hm⟩ := inv_creator h (creator_step ha (fun n h => hn ⟨n, h⟩) hs)
      exact ⟨hinv, by simp [hm, State.Uses, hn, ha]⟩

theorem run_creator (hs : s.run tid = some s') : s'.creator = s.creator ∧ s.runner ≠ .absent := by
  cases hr : s.runner <;> rw [State.run, hr] at hs <;> cases hs <;> refine ⟨?_, nofun⟩
  case notified => rfl
  all_goals cases ho : s.object <;> simp [State.use, ho]

/-- The creator has thrown, and the new thread is there: only a failed wait leaves it so. -/
theorem thrown_step {a : Act} (h : Inv tid cb name s) (hs : State.Step tid s a s') (hc : s'.creator = .thrown)
    (hr : s'.runner ≠ .absent) : s.creator = .thrown ∧ s.runner ≠ .absent ∨ a = .wait false := by
  by_cases ha : a = .run
  · subst ha
    obtain ⟨hcreator, hrunner⟩ := run_creator hs
    exact .inl ⟨hcreator.symm.trans hc, hrunner⟩
  · by_cases hn : ∃ n, a = .setName n
    · obtain ⟨n, rfl⟩ := hn
      rw [State.Step, State.next] at hs
      split at hs
      · rename_i hnotified
        cases Option.some.inj hs
        refine .inl ⟨?_, by rw [hnotified]; decide⟩
        rw [← hc]
        cases ho : s.object <;> simp [State.use, ho]
      · cases hs
    · cases creator_step ha (fun n h => hn ⟨n, h⟩) hs with
      | created => cases hc
      | refused hcreator ho =>
        have hagree := h.agree
        rw [hcreator, ho] at hagree
        cases hagree with
        | creating absent => exact absurd absent hr
      | interrupted => exact .inr rfl
      | passed => cases hc
      | joined => cases hc
      | through hcreator => exact absurd (hcreator.symm.trans hc) nofun
      | destroyed => cases hc

end Steps

/-! ## Every run -/

section Runs

variable {C : Type} {tid : Nat} {cb : C} {name : List UInt8} {l : List Act} {s : State C}

/-- The new thread has used an object that was no more: in a `setName`, or on its way to the notification, after the
wait for it had failed. -/
def Late (tid : Nat) (cb : C) (name : List UInt8) (l : List Act) : Prop :=
  ∃ l₁ a l₂ t, l = l₁ ++ a :: l₂ ∧ Lts.Run (State.Step tid) (State.init cb name) l₁ t ∧ t.object = none ∧
    ((∃ n, a = .setName n) ∨ a = .run ∧ t.runner.hasNotified = false ∧ .wait false ∈ l₁)

/-- Up to its last step a run is late, or in the step. -/
theorem late_snoc {a : Act} (h : Lts.Run (State.Step tid) (State.init cb name) l s) :
    Late tid cb name (l ++ [a]) ↔ Late tid cb name l ∨ s.object = none ∧
      ((∃ n, a = .setName n) ∨ a = .run ∧ s.runner.hasNotified = false ∧ .wait false ∈ l) := by
  constructor
  · rintro ⟨l₁, b, l₂, t, hl, ht, ho, hb⟩
    cases l₂ using List.reverseRecOn with
    | nil =>
      obtain ⟨rfl, hla⟩ := List.append_inj' hl rfl
      cases hla
      have hst := ht.unique (fun _ _ _ _ h h' => Option.some.inj (h.symm.trans h')) h
      subst hst
      exact .inr ⟨ho, hb⟩
    | append_singleton l₂ c =>
      rw [← List.cons_append, ← List.append_assoc] at hl
      obtain ⟨rfl, -⟩ := List.append_inj' hl rfl
      exact .inl ⟨l₁, b, l₂, t, rfl, ht, ho, hb⟩
  · rintro (⟨l₁, b, l₂, t, rfl, ht, ho, hb⟩ | ⟨ho, hb⟩)
    · exact ⟨l₁, b, l₂ ++ [a], t, by simp, ht, ho, hb⟩
    · exact ⟨l, a, [], s, rfl, h, ho, hb⟩

theorem inv_of_run (h : Lts.Run (State.Step tid) (State.init cb name) l s) :
    Inv tid cb name s ∧ (s.misused = true ↔ Late tid cb name l) := by
  suffices hall : Inv tid cb name s ∧ (s.creator = .thrown → s.runner ≠ .absent → .wait false ∈ l) ∧
      (s.misused = true ↔ Late tid cb name l) from ⟨hall.1, hall.2.2⟩
  refine h.history (P := fun l s => Inv tid cb name s ∧ (s.creator = .thrown → s.runner ≠ .absent → .wait false ∈ l) ∧
    (s.misused = true ↔ Late tid cb name l)) ⟨inv_init, nofun, by simp [State.init, Late]⟩ fun l t a u hr hp hst => ?_
  obtain ⟨hinv, hfailed, hlate⟩ := hp
  obtain ⟨hinv', hm⟩ := inv_step hinv hst
  refine ⟨hinv', fun hc hn => ?_, ?_⟩
  · rcases thrown_step hinv hst hc hn with ⟨hc', hn'⟩ | rfl
    · exact List.mem_append_left _ (hfailed hc' hn')
    · exact List.mem_append_right _ (List.mem_singleton_self _)
  · rw [hm, hlate, late_snoc hr, State.Uses, and_comm (b := t.object = none)]
    refine or_congr_right (and_congr_right fun ho => or_congr_right ?_)
    -- a thread without an object that has not notified has a creator that has thrown
    refine ⟨fun ⟨ha, hn⟩ => ⟨ha, hn, ?_⟩, fun ⟨ha, hn, _⟩ => ⟨ha, hn⟩⟩
    subst ha
    have hrunner := (run_creator hst).2
    rcases object_of_running hinv hrunner hn with ⟨hc, -⟩ | ⟨-, o, ho', -⟩
    · exact hfailed hc hrunner
    · rw [ho] at ho'
      cases ho'

/-- A constructor that waits gets its notification, and a constructed `Thread` has its id, its name with the kernel and
has handed its callback over. The callback is run once, before `join` is through, and the new thread uses a destroyed
object in a late `setName`, or because the wait failed, and not otherwise. -/
theorem thread_has_started (h : Lts.Run (State.Step tid) (State.init cb name) l s) :
    (s.creator = .waiting →
      if s.runner.hasNotified then ∃ s', State.Step tid s (.wait true) s' ∧ s'.creator = .constructed
      else ∃ s', State.Step tid s .run s') ∧
    (s.creator = .constructed → s.runner.hasNotified = true ∧ s.cb = some cb ∧ s.kernelName = kernelNameOf name ∧
      ∀ o, s.object = some o → o.id = some tid ∧ o.cb = none ∧ (o.thread = false → s.ran = [cb])) ∧
    s.ran = (if s.runner = .returned then [cb] else []) ∧ (s.misused = true ↔ Late tid cb name l) := by
  obtain ⟨hinv, hlate⟩ := inv_of_run h
  refine ⟨fun hc => ?_, fun hc => ?_, hinv.ran, hlate⟩
  · have hagree := hinv.agree
    cases ho : s.object with
    | none =>
      rw [hc, ho] at hagree
      cases hagree
    | some o =>
      rw [hc, ho] at hagree
      cases hagree with
      | waiting started thread semaphore =>
        split
        · rename_i hn
          rw [if_pos hn] at semaphore
          refine ⟨{ s with object := some { o with semaphore := o.semaphore - 1 }, creator := .constructed }, ?_, rfl⟩
          rw [State.Step, State.next, hc, ho]
          dsimp only
          rw [if_neg nofun, if_neg (by rw [semaphore]; decide)]
        · rename_i hn
          cases hr : s.runner with
          | absent => exact absurd hr started
          | entered => exact ⟨_, by rw [State.Step, State.next, State.run, hr]⟩
          | identified => exact ⟨_, by rw [State.Step, State.next, State.run, hr]⟩
          | named => exact ⟨_, by rw [State.Step, State.next, State.run, hr]⟩
          | taken => exact ⟨_, by rw [State.Step, State.next, State.run, hr]⟩
          | notified => exact absurd (by rw [hr]; rfl) hn
          | returned => exact absurd (by rw [hr]; rfl) hn
  · have hn : s.runner.hasNotified = true := hasNotified_of_constructed hinv hc
    obtain ⟨hid, hname, hcb⟩ := Runner.has_of_hasNotified hn
    refine ⟨hn, by rw [hinv.callback, hcb]; rfl, hinv.kernelName hname, fun o ho => ?_⟩
    have hold := hinv.object ho
    refine ⟨by rw [hold.id, hid]; rfl, by rw [hold.cb, hcb]; rfl, fun hthread => ?_⟩
    have hagree := hinv.agree
    rw [hc, ho] at hagree
    cases hagree with
    | constructed notified joined => rw [hinv.ran, if_pos (joined hthread)]

/-- A callback that names its thread after the `Thread` has been destroyed, and a wait that fails before the new thread
has read the name, which it then reads from no object. -/
theorem thread_has_started_late :
    (Lts.Run (State.Step 41) (State.init 7 [])
      [.create true, .run, .run, .run, .run, .wait true, .destroy, .setName [120]]
      ⟨none, .constructed, .notified, [120], bytes "UNKNOWN", some 7, [], true⟩ ∧
    (true = true ↔ Late 41 7 [] [.create true, .run, .run, .run, .run, .wait true, .destroy, .setName [120]])) ∧
    Lts.Run (State.Step 41) (State.init 7 []) [.create true, .run, .wait false, .run]
      ⟨none, .thrown, .identified, bytes "UNKNOWN", [], none, [], true⟩ ∧
    (true = true ↔ Late 41 7 [] [.create true, .run, .wait false, .run]) := by
  have hname : Lts.Run (State.Step 41) (State.init 7 [])
      [.create true, .run, .run, .run, .run, .wait true, .destroy, .setName [120]]
      ⟨none, .constructed, .notified, [120], bytes "UNKNOWN", some 7, [], true⟩ :=
    .cons rfl (.cons rfl (.cons rfl (.cons rfl (.cons rfl (.cons rfl (.cons rfl (.single rfl)))))))
  have hwait : Lts.Run (State.Step 41) (State.init 7 []) [.create true, .run, .wait false, .run]
      ⟨none, .thrown, .identified, bytes "UNKNOWN", [], none, [], true⟩ :=
    .cons rfl (.cons rfl (.cons rfl (.single rfl)))
  exact ⟨⟨hname, (thread_has_started hname).2.2.2⟩, hwait, (thread_has_started hwait).2.2.2⟩

end Runs

end ServerFrame.Threads
