/-
Hooked functions on the threads of schedulers. `Scheduler::run` enables the hook for every scheduler, and
`IOManager::GetThis` is a `dynamic_cast` of the thread's scheduler, which five of the bodies in `hook.cc` dereference
without a test; `close` tests it.
-/
import ServerFrame.Hook.Wrappers
import ServerFrame.Lib.Run
import Mathlib.Logic.Function.Basic

namespace ServerFrame.Wrappers

/-! ## Programs -/

/-- `IOManager::GetThis()` was not null. -/
def Found : (o : Op) → o.Answer → Prop
  | .getThis, iom => iom = true
  | _, _ => True

section Faultless

open Effect.Prog (Faultless faultless_ite faultless_perform faultless_ask faultless_when)

/-- What a body does with the `IOManager` it has. -/
theorem guard_faultless {p : Hooked Int} (hp : p.Faultless Found) :
    (do if !(← ask .getThis) then .fault else p).Faultless Found := by
  rintro iom rfl
  exact hp

theorem sleepFor_faultless (ms : UInt64) : (sleepFor ms).Faultless Found := by
  apply guard_faultless
  exact fun _ _ _ _ => trivial

variable (hook : Bool)

/-- `sleep` and `usleep`. -/
theorem sleeping_faultless (f : Original) (ms : UInt64) :
    (if !hook then ask (.original f) else sleepFor ms : Hooked Int).Faultless Found := by
  apply faultless_ite
  · exact fun _ => faultless_perform _
  · exact fun _ => sleepFor_faultless _

theorem nanosleep_faultless (req rem : Ptr) (fuel : Nat) : (nanosleep hook req rem fuel).Faultless Found := by
  induction fuel with
  | zero => trivial
  | succ fuel ih =>
    apply faultless_ite
    · exact fun _ => ih
    · exact fun _ t _ => sleepFor_faultless _

theorem socket_faultless (domain type protocol : Int) : (socket hook domain type protocol).Faultless Found := by
  apply faultless_ite
  · exact fun _ => faultless_perform _
  · rintro _ (fd : Int) _
    apply faultless_ite
    · exact fun _ => trivial
    · exact fun _ _ _ => trivial

theorem connectResult_faultless (fd : Int) : (connectResult fd).Faultless Found := by
  rintro ⟨rt, error⟩ _
  apply faultless_ite
  · exact fun _ => trivial
  · intro _
    apply faultless_ite
    · exact fun _ => trivial
    · exact fun _ _ _ => trivial

theorem connectWithTimeout_faultless (fd : Int) (addr : Ptr) (addrlen : UInt32) (timeout_ms : UInt64) :
    (connectWithTimeout hook fd addr addrlen timeout_ms).Faultless Found := by
  apply faultless_ite
  · exact fun _ => faultless_perform _
  · intro _
    apply faultless_ask
    rintro (_ | ctx) _
    · exact fun _ _ => trivial
    · apply faultless_ite
      · exact fun _ _ _ => trivial
      · intro _
        apply faultless_ite
        · exact fun _ => faultless_perform _
        · intro _
          apply faultless_ite
          · exact fun _ => faultless_perform _
          · intro _
            apply faultless_ask
            rintro (n : Int) _
            apply faultless_ite
            · exact fun _ => trivial
            · intro _
              apply faultless_ask
              rintro (e : Int) _
              apply faultless_ite
              · exact fun _ => trivial
              · intro _
                apply guard_faultless
                refine faultless_when (fun _ _ => trivial) fun _ => ?_
                apply faultless_ask
                rintro (rt : Int) _
                apply faultless_ite
                · intro _
                  apply faultless_ask
                  intro _ _
                  refine faultless_when (fun _ _ => trivial) fun _ => ?_
                  apply faultless_ask
                  rintro (cancelled : Int) _
                  apply faultless_ite
                  · exact fun _ _ _ => trivial
                  · exact fun _ => connectResult_faultless fd
                · intro _
                  exact faultless_when (fun _ _ => trivial) fun _ => connectResult_faultless fd

theorem retry_faultless (fd : Int) (fn : Original) (event : Events.Event) (timeout : UInt64) (fuel : Nat) :
    (retry fd fn event timeout fuel).Faultless Found := by
  induction fuel with
  | zero => trivial
  | succ fuel ih =>
    apply faultless_ask
    rintro (n : Int) _
    apply faultless_ask
    rintro (e : Int) _
    apply faultless_ite
    · exact fun _ => ih
    · intro _
      apply faultless_ite
      · intro _
        apply guard_faultless
        refine faultless_when (fun _ _ => trivial) fun _ => ?_
        apply faultless_ask
        rintro (rt : Int) _
        apply faultless_ite
        · intro _
          exact faultless_when (fun _ _ => trivial) fun _ => trivial
        · intro _
          apply faultless_ask
          intro _ _
          refine faultless_when (fun _ _ => trivial) fun _ => ?_
          apply faultless_ask
          rintro (cancelled : Int) _
          apply faultless_ite
          · exact fun _ _ _ => trivial
          · exact fun _ => ih
      · exact fun _ => trivial

theorem doIo_faultless (fd : Int) (fn : Original) (event : Events.Event) (fuel : Nat) :
    (doIo hook fd fn event fuel).Faultless Found := by
  apply faultless_ite
  · exact fun _ => faultless_perform _
  · intro _
    apply faultless_ask
    rintro (_ | ctx) _
    · exact faultless_perform _
    · apply faultless_ite
      · exact fun _ _ _ => trivial
      · intro _
        apply faultless_ite
        · exact fun _ => faultless_perform _
        · exact fun _ => retry_faultless fd fn event _ fuel

theorem accept_faultless (s : Int) (addr addrlen : Ptr) (fuel : Nat) :
    (accept hook s addr addrlen fuel).Faultless Found := by
  refine (doIo_faultless hook s _ _ fuel).bind fun fd => ?_
  apply faultless_ite
  · exact fun _ _ _ => trivial
  · exact fun _ => trivial

theorem close_faultless (fd : Int) : (close hook fd).Faultless Found := by
  apply faultless_ite
  · exact fun _ => faultless_perform _
  · intro _
    apply faultless_ask
    rintro (_ | ctx) _
    · exact faultless_perform _
    · apply faultless_ask
      rintro (iom : Bool) _
      refine faultless_when (fun _ _ => trivial) fun _ => ?_
      apply faultless_ask
      exact fun _ _ => faultless_perform _

theorem setsockopt_faultless (sockfd level optname : Int) (optval : Ptr) (optlen : UInt32) :
    (setsockopt hook sockfd level optname optval optlen).Faultless Found := by
  apply faultless_ite
  · exact fun _ => faultless_perform _
  · intro _
    apply faultless_ite
    · intro _
      apply faultless_ask
      rintro (_ | ctx) _
      · exact faultless_perform _
      · exact fun _ _ _ _ => faultless_perform _
    · exact fun _ => faultless_perform _

/-- A hooked function goes wrong only after `IOManager::GetThis()` was null. -/
theorem hooked_faultless (connect_timeout : UInt64) (fuel : Nat) (f : Original) :
    (hooked hook connect_timeout fuel f).Faultless Found := by
  cases f with
  | sleep seconds => exact sleeping_faultless hook _ _
  | usleep usec => exact sleeping_faultless hook _ _
  | nanosleep req rem => exact nanosleep_faultless hook req rem fuel
  | socket domain type protocol => exact socket_faultless hook domain type protocol
  | connect sockfd addr addrlen => exact connectWithTimeout_faultless hook sockfd addr addrlen connect_timeout
  | accept s addr addrlen => exact accept_faultless hook s addr addrlen fuel
  | close fd => exact close_faultless hook fd
  | setsockopt sockfd level optname optval optlen => exact setsockopt_faultless hook sockfd level optname optval optlen
  | _ => exact doIo_faultless hook _ _ _ fuel

end Faultless

/-! ## Threads and schedulers -/

/-- A thread: its thread-local variables, the scheduler whose `run` it executes, and the fiber it is on there. -/
structure ThreadState where
  t_scheduler : Option Nat := none
  t_hook_enable : Bool := false
  running : Option Nat := none
  fiber : Option Nat := none

/-- The threads, the schedulers that exist, the fibers in state `EXEC`, and the hooked call that a fiber is in. -/
structure Process where
  threads : Nat → ThreadState
  alive : Nat → Bool
  exec : Nat → Bool
  bodies : Nat → Option (Hooked Int)

/-- The constructor and the destructor of a scheduler, the ends of `run`, `set_hook_enable`, the switches to a task and
back, a hooked call with what it reads of the configuration, and its next operation with what the rest of the process
answers. -/
inductive ThreadAct
  | construct (t σ : Nat) (use_caller : Bool)
  | destroy (t σ : Nat)
  | run (t σ : Nat)
  | leave (t : Nat)
  | setHookEnable (t : Nat) (flag : Bool)
  | swapIn (t φ : Nat)
  | swapOut (t : Nat)
  | call (t : Nat) (connect_timeout : UInt64) (fuel : Nat) (f : Original)
  | perform (t : Nat) (answers : (o : Op) → o.Answer)

namespace Process

variable (isIOManager : Nat → Bool) (s : Process)

def init : Process :=
  { threads := fun _ => {}, alive := fun _ => false, exec := fun _ => false, bodies := fun _ => none }

def setThread (t : Nat) (v : ThreadState) : Process := { s with threads := Function.update s.threads t v }

def setBody (φ : Nat) (body : Option (Hooked Int)) : Process := { s with bodies := Function.update s.bodies φ body }

def setExec (φ : Nat) (b : Bool) : Process := { s with exec := Function.update s.exec φ b }

def setAlive (σ : Nat) (b : Bool) : Process := { s with alive := Function.update s.alive σ b }

/-- `IOManager::GetThis()` on a thread is not null. -/
def GetThis (t : Nat) : Bool := (s.threads t).t_scheduler.any isIOManager

/-- The fiber of a thread goes back to `run`. -/
def toRun (t φ : Nat) : Process := (s.setThread t { s.threads t with fiber := none }).setExec φ false

/-- The next operation of a hooked call on a thread; without one the call returns. -/
def advance (t φ : Nat) (answers : (o : Op) → o.Answer) : Hooked Int → Option Process
  | .ask .getThis k => some (s.setBody φ (some (k (s.GetThis isIOManager t))))
  | .ask .yieldToHold k => some ((s.setBody φ (some (k ()))).toRun t φ)
  | .ask o k => some (s.setBody φ (some (k (answers o))))
  | .ret _ => some (s.setBody φ none)
  | .fault | .more => none

/-- An action; `none` when it is not possible or an assertion fails. -/
def next : ThreadAct → Option Process
  | .construct t σ use_caller =>
    if s.alive σ then none
    else if !use_caller then some (s.setAlive σ true)
    else if (s.threads t).t_scheduler.isSome then none
    else some ((s.setAlive σ true).setThread t { s.threads t with t_scheduler := some σ })
  | .destroy t σ =>
    if !s.alive σ then none
    else if (s.threads t).t_scheduler = some σ then
      some ((s.setAlive σ false).setThread t { s.threads t with t_scheduler := none })
    else some (s.setAlive σ false)
  | .run t σ =>
    if s.alive σ && (s.threads t).running.isNone then
      some (s.setThread t { t_scheduler := some σ, t_hook_enable := true, running := some σ, fiber := none })
    else none
  | .leave t =>
    if (s.threads t).fiber.isNone then some (s.setThread t { s.threads t with running := none }) else none
  | .setHookEnable t flag => some (s.setThread t { s.threads t with t_hook_enable := flag })
  | .swapIn t φ =>
    if (s.threads t).running.isSome && (s.threads t).fiber.isNone && !s.exec φ then
      some ((s.setThread t { s.threads t with fiber := some φ }).setExec φ true)
    else none
  | .swapOut t =>
    match (s.threads t).fiber with
    | some φ => if (s.bodies φ).isNone then some (s.toRun t φ) else none
    | none => none
  | .call t connect_timeout fuel f =>
    match (s.threads t).fiber with
    | some φ =>
      if (s.bodies φ).isNone then
        some (s.setBody φ (some (hooked (s.threads t).t_hook_enable connect_timeout fuel f)))
      else none
    | none => none
  | .perform t answers =>
    match (s.threads t).fiber with
    | some φ => (s.bodies φ).bind (s.advance isIOManager t φ answers)
    | none => none

/-- A scheduler is not destroyed while a thread executes its `run`. -/
def Allowed : ThreadAct → Prop
  | .destroy _ σ => ∀ t, (s.threads t).running ≠ some σ
  | _ => True

def Step (a : ThreadAct) (s' : Process) : Prop := s.Allowed a ∧ s.next isIOManager a = some s'

end Process

/-- The body is where it dereferences `IOManager::GetThis()`. -/
def Dereferences (body : Hooked Int) : Prop := ∃ k : Bool → Hooked Int, body = .ask .getThis k ∧ k false = .fault

namespace Process

variable (isIOManager : Nat → Bool) (s : Process)

/-- Wherever a task dereferences `IOManager::GetThis()` it is not null. -/
def Finds : Prop :=
  ∀ t σ φ body, (s.threads t).running = some σ → (s.threads t).fiber = some φ → s.bodies φ = some body →
    Dereferences body → s.GetThis isIOManager t = true

/-- Wherever a task dereferences it, the scheduler that runs the task is an `IOManager`. -/
def OnIOManager : Prop :=
  ∀ t σ φ body, (s.threads t).running = some σ → (s.threads t).fiber = some φ → s.bodies φ = some body →
    Dereferences body → isIOManager σ = true

end Process

/-! ## The scheduler of a thread -/

/-- A thread that executes `run` has that scheduler, which meets `R`, and only such a thread is on a task. -/
structure ThreadState.Attached (R : Nat → Prop) (v : ThreadState) : Prop where
  scheduler : ∀ σ, v.running = some σ → v.t_scheduler = some σ ∧ R σ
  task : v.running = none → v.fiber = none

namespace Process

variable {isIOManager : Nat → Bool} {R : Nat → Prop} {s s' : Process} {a : ThreadAct} {l : List ThreadAct}

theorem setThread_attached (h : ∀ t, (s.threads t).Attached R) {t : Nat} {v : ThreadState} (hv : v.Attached R) :
    ∀ t', ((s.setThread t v).threads t').Attached R := by
  intro t'
  by_cases ht : t' = t
  · subst ht
    simpa [setThread] using hv
  · simpa [setThread, Function.update_of_ne ht] using h t'

theorem toRun_attached (h : ∀ t, (s.threads t).Attached R) (t φ : Nat) :
    ∀ t', ((s.toRun t φ).threads t').Attached R :=
  setThread_attached h ⟨(h t).scheduler, fun _ => rfl⟩

theorem advance_attached (h : ∀ t, (s.threads t).Attached R) {t φ : Nat} {answers : (o : Op) → o.Answer}
    {body : Hooked Int} (hs : s.advance isIOManager t φ answers body = some s') : ∀ t, (s'.threads t).Attached R := by
  unfold advance at hs
  split at hs
  · cases hs
    exact h
  · cases hs
    exact toRun_attached h t φ
  · cases hs
    exact h
  · cases hs
    exact h
  · cases hs
  · cases hs

/-- A step keeps every thread with the scheduler that it runs. -/
theorem step_attached (h : ∀ t, (s.threads t).Attached R) (ha : ∀ t σ, a = .run t σ → R σ)
    (hs : s.Step isIOManager a s') : ∀ t, (s'.threads t).Attached R := by
  obtain ⟨hallowed, hs⟩ := hs
  cases a with
  | construct t σ use_caller =>
    simp only [next] at hs
    split at hs
    · cases hs
    · split at hs
      · cases hs
        exact h
      · split at hs
        · cases hs
        · rename_i hnull
          cases hs
          refine setThread_attached h ⟨fun σ' hrun => ?_, (h t).task⟩
          -- the thread has no scheduler yet, so that it runs none
          rw [((h t).scheduler σ' hrun).1] at hnull
          exact absurd rfl hnull
  | destroy t σ =>
    simp only [next] at hs
    split at hs
    · cases hs
    · split at hs
      · rename_i hthis
        cases hs
        refine setThread_attached h ⟨fun σ' hrun => ?_, (h t).task⟩
        have hσ := ((h t).scheduler σ' hrun).1
        rw [hthis] at hσ
        cases hσ
        exact absurd hrun (hallowed t)
      · cases hs
        exact h
  | run t σ =>
    simp only [next] at hs
    split at hs
    · cases hs
      refine setThread_attached h ⟨fun σ' hrun => ?_, fun _ => rfl⟩
      cases hrun
      exact ⟨rfl, ha t σ rfl⟩
    · cases hs
  | leave t =>
    simp only [next] at hs
    split at hs
    · rename_i hfiber
      cases hs
      refine setThread_attached h ⟨fun σ' hrun => ?_, fun _ => Option.isNone_iff_eq_none.1 hfiber⟩
      cases hrun
    · cases hs
  | setHookEnable t flag =>
    cases hs
    exact setThread_attached h ⟨(h t).scheduler, (h t).task⟩
  | swapIn t φ =>
    simp only [next] at hs
    split at hs
    · rename_i hfree
      cases hs
      refine setThread_attached h ⟨(h t).scheduler, fun hrun => ?_⟩
      simp only [Bool.and_eq_true] at hfree
      rw [show (s.threads t).running = none from hrun] at hfree
      cases hfree.1.1
    · cases hs
  | swapOut t =>
    simp only [next] at hs
    split at hs
    · split at hs
      · cases hs
        exact toRun_attached h t _
      · cases hs
    · cases hs
  | call t connect_timeout fuel f =>
    simp only [next] at hs
    split at hs
    · split at hs
      · cases hs
        exact h
      · cases hs
    · cases hs
  | perform t answers =>
    simp only [next] at hs
    split at hs
    · obtain ⟨body, -, hadvance⟩ := Option.bind_eq_some_iff.1 hs
      exact advance_attached h hadvance
    · cases hs

theorem run_attached (h : Lts.Run (Step isIOManager) init l s) (ha : ∀ t σ, ThreadAct.run t σ ∈ l → R σ) :
    ∀ t, (s.threads t).Attached R := by
  induction h with
  | nil =>
    intro t
    constructor
    · intro σ hrun
      cases hrun
    · exact fun _ => rfl
  | @snoc l u v a hr hs ih =>
    refine step_attached (ih fun t σ hmem => ha t σ (List.mem_append_left _ hmem)) (fun t σ heq => ?_) hs
    exact ha t σ (by simp [heq])

/-- On a thread that runs a scheduler, `IOManager::GetThis()` tells whether that is an `IOManager`. -/
theorem getThis_eq (h : ∀ t, (s.threads t).Attached R) {t σ : Nat} (hrun : (s.threads t).running = some σ) :
    s.GetThis isIOManager t = isIOManager σ := by
  rw [GetThis, ((h t).scheduler σ hrun).1]
  rfl

/-! ## Calls that do not fault -/

/-- No call in progress faults as long as `IOManager::GetThis()` is not null. -/
def Sound (s : Process) : Prop := ∀ φ body, s.bodies φ = some body → body.Faultless Found

theorem setBody_sound (h : s.Sound) (φ : Nat) {body : Option (Hooked Int)}
    (hbody : ∀ b, body = some b → b.Faultless Found) : (s.setBody φ body).Sound := by
  intro ψ b hb
  by_cases hψ : ψ = φ
  · subst hψ
    simp only [setBody, Function.update_self] at hb
    exact hbody b hb
  · simp only [setBody, Function.update_of_ne hψ] at hb
    exact h ψ b hb

theorem advance_sound (h : s.Sound) {t φ : Nat} {answers : (o : Op) → o.Answer} {body : Hooked Int}
    (hthis : s.GetThis isIOManager t = true) (hbody : body.Faultless Found)
    (hs : s.advance isIOManager t φ answers body = some s') : s'.Sound := by
  unfold advance at hs
  split at hs
  · rename_i k
    cases hs
    refine setBody_sound h φ fun b hb => ?_
    cases hb
    exact hbody _ hthis
  · rename_i k
    cases hs
    refine setBody_sound h φ fun b hb => ?_
    cases hb
    exact hbody () trivial
  · rename_i o k hgetThis _
    cases hs
    refine setBody_sound h φ fun b hb => ?_
    cases hb
    refine hbody _ ?_
    cases o with
    | getThis => exact (hgetThis k rfl HEq.rfl).elim
    | _ => trivial
  · cases hs
    refine setBody_sound h φ fun b hb => ?_
    cases hb
  · cases hs
  · cases hs

/-- Where only `IOManager`s are run, a step of a call that does not fault leaves one that does not. -/
theorem step_sound (hattached : ∀ t, (s.threads t).Attached fun σ => isIOManager σ = true) (h : s.Sound)
    (hs : s.Step isIOManager a s') : s'.Sound := by
  obtain ⟨-, hs⟩ := hs
  cases a with
  | call t connect_timeout fuel f =>
    simp only [next] at hs
    split at hs
    · rename_i φ _
      split at hs
      · cases hs
        refine setBody_sound h φ fun b hb => ?_
        cases hb
        exact hooked_faultless _ connect_timeout fuel f
      · cases hs
    · cases hs
  | perform t answers =>
    simp only [next] at hs
    split at hs
    · rename_i φ hfiber
      obtain ⟨body, hbody, hadvance⟩ := Option.bind_eq_some_iff.1 hs
      -- a thread on a task runs a scheduler, and it is an `IOManager`
      rcases hrun : (s.threads t).running with _ | σ
      · rw [(hattached t).task hrun] at hfiber
        cases hfiber
      · have hthis := (getThis_eq hattached hrun).trans ((hattached t).scheduler σ hrun).2
        exact advance_sound h hthis (h φ body hbody) hadvance
    · cases hs
  | construct t σ use_caller =>
    simp only [next] at hs
    split at hs
    · cases hs
    · split at hs
      · cases hs
        exact h
      · split at hs
        · cases hs
        · cases hs
          exact h
  | destroy t σ =>
    simp only [next] at hs
    split at hs
    · cases hs
    · split at hs
      · cases hs
        exact h
      · cases hs
        exact h
  | run t σ | leave t | swapIn t φ =>
    simp only [next] at hs
    split at hs
    · cases hs
      exact h
    · cases hs
  | setHookEnable t flag =>
    cases hs
    exact h
  | swapOut t =>
    simp only [next] at hs
    split at hs
    · split at hs
      · cases hs
        exact h
      · cases hs
    · cases hs

theorem run_sound (h : Lts.Run (Step isIOManager) init l s) (ha : ∀ t σ, ThreadAct.run t σ ∈ l → isIOManager σ = true) :
    s.Sound := by
  induction h with
  | nil =>
    intro φ body hbody
    cases hbody
  | @snoc l u v a hr hs ih =>
    have hpre : ∀ t σ, ThreadAct.run t σ ∈ l → isIOManager σ = true := fun t σ hmem =>
      ha t σ (List.mem_append_left _ hmem)
    exact step_sound (run_attached hr hpre) (ih hpre) hs

/-! ## Main result -/

/-- In every state of a run, `IOManager::GetThis()` is not null wherever a task dereferences it exactly when the
schedulers that run those tasks are `IOManager`s. In a run in which only `IOManager`s are run it is so everywhere, and
no hooked call faults. -/
theorem finds_iff (h : Lts.Run (Step isIOManager) init l s) :
    (s.Finds isIOManager ↔ s.OnIOManager isIOManager) ∧
    ((∀ t σ, ThreadAct.run t σ ∈ l → isIOManager σ = true) →
      s.Finds isIOManager ∧ ∀ φ, s.bodies φ ≠ some .fault) := by
  constructor
  · have hattached := run_attached (R := fun _ => True) h fun _ _ _ => trivial
    constructor
    · intro hfinds t σ φ body hrun hfiber hbody hderef
      exact (getThis_eq hattached hrun).symm.trans (hfinds t σ φ body hrun hfiber hbody hderef)
    · intro hon t σ φ body hrun hfiber hbody hderef
      rw [getThis_eq hattached hrun]
      exact hon t σ φ body hrun hfiber hbody hderef
  · intro ha
    have hattached := run_attached h ha
    constructor
    · intro t σ φ body hrun hfiber hbody hderef
      rw [getThis_eq hattached hrun]
      exact ((hattached t).scheduler σ hrun).2
    · intro φ hfault
      exact run_sound h ha φ .fault hfault

end Process

/-- A task on a scheduler calls `sleep(1)`. -/
def sleepingTask : List ThreadAct := [.construct 0 0 true, .run 0 0, .swapIn 0 0, .call 0 0 0 (.sleep 1)]

/-- What every body does that needs an `IOManager`. -/
theorem guard_dereferences (p : Hooked Int) : Dereferences (do if !(← ask .getThis) then .fault else p) := ⟨_, rfl, rfl⟩

namespace Process

theorem sleepingTask_run (isIOManager : Nat → Bool) : ∃ s, Lts.Run (Step isIOManager) init sleepingTask s ∧
    (s.threads 0).running = some 0 ∧ (s.threads 0).fiber = some 0 ∧ s.bodies 0 = some (sleep true 1) ∧
    s.GetThis isIOManager 0 = isIOManager 0 :=
  ⟨_, .cons ⟨trivial, rfl⟩ (.cons ⟨trivial, rfl⟩ (.cons ⟨trivial, rfl⟩ (.single ⟨trivial, rfl⟩))), rfl, rfl, rfl, rfl⟩

/-- On an `IOManager` the task finds it. -/
theorem finds_iff_sleeping : ∃ s, Lts.Run (Step fun _ => true) init sleepingTask s ∧ s.Finds fun _ => true := by
  obtain ⟨s, h, -⟩ := sleepingTask_run fun _ => true
  exact ⟨s, h, ((finds_iff h).2 fun _ _ _ => rfl).1⟩

/-- On a scheduler that is no `IOManager` the task dereferences null. -/
theorem plain_scheduler_null : ¬ ∀ (isIOManager : Nat → Bool) (l : List ThreadAct) (s : Process),
    Lts.Run (Step isIOManager) init l s → s.Finds isIOManager := by
  intro hall
  obtain ⟨s, h, hrun, hfiber, hbody, hthis⟩ := sleepingTask_run fun _ => false
  have hfound := hall _ _ s h 0 0 0 _ hrun hfiber hbody (guard_dereferences _)
  rw [hthis] at hfound
  cases hfound

end Process

end ServerFrame.Wrappers
