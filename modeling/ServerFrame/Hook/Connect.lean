/-
The hooked `connect` that waits (`connect_with_timeout` of `hook.cc`) over the event side of `IOManager`: what other
threads, the idle fiber and the timer of the call do while it registers and while its fiber is held is any list of
their actions. A registration is handed over by a report of readiness, or by a cancellation; the reports include those
that `epoll_wait` had returned before `connect_f` was called, for the file that had the number then.
-/
import ServerFrame.Hook.Wrappers
import ServerFrame.Event.Cause
import ServerFrame.Lib.History

namespace ServerFrame.Wrappers

open History
open ServerFrame.Events (Event IOManager Inv Report Reports Cancels handed_cause)
open ServerFrame.Fds (FdCtx World)

/-! ## The call and its surroundings -/

/-- What happens beside the call, with the success of the `epoll_ctl` it may make: an operation of another thread or of
the idle fiber, the handling of a report that `epoll_wait` returned before `connect_f` was called, or the callback of
the call's timer. The reports among the operations are later ones. -/
inductive Act
  | event (op : Events.Op Nat Unit)
  | earlier (p : Nat) (r : Report) (ok : Bool)
  | timer (ok : Bool)

/-- The outcomes: of `connect_f`, what happens before `addEvent`, of the `epoll_ctl` of `addEvent`, what happens while
the fiber is held, and the return value of `getsockopt` with the value of `SO_ERROR`. -/
structure Surroundings where
  ret : Int
  errno : Int
  before : List Act
  ok : Bool
  during : List Act
  soError : Int × Int

/-- A call of `connect_with_timeout` on the descriptor `sock` by `fiber`. `armed` is what the timer would cancel;
`handed` says that the registration was handed to `schedule()`, and `stopped` that an assertion has ended the
process. -/
structure Connecting where
  world : World
  io : IOManager Nat Unit
  errno : Int
  sock : Nat
  fiber : Nat
  armed : Option (Int × Event) := none
  cancelled : Int := 0
  registered : Bool := false
  handed : Bool := false
  stopped : Bool := false

namespace Connecting

variable (memory : Nat → Event → Option Nat)

/-- The entry of the history that resumes the call. -/
def resumes (s : Connecting) (x : Events.Entry Nat Unit) : Bool :=
  x.fate = .handed && x.fd = s.sock && x.event = .write && x.reg.task = .fiber s.fiber

/-- An operation of `IOManager`. -/
def event (s : Connecting) (op : Events.Op Nat Unit) : Connecting :=
  if s.stopped then s
  else
    match Events.exec memory s.io op with
    | .error _ => { s with stopped := true }
    | .ok r => { s with io := r.state, handed := s.handed || s.registered && r.log.any s.resumes }

def act (s : Connecting) : Act → Connecting
  | .event op => s.event memory op
  | .earlier p r ok => s.event memory (.report p r ok)
  | .timer ok =>
    match s.armed with
    | none => s
    | some (fd, e) =>
      if s.cancelled ≠ 0 then s
      else { s with armed := none, cancelled := ETIMEDOUT }.event memory (.cancelEvent fd.toNat e ok)

def acts (s : Connecting) (l : List Act) : Connecting := l.foldl (act memory) s

/-- `addEvent(fd, event)` by the fiber, with its return value. -/
def addEvent (s : Connecting) (fd : Int) (e : Event) (ok : Bool) : Int × Connecting :=
  if s.stopped then (-1, s)
  else
    match Events.exec memory s.io (.addEvent fd.toNat e ⟨some 0, s.fiber, true, none⟩ ok) with
    | .error _ => (-1, { s with stopped := true })
    | .ok r => (if r.ret then 0 else -1, { s with io := r.state, registered := r.ret })

variable (env : Surroundings)

def handle : (o : Op) → Connecting → o.Answer × Connecting
  | .original _, s => (env.ret, { s with errno := env.errno })
  | .get fd auto_create, s => ((s.world.get fd auto_create).2, { s with world := (s.world.get fd auto_create).1 })
  | .errno, s => (s.errno, s)
  | .setErrno e, s => ((), { s with errno := e })
  | .getThis, s => (true, s)
  | .addConditionTimer _ fd e, s => ((), { s with armed := some (fd, e) })
  | .cancelTimer, s => ((), { s with armed := none })
  | .cancelled, s => (s.cancelled, s)
  | .addEvent fd e, s => (s.acts memory env.before).addEvent memory fd e env.ok
  | .yieldToHold, s => ((), s.acts memory env.during)
  | .soError _, s => (env.soError, s)
  | .time _, s => (⟨0, 0⟩, s)
  | .del _, s | .setTimeout .., s | .addTimer _, s | .cancelAll _, s => ((), s)

/-- The call waits for the connection: `FdManager` has a context of the descriptor, not closed and of a socket that the
user did not make non-blocking. -/
def Waits (s : Connecting) : Prop :=
  ∃ ctx, (s.world.get s.sock false).2 = some ctx ∧ ctx.isClosed = false ∧ ctx.isSocket = true ∧
    ctx.userNonblock = false

/-- After `connect_f` has returned and the timer has been set. -/
def issued (s : Connecting) (timeout_ms : UInt64) : Connecting :=
  { s with errno := env.errno, armed := if timeout_ms ≠ ~~~0 then some (s.sock, .write) else s.armed }

/-- `addEvent`, after that. -/
def registration (s : Connecting) (timeout_ms : UInt64) : Int × Connecting :=
  ((s.issued env timeout_ms).acts memory env.before).addEvent memory s.sock .write env.ok

/-- Where the call goes on: at once where it could not register, else when its fiber is resumed. -/
def goesOn (s : Connecting) (timeout_ms : UInt64) : Connecting :=
  let r := s.registration memory env timeout_ms
  if r.1 = 0 then r.2.acts memory env.during else r.2

end Connecting

/-! ## What ends the wait -/

namespace Connecting

variable (memory : Nat → Event → Option Nat) (env : Surroundings)

/-- The step handles a report, returned after `connect_f`, that the socket is ready for writing. -/
def Readiness (s : Connecting) : Act → Prop
  | .event op => Reports s.io s.sock .write op
  | .earlier .. | .timer _ => False

/-- The step cancels the event of the socket from another thread, or handles a report that was returned before
`connect_f`. -/
def Foreign (s : Connecting) : Act → Prop
  | .event op => Cancels s.sock .write op
  | .earlier .. => True
  | .timer _ => False

/-- The step hands the registration over. -/
def Ends (s : Connecting) (a : Act) : Prop := Sets (act memory) handed s a

/-- The readiness of the socket for writing is reported between `connect_f` and the end of the wait. -/
def Reported (s : Connecting) (timeout_ms : UInt64) : Prop :=
  Happens (act memory) Readiness (s.issued env timeout_ms) env.before ∨
    (s.registration memory env timeout_ms).1 = 0 ∧
      Happens (act memory) Readiness (s.registration memory env timeout_ms).2 env.during

/-- It is another thread, or an earlier report, that ends the wait. -/
def Interrupted (s : Connecting) (timeout_ms : UInt64) : Prop :=
  Happens (act memory) (fun s a => s.Ends memory a ∧ s.Foreign a) (s.registration memory env timeout_ms).2 env.during

/-- A report of readiness is handled that does not end the wait. -/
def Beside (s : Connecting) (timeout_ms : UInt64) : Prop :=
  Happens (act memory) Readiness (s.issued env timeout_ms) env.before ∨
    (s.registration memory env timeout_ms).1 = 0 ∧
      Happens (act memory) (fun s a => s.Readiness a ∧ ¬ s.Ends memory a) (s.registration memory env timeout_ms).2
        env.during

end Connecting

/-- The timer of the call is set, and its callback runs. -/
def Surroundings.TimesOut (env : Surroundings) (timeout_ms : UInt64) : Prop :=
  timeout_ms ≠ ~~~0 ∧ ∃ ok, Act.timer ok ∈ env.before ++ env.during

section Acts

variable (memory : Nat → Event → Option Nat) {s : Connecting}

/-- What actions leave as it is. -/
structure After (s s' : Connecting) : Prop where
  inv : Inv s.io → Inv s'.io
  sock : s'.sock = s.sock
  registered : s'.registered = s.registered
  armed : s.armed = none → s'.armed = none
  handed : s.handed = true → s'.handed = true

theorem After.refl (s : Connecting) : After s s := ⟨id, rfl, rfl, id, id⟩

theorem After.trans {s' s'' : Connecting} (h : After s s') (h' : After s' s'') : After s s'' where
  inv := h'.inv ∘ h.inv
  sock := h'.sock.trans h.sock
  registered := h'.registered.trans h.registered
  armed := h'.armed ∘ h.armed
  handed := h'.handed ∘ h.handed

theorem event_after (s : Connecting) (op : Events.Op Nat Unit) : After s (s.event memory op) := by
  unfold Connecting.event
  split
  · exact .refl s
  split
  · exact ⟨id, rfl, rfl, id, id⟩
  · rename_i r hr
    exact ⟨fun hi => Events.step_inv (a := (op, r)) hi ⟨hr, rfl⟩, rfl, rfl, id, fun h => by rw [h, Bool.true_or]⟩

theorem act_after (s : Connecting) (a : Act) : After s (s.act memory a) := by
  cases a with
  | event op => exact event_after memory s op
  | earlier p r ok => exact event_after memory s (.report p r ok)
  | timer ok =>
    dsimp only [Connecting.act]
    split
    · exact .refl s
    split
    · exact .refl s
    · rename_i fd e _ _
      have h := event_after memory { s with armed := none, cancelled := ETIMEDOUT } (.cancelEvent fd.toNat e ok)
      exact ⟨h.inv, h.sock, h.registered, fun _ => h.armed rfl, h.handed⟩

theorem acts_after (s : Connecting) (l : List Act) : After s (s.acts memory l) := by
  induction l generalizing s with
  | nil => exact .refl s
  | cons a l ih => exact (act_after memory s a).trans (ih _)

/-- An operation that hands the registration over reports readiness, or cancels the event. -/
theorem event_ends (hi : Inv s.io) {op : Events.Op Nat Unit} (h0 : s.handed = false)
    (h : (s.event memory op).handed = true) :
    s.registered = true ∧ (Reports s.io s.sock .write op = true ∨ Cancels s.sock .write op) := by
  unfold Connecting.event at h
  split at h
  · rw [h0] at h
    cases h
  split at h
  · rw [h0] at h
    cases h
  · rename_i r hr
    rw [h0, Bool.false_or, Bool.and_eq_true, List.any_eq_true] at h
    obtain ⟨hreg, x, hx, hres⟩ := h
    unfold Connecting.resumes at hres
    simp only [Bool.and_eq_true, decide_eq_true_eq] at hres
    obtain ⟨⟨⟨hfate, hfd⟩, he⟩, -⟩ := hres
    have hcause := handed_cause hi hr hx hfate
    rw [hfd, he] at hcause
    exact ⟨hreg, hcause⟩

/-- The wait is ended by a report of readiness, by another thread or an earlier report, or by the timer. -/
theorem ends_cause (hi : Inv s.io) {a : Act} (h : s.Ends memory a) :
    s.registered = true ∧
      (s.Readiness a ∨ (s.Ends memory a ∧ s.Foreign a) ∨ (∃ ok, a = .timer ok) ∧ s.armed ≠ none) := by
  obtain ⟨h0, h1⟩ := h
  cases a with
  | event op =>
    obtain ⟨hreg, hr | hc⟩ := event_ends memory hi h0 h1
    · exact ⟨hreg, .inl hr⟩
    · exact ⟨hreg, .inr (.inl ⟨⟨h0, h1⟩, hc⟩)⟩
  | earlier p r ok => exact ⟨(event_ends memory hi h0 h1).1, .inr (.inl ⟨⟨h0, h1⟩, trivial⟩)⟩
  | timer ok =>
    have hact := h1
    dsimp only [Connecting.act] at h1
    split at h1
    · rw [h0] at h1
      cases h1
    rename_i fd e harmed
    have hsome : s.armed ≠ none := by rw [harmed]; nofun
    split at h1
    · rw [h0] at h1
      cases h1
    · exact ⟨(event_ends (s := { s with armed := none, cancelled := ETIMEDOUT }) memory hi h0 h1).1,
        .inr (.inr ⟨⟨ok, rfl⟩, hsome⟩)⟩

theorem event_cancelled (s : Connecting) (op : Events.Op Nat Unit) :
    (s.event memory op).cancelled = s.cancelled ∧ (s.event memory op).armed = s.armed := by
  unfold Connecting.event
  split
  · exact ⟨rfl, rfl⟩
  split
  · exact ⟨rfl, rfl⟩
  · exact ⟨rfl, rfl⟩

/-- The call is cancelled by the callback of its timer alone. -/
theorem acts_cancelled (s : Connecting) (l : List Act) :
    (s.acts memory l).cancelled ≠ 0 ↔ s.cancelled ≠ 0 ∨ s.armed ≠ none ∧ ∃ ok, Act.timer ok ∈ l := by
  induction l generalizing s with
  | nil => simp [Connecting.acts]
  | cons a l ih =>
    show ((s.act memory a).acts memory l).cancelled ≠ 0 ↔ _
    rw [ih]
    cases a with
    | event op =>
      rw [show s.act memory (.event op) = s.event memory op from rfl, (event_cancelled memory s op).1,
        (event_cancelled memory s op).2]
      simp
    | earlier p r ok =>
      rw [show s.act memory (.earlier p r ok) = s.event memory (.report p r ok) from rfl,
        (event_cancelled memory s _).1, (event_cancelled memory s _).2]
      simp
    | timer ok =>
      dsimp only [Connecting.act]
      split
      · rename_i harmed
        simp [harmed]
      · rename_i fd e harmed
        split
        · rename_i hc
          exact iff_of_true (.inl hc) (.inl hc)
        · refine iff_of_true (.inl ?_) (.inr ⟨by rw [harmed]; nofun, ok, List.mem_cons_self⟩)
          rw [(event_cancelled memory _ _).1]
          exact show ETIMEDOUT ≠ 0 by decide

/-- The timer is only taken by its callback. -/
theorem acts_armed (s : Connecting) (l : List Act) (h : (s.acts memory l).cancelled = 0) :
    (s.acts memory l).armed = s.armed := by
  induction l generalizing s with
  | nil => rfl
  | cons a l ih =>
    refine (ih (s.act memory a) h).trans ?_
    have hc : (s.act memory a).cancelled = 0 := by
      by_contra hc
      exact (acts_cancelled memory (s.act memory a) l).2 (.inl hc) h
    cases a with
    | event op => exact (event_cancelled memory s op).2
    | earlier p r ok => exact (event_cancelled memory s _).2
    | timer ok =>
      revert hc
      dsimp only [Connecting.act]
      split
      · exact fun _ => rfl
      split
      · exact fun _ => rfl
      · rw [(event_cancelled memory _ _).1]
        exact fun hc => absurd hc (show ETIMEDOUT ≠ 0 by decide)

end Acts

/-! ## The call -/

section Call

variable {memory : Nat → Event → Option Nat} {env : Surroundings} {s : Connecting} {addr : Ptr} {addrlen : UInt32}
  {timeout_ms : UInt64}

/-- What `getsockopt` and `SO_ERROR` make of the call. -/
def Surroundings.result (env : Surroundings) : Int :=
  if env.soError.1 = -1 then -1 else if env.soError.2 = 0 then 0 else -1

theorem run_connectResult (fd : Int) (s : Connecting) : ∃ s',
    (connectResult fd).run (Connecting.handle memory env) s = .ret env.result s' := by
  obtain ⟨ret, errno, before, ok, during, ⟨rt, error⟩⟩ := env
  have hrun : (connectResult fd).run (Connecting.handle memory ⟨ret, errno, before, ok, during, rt, error⟩) s =
      if rt = -1 then .ret (-1) s else if error = 0 then .ret 0 s else .ret (-1) { s with errno := error } := by
    show (if rt = -1 then .ret (-1) else if error = 0 then .ret 0
      else .ask (.setErrno error) fun _ => .ret (-1) : Hooked Int).run _ s = _
    rw [Effect.Prog.run_ite, Effect.Prog.run_ite]
    rfl
  rw [hrun, Surroundings.result]
  dsimp only
  split
  · exact ⟨s, rfl⟩
  split
  · exact ⟨s, rfl⟩
  · exact ⟨_, rfl⟩

/-- The timer that is set when the call goes on is cancelled. -/
def Connecting.disarm (s : Connecting) (timeout_ms : UInt64) : Connecting :=
  if timeout_ms ≠ ~~~0 then { s with armed := none } else s

/-- The part of `connect_with_timeout` from the timer on. -/
def awaitConnect (fd : Int) (timeout_ms : UInt64) : Hooked Int := do
  if timeout_ms ≠ ~~~0 then ask (.addConditionTimer timeout_ms fd .write)
  let rt : Int ← ask (.addEvent fd .write)
  if rt = 0 then
    ask .yieldToHold
    if timeout_ms ≠ ~~~0 then ask .cancelTimer
    let cancelled : Int ← ask .cancelled
    if cancelled ≠ 0 then
      ask (.setErrno cancelled)
      return -1
    else connectResult fd
  else
    if timeout_ms ≠ ~~~0 then ask .cancelTimer
    connectResult fd

theorem run_awaitConnect (s : Connecting) :
    (awaitConnect s.sock timeout_ms).run (Connecting.handle memory env) { s with errno := env.errno } =
      let r := s.registration memory env timeout_ms
      if r.1 = 0 then
        let g := r.2.acts memory env.during
        if g.cancelled ≠ 0 then .ret (-1) { g.disarm timeout_ms with errno := g.cancelled }
        else (connectResult s.sock).run (Connecting.handle memory env) (g.disarm timeout_ms)
      else (connectResult s.sock).run (Connecting.handle memory env) (r.2.disarm timeout_ms) := by
  unfold awaitConnect Connecting.disarm Connecting.registration Connecting.issued
  simp only [ask, Effect.Prog.perform, bind, Effect.Prog.bind, Effect.Prog.run, pure, Effect.Prog.run_ite]
  by_cases htime : timeout_ms = ~~~0
  · subst htime
    simp only [ne_eq, not_true_eq_false, if_false]
    rfl
  · simp only [ne_eq, htime, not_false_eq_true, if_true]
    rfl

/-- The call fails if the timer ended the wait, and else tells what `SO_ERROR` does. -/
theorem awaitConnect_result (memory : Nat → Event → Option Nat) (env : Surroundings) (timeout_ms : UInt64)
    (s : Connecting) : ∃ s',
    (awaitConnect s.sock timeout_ms).run (Connecting.handle memory env) { s with errno := env.errno } =
      .ret (if (s.registration memory env timeout_ms).1 = 0 ∧ (s.goesOn memory env timeout_ms).cancelled ≠ 0 then -1
        else env.result) s' := by
  rw [run_awaitConnect, Connecting.goesOn]
  dsimp only
  by_cases hrt : (s.registration memory env timeout_ms).1 = 0
  · rw [if_pos hrt, if_pos hrt]
    by_cases hcancelled : ((s.registration memory env timeout_ms).2.acts memory env.during).cancelled = 0
    · rw [if_neg (not_not.2 hcancelled), if_neg fun h => h.2 hcancelled]
      exact run_connectResult ..
    · rw [if_pos hcancelled, if_pos ⟨hrt, hcancelled⟩]
      exact ⟨_, rfl⟩
  · rw [if_neg hrt, if_neg fun h => hrt h.1]
    exact run_connectResult ..

/-- Where the call has to wait, and `connect_f` has returned with `EINPROGRESS`, it sets the timer and registers. -/
theorem run_waits (memory : Nat → Event → Option Nat) (hw : s.Waits) (hret : env.ret = -1)
    (herrno : env.errno = EINPROGRESS) :
    (connectWithTimeout true s.sock addr addrlen timeout_ms).run (Connecting.handle memory env) s =
      (awaitConnect s.sock timeout_ms).run (Connecting.handle memory env) { s with errno := env.errno } := by
  obtain ⟨ctx, hctx, hclosed, hsocket, hnonblock⟩ := hw
  have hget : Connecting.handle memory env (.get s.sock false) s = (some ctx, s) :=
    Prod.ext hctx (congrArg (fun w => { s with world := w }) (s.world.get_false_fst s.sock))
  obtain ⟨isInit, isSocket, sysNonblock, userNonblock, isClosed, recvTimeout, sendTimeout⟩ := ctx
  cases hclosed
  cases hsocket
  cases hnonblock
  obtain ⟨ret, errno, before, ok, during, soError⟩ := env
  cases hret
  cases herrno
  exact (Effect.Prog.run_ask _ _ hget _).trans rfl

/-- Where the call does not have to wait, it fails with `connect_f`, or without calling it. -/
theorem run_not_waits (memory : Nat → Event → Option Nat) (hw : ¬ s.Waits) (hret : env.ret = -1) : ∃ s',
    (connectWithTimeout true s.sock addr addrlen timeout_ms).run (Connecting.handle memory env) s = .ret (-1) s' := by
  have hget : Connecting.handle memory env (.get s.sock false) s = ((s.world.get s.sock false).2, s) :=
    Prod.ext rfl (congrArg (fun w => { s with world := w }) (s.world.get_false_fst s.sock))
  obtain ⟨ret, errno, before, ok, during, soError⟩ := env
  cases hret
  rcases hctx : (s.world.get s.sock false).2 with _ | ctx
  · rw [hctx] at hget
    exact ⟨_, (Effect.Prog.run_ask _ _ hget _).trans rfl⟩
  · rw [hctx] at hget
    obtain ⟨isInit, isSocket, sysNonblock, userNonblock, isClosed, recvTimeout, sendTimeout⟩ := ctx
    rcases isClosed with _ | _
    · rcases isSocket with _ | _
      · exact ⟨_, (Effect.Prog.run_ask _ _ hget _).trans rfl⟩
      · rcases userNonblock with _ | _
        · exact (hw ⟨_, hctx, rfl, rfl, rfl⟩).elim
        · exact ⟨_, (Effect.Prog.run_ask _ _ hget _).trans rfl⟩
    · exact ⟨_, (Effect.Prog.run_ask _ _ hget _).trans rfl⟩

/-- `addEvent` registers exactly if it returns 0, and hands nothing over. -/
theorem addEvent_spec (memory : Nat → Event → Option Nat) (s : Connecting) (hs : s.registered = false) (fd : Int)
    (e : Event) (ok : Bool) :
    ((s.addEvent memory fd e ok).1 = 0 ↔ (s.addEvent memory fd e ok).2.registered = true) ∧
      (Inv s.io → Inv (s.addEvent memory fd e ok).2.io) ∧ (s.addEvent memory fd e ok).2.handed = s.handed ∧
      (s.addEvent memory fd e ok).2.armed = s.armed ∧ (s.addEvent memory fd e ok).2.cancelled = s.cancelled := by
  unfold Connecting.addEvent
  split
  · exact ⟨by simp [hs], id, rfl, rfl, rfl⟩
  split
  · exact ⟨by simp [hs], id, rfl, rfl, rfl⟩
  · rename_i r hr
    refine ⟨?_, fun hi => Events.step_inv (a := (_, r)) hi ⟨hr, rfl⟩, rfl, rfl, rfl⟩
    dsimp only
    rcases r.ret with _ | _ <;> simp

/-- A call at its start: no timer, no registration. -/
def Connecting.fresh (s : Connecting) : Connecting :=
  { s with armed := none, cancelled := 0, registered := false, handed := false, stopped := false }

/-- The call goes on: nothing has ended the process, and its fiber has been scheduled where it is held. -/
def Connecting.Resumed (s : Connecting) : Prop :=
  s.stopped = false ∧ (s.registered = true → s.handed = true)

/-- The call as its fiber is held: registered exactly if `addEvent` returned 0, not yet handed over. -/
theorem registration_spec (memory : Nat → Event → Option Nat) (env : Surroundings) (timeout_ms : UInt64)
    (hi : Inv s.io) :
    ((s.fresh.registration memory env timeout_ms).1 = 0 ↔
        (s.fresh.registration memory env timeout_ms).2.registered = true) ∧
      Inv (s.fresh.registration memory env timeout_ms).2.io ∧
      (s.fresh.registration memory env timeout_ms).2.handed = false := by
  have hbefore := acts_after memory (s.fresh.issued env timeout_ms) env.before
  obtain ⟨hret, hinv, hhanded, -⟩ :=
    addEvent_spec memory ((s.fresh.issued env timeout_ms).acts memory env.before) hbefore.registered s.sock .write
      env.ok
  refine ⟨hret, hinv (hbefore.inv hi), hhanded.trans (Bool.eq_false_iff.2 fun h => ?_)⟩
  have hnone : Happens (Connecting.act memory) (fun _ _ => False) (s.fresh.issued env timeout_ms) env.before :=
    Happens.imp (I := fun t => Inv t.io ∧ t.registered = false)
      (fun t a ht => ⟨(act_after memory t a).inv ht.1, (act_after memory t a).registered.trans ht.2⟩)
      (fun t a ht h => by
        have hreg := (ends_cause memory ht.1 h).1
        rw [ht.2] at hreg
        cases hreg) ⟨hi, rfl⟩ (happens_sets rfl h)
  obtain ⟨_, _, -, h⟩ := hnone.exists
  exact h

/-- The callback of the timer runs exactly if the call is cancelled. -/
theorem timesOut_iff (memory : Nat → Event → Option Nat) (env : Surroundings) (timeout_ms : UInt64)
    (hrt : (s.fresh.registration memory env timeout_ms).1 = 0) :
    (s.fresh.goesOn memory env timeout_ms).cancelled ≠ 0 ↔ env.TimesOut timeout_ms := by
  have hissued : (s.fresh.issued env timeout_ms).armed ≠ none ↔ timeout_ms ≠ ~~~0 := by
    unfold Connecting.issued
    dsimp only
    split <;> simp_all [Connecting.fresh]
  have hbefore := acts_cancelled memory (s.fresh.issued env timeout_ms) env.before
  rw [hissued, or_iff_right fun h => h rfl] at hbefore
  obtain ⟨-, -, -, harmed, hcancelled⟩ := addEvent_spec memory ((s.fresh.issued env timeout_ms).acts memory env.before)
    (acts_after memory _ env.before).registered s.sock .write env.ok
  rw [Connecting.goesOn, if_pos hrt, acts_cancelled]
  unfold Connecting.registration Surroundings.TimesOut
  rw [show (s.fresh.sock : Int) = s.sock from rfl, hcancelled, harmed, hbefore]
  simp only [List.mem_append]
  by_cases hc : ((s.fresh.issued env timeout_ms).acts memory env.before).cancelled = 0
  · rw [acts_armed memory _ env.before hc, hissued]
    constructor
    · rintro (⟨htime, ok, hok⟩ | ⟨htime, ok, hok⟩)
      · exact ⟨htime, ok, .inl hok⟩
      · exact ⟨htime, ok, .inr hok⟩
    · rintro ⟨htime, ok, hok | hok⟩
      · exact .inl ⟨htime, ok, hok⟩
      · exact .inr ⟨htime, ok, hok⟩
  · obtain ⟨htime, ok, hok⟩ := hbefore.1 hc
    exact iff_of_true (.inl ⟨htime, ok, hok⟩) ⟨htime, ok, .inl hok⟩

/-- A wait that does not time out is ended by a report of readiness, unless it is interrupted. -/
theorem wait_ends (memory : Nat → Event → Option Nat) (env : Surroundings) (timeout_ms : UInt64) (hi : Inv s.io)
    (hrt : (s.fresh.registration memory env timeout_ms).1 = 0) (htime : ¬ env.TimesOut timeout_ms)
    (hhanded : (s.fresh.goesOn memory env timeout_ms).handed = true) :
    Happens (Connecting.act memory) Connecting.Readiness (s.fresh.registration memory env timeout_ms).2 env.during ∨
      s.fresh.Interrupted memory env timeout_ms := by
  obtain ⟨-, hinv, hnot⟩ := registration_spec memory env timeout_ms hi
  rw [Connecting.goesOn, if_pos hrt] at hhanded
  have hcause : Happens (Connecting.act memory)
      (fun t a => t.Readiness a ∨ (t.Ends memory a ∧ t.Foreign a) ∨ (∃ ok, a = .timer ok) ∧ t.armed ≠ none)
      (s.fresh.registration memory env timeout_ms).2 env.during :=
    Happens.imp (I := fun t => Inv t.io) (fun t a ht => (act_after memory t a).inv ht)
      (fun t a ht h => (ends_cause memory ht h).2) hinv (happens_sets hnot hhanded)
  obtain h | h := hcause.or
  · exact .inl h
  obtain h | h := h.or
  · exact .inr h
  · -- the timer would have ended the wait
    refine absurd ?_ htime
    rw [← timesOut_iff memory env timeout_ms hrt, Connecting.goesOn, if_pos hrt, acts_cancelled]
    refine .inr ⟨fun hnone => ?_, ?_⟩
    · have hfalse := Happens.imp (R := fun _ _ => False) (I := fun t => t.armed = none)
        (fun t a ht => (act_after memory t a).armed ht) (fun t a ht h => h.2 ht) hnone h
      obtain ⟨_, _, -, hfalse⟩ := hfalse.exists
      exact hfalse
    · obtain ⟨_, _, ha, ⟨ok, rfl⟩, -⟩ := h.exists
      exact ⟨ok, ha⟩

/-- A report of readiness in a wait that is interrupted does not end it. -/
theorem beside_of_interrupted (memory : Nat → Event → Option Nat) {t : Connecting} {l : List Act}
    (hint : Happens (Connecting.act memory) (fun t a => t.Ends memory a ∧ t.Foreign a) t l)
    (h : Happens (Connecting.act memory) Connecting.Readiness t l) :
    Happens (Connecting.act memory) (fun t a => t.Readiness a ∧ ¬ t.Ends memory a) t l := by
  obtain h | h := Happens.sets_once (fun t a => (act_after memory t a).handed) hint h
  · exact h
  · obtain ⟨t, a, -, hr, hf⟩ := h.exists
    cases a with
    | event op =>
      cases op with
      | report => exact hf.elim
      | _ => cases hr
    | earlier => exact hr.elim
    | timer => exact hr.elim

/-- Readiness that is reported ends the wait, or is reported beside it. -/
theorem reported_iff (memory : Nat → Event → Option Nat) (env : Surroundings) (timeout_ms : UInt64) (hi : Inv s.io)
    (hgoes : (s.fresh.goesOn memory env timeout_ms).Resumed)
    (hout : ¬ ((s.fresh.registration memory env timeout_ms).1 = 0 ∧ env.TimesOut timeout_ms)) :
    s.fresh.Reported memory env timeout_ms ↔
      (s.fresh.registration memory env timeout_ms).1 = 0 ∧ ¬ s.fresh.Interrupted memory env timeout_ms ∨
        s.fresh.Beside memory env timeout_ms := by
  unfold Connecting.Reported Connecting.Beside
  constructor
  · rintro (h | ⟨hrt, h⟩)
    · exact .inr (.inl h)
    · by_cases hint : s.fresh.Interrupted memory env timeout_ms
      · exact .inr (.inr ⟨hrt, beside_of_interrupted memory hint h⟩)
      · exact .inl ⟨hrt, hint⟩
  · rintro (⟨hrt, hint⟩ | h | ⟨hrt, h⟩)
    · have hregistered : (s.fresh.goesOn memory env timeout_ms).registered = true := by
        rw [Connecting.goesOn, if_pos hrt, (acts_after memory _ env.during).registered]
        exact (registration_spec memory env timeout_ms hi).1.1 hrt
      obtain h | h := wait_ends memory env timeout_ms hi hrt (fun h => hout ⟨hrt, h⟩) (hgoes.2 hregistered)
      · exact .inr ⟨hrt, h⟩
      · exact (hint h).elim
    · exact .inl h
    · exact .inr ⟨hrt, Happens.imp (I := fun _ => True) (fun _ _ h => h) (fun _ _ _ h => h.1) trivial h⟩

/-- A connect in progress, with any operations of other threads and of the idle fiber beside it. A return value of 0
stands for a connection, exactly if the call does not wait, `SO_ERROR` tells a failure, or `addEvent` succeeds and the
timer or a later report ends the wait; and where it is another thread or an earlier report, or `addEvent` fails, if
readiness is reported beside the wait. -/
theorem connect_established_iff {l : List (Events.Op Nat Unit × Events.Result Nat Unit)}
    (hio : Lts.Run (Events.Step memory) (IOManager.init memory) l s.io)
    (hret : env.ret = -1) (herrno : env.errno = EINPROGRESS)
    (hgoes : (s.fresh.goesOn memory env timeout_ms).Resumed) :
    ∃ n s', (connectWithTimeout true s.sock addr addrlen timeout_ms).run (Connecting.handle memory env) s.fresh =
        .ret n s' ∧
      ((n = 0 → s.fresh.Reported memory env timeout_ms ∧ env.soError.2 = 0) ↔
        ¬ s.fresh.Waits ∨ env.soError.1 = -1 ∨ env.soError.2 ≠ 0 ∨
          ((s.fresh.registration memory env timeout_ms).1 = 0 ∧
            (env.TimesOut timeout_ms ∨ ¬ s.fresh.Interrupted memory env timeout_ms)) ∨
          s.fresh.Beside memory env timeout_ms) := by
  have hi := Events.run_inv hio
  by_cases hw : s.fresh.Waits
  · obtain ⟨s', hrun⟩ := awaitConnect_result memory env timeout_ms s.fresh
    refine ⟨_, s', (run_waits memory hw hret herrno).trans hrun, ?_⟩
    by_cases hout : (s.fresh.registration memory env timeout_ms).1 = 0 ∧ env.TimesOut timeout_ms
    · -- the timer ended the wait
      rw [if_pos ⟨hout.1, (timesOut_iff memory env timeout_ms hout.1).2 hout.2⟩]
      exact iff_of_true (fun h => by cases h) (.inr (.inr (.inr (.inl ⟨hout.1, .inl hout.2⟩))))
    · rw [if_neg fun h => hout ⟨h.1, (timesOut_iff memory env timeout_ms h.1).1 h.2⟩, Surroundings.result]
      have hreported := reported_iff memory env timeout_ms hi hgoes hout
      by_cases hrt : env.soError.1 = -1
      · rw [if_pos hrt]
        exact iff_of_true (fun h => by cases h) (.inr (.inl hrt))
      by_cases herror : env.soError.2 = 0
      · rw [if_neg hrt, if_pos herror]
        constructor
        · intro h
          obtain ⟨hreg, hint⟩ | hbeside := hreported.1 (h rfl).1
          · exact .inr (.inr (.inr (.inl ⟨hreg, .inr hint⟩)))
          · exact .inr (.inr (.inr (.inr hbeside)))
        · rintro (h | h | h | ⟨hreg, htime | hint⟩ | h) -
          · exact (h hw).elim
          · exact (hrt h).elim
          · exact (h herror).elim
          · exact (hout ⟨hreg, htime⟩).elim
          · exact ⟨hreported.2 (.inl ⟨hreg, hint⟩), herror⟩
          · exact ⟨hreported.2 (.inr h), herror⟩
      · rw [if_neg hrt, if_neg herror]
        exact iff_of_true (fun h => by cases h) (.inr (.inr (.inl herror)))
  · obtain ⟨s', hrun⟩ := run_not_waits memory hw hret
    exact ⟨-1, s', hrun, iff_of_true (fun h => by cases h) (.inl hw)⟩

end Call

/-- A call on a socket of a new `IOManager`. -/
def newCall : Connecting where
  world := { files := fun _ => none, datas := fun _ => some ⟨true, true, true, false, false, ~~~0, ~~~0⟩ }
  io := IOManager.init fun _ _ => none
  errno := 0
  sock := 3
  fiber := 7

/-- A connect in progress, of which `SO_ERROR` is zero, with some actions while the fiber is held. -/
def inProgress (during : List Act) : Surroundings := ⟨-1, EINPROGRESS, [], true, during, 0, 0⟩

/-- Another thread cancels the event for reading, which nobody has registered, and then readiness for writing is
reported. -/
def writable : List Act :=
  [.event (.cancelEvent 3 .read true), .event (.report 3 ⟨false, true, false, false⟩ true)]

/-- `connect_established_iff` where readiness for writing is reported before the timeout. -/
theorem connect_established_iff_reported : ∃ n s',
    (connectWithTimeout true 3 0 16 5000).run (Connecting.handle (fun _ _ => none) (inProgress writable))
      newCall.fresh = .ret n s' ∧
    (n = 0 → newCall.fresh.Reported (fun _ _ => none) (inProgress writable) 5000) := by
  obtain ⟨n, s', hrun, hiff⟩ := @connect_established_iff (fun _ _ => none) (inProgress writable) newCall 0 16 5000 []
    .nil rfl rfl ⟨rfl, fun _ => rfl⟩
  refine ⟨n, s', hrun, fun h => (hiff.2 (.inr (.inr (.inr (.inl ⟨rfl, .inr ?_⟩)))) h).1⟩
  rintro (⟨-, h⟩ | ⟨-, h⟩ | h)
  · cases h.2
  · exact h
  · exact h

/-- The cancellation of the event by another thread, of a connect still in progress, is taken for a connection. -/
theorem cancelled_not_established : ¬ ∀ (memory : Nat → Event → Option Nat) (env : Surroundings) (s : Connecting)
    (addr : Ptr) (addrlen : UInt32) (timeout_ms : UInt64) (l : List (Events.Op Nat Unit × Events.Result Nat Unit)),
    Lts.Run (Events.Step memory) (IOManager.init memory) l s.io → env.ret = -1 → env.errno = EINPROGRESS →
    (s.fresh.goesOn memory env timeout_ms).Resumed → ∀ s',
    (connectWithTimeout true s.sock addr addrlen timeout_ms).run (Connecting.handle memory env) s.fresh = .ret 0 s' →
    s.fresh.Reported memory env timeout_ms ∧ env.soError.2 = 0 := by
  intro h
  obtain ⟨hreported, -⟩ := h (fun _ _ => none) (inProgress [.event (.cancelEvent 3 .write true)]) newCall 0 16 (~~~0) []
    .nil rfl rfl ⟨rfl, fun _ => rfl⟩ _ rfl
  rcases hreported with h | ⟨-, h | h⟩
  · exact h
  · cases h
  · exact h

end ServerFrame.Wrappers
