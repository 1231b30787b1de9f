/-
Wake-ups: a task is pushed without a tickle when the queue was not empty, `tickle()` does nothing when
no thread is counted as idle, and a scan that takes a task leaves the rest of the queue to nobody. A
thread that sleeps in `epoll_wait`, or has made its empty scan and is on its way there, may then have
a task it could run and nothing that will wake it.
-/
import ServerFrame.Scheduler.Basic
import ServerFrame.Lib.Run

namespace ServerFrame.Schedulers

universe u v

variable {T : Type u} {C : Type v}

/-! ## Sleepers and wake-ups -/

/-- Asleep, or on the way there: the thread has found nothing and will not scan before `epoll_wait`
has returned. -/
def Pc.asleep : Pc C → Bool
  | .scanned none | .tickling none | .chosen none | .idling | .blocked => true
  | _ => false

/-- About to scan the queue, or in the `tickle()` of a scan. -/
def Pc.alert : Pc C → Bool
  | .scan | .woken | .scanned _ | .tickling _ => true
  | .task _ _ .yielding | .task _ _ .returned | .task _ _ .inspecting | .task _ _ .requeue | .task _ _ .assign => true
  | _ => false

/-- Executing a task. -/
def Pc.executing : Pc C → Bool
  | .task _ _ .running | .task _ _ .armed => true
  | _ => false

namespace Sched

variable (s : Sched T C)

/-- A wake-up is under way: an unread byte, a `tickle()` in progress, or a thread about to scan. -/
def Underway : Prop := 0 < s.pipe ∨ 0 < s.owed ∨ 0 < s.writes ∨ ∃ u, (s.pc u).alert = true

/-- No sleeping thread could run a task of `q`. -/
def Quiet (q : List (Entry T C)) : Prop := ∀ t e, (s.pc t).asleep = true → e ∈ q → Skipped s.fibers t e

/-- The lost wake-up: a thread blocked in `epoll_wait` could run a queued task, there is no unread byte
and no `tickle()` in progress, and every other thread is blocked or executing a task. -/
def Lost : Prop :=
  ∃ t e, e ∈ s.queue ∧ ¬ Skipped s.fibers t e ∧ s.pc t = .blocked ∧ s.pipe = 0 ∧ s.owed = 0 ∧ s.writes = 0 ∧
    ∀ u, u ≠ t → s.pc u = .blocked ∨ (s.pc u).executing = true

/-- The invariant: a wake-up is under way, or no sleeping thread could run a queued task. -/
def Guarded : Prop := s.Underway ∨ s.Quiet s.queue

/-- Where the code wakes nobody, nobody has to be woken: a push behind other tasks, a `tickle()` that
finds no idle thread, and a scan that takes a task without having skipped a pinned one, leave no
task that a sleeping thread could run, unless some other wake-up is under way. -/
def Noticed [DecidableEq T] : Act T C → Prop
  | .schedule task thread => s.queue = [] ∨ s.Underway ∨ s.Quiet [⟨task, thread⟩]
  | .test => s.idle ≠ 0 ∨ Underway { s with owed := s.owed - 1 } ∨ s.Quiet s.queue
  | .scanTest t => s.idle ≠ 0 ∨ (s.goto t .blocked).Underway ∨ s.Quiet s.queue
  | .scan t => (pick s.fibers t s.queue).1 = none ∨ (pick s.fibers t s.queue).2.2 = true ∨
      (s.goto t .blocked).Underway ∨ s.Quiet (pick s.fibers t s.queue).2.1
  | _ => True

end Sched

theorem Sched.Underway.of_alert {s : Sched T C} {t : T} (h : (s.pc t).alert = true) : s.Underway :=
  .inr (.inr (.inr ⟨t, h⟩))

theorem Sched.Guarded.not_lost {s : Sched T C} (h : s.Guarded) : ¬ s.Lost := by
  rintro ⟨t, e, he, hs, ht, hp, ho, hw, hu⟩
  rcases h with (h | h | h | ⟨u, h⟩) | h
  · omega
  · omega
  · omega
  · by_cases hut : u = t
    · rw [hut, ht] at h
      cases h
    · rcases hu u hut with hb | hx
      · rw [hb] at h
        cases h
      · unfold Pc.alert at h
        unfold Pc.executing at hx
        split at hx <;> simp_all
  · exact hs (h t e (by rw [ht]; rfl) he)

theorem Skipped.mono {fibers fibers' : Nat → Option FiberState} {t : T} {e : Entry T C} (h : Skipped fibers t e)
    (hf : ∀ f, fibers f = some .exec → fibers' f = some .exec) : Skipped fibers' t e := by
  rcases h with h | h
  · exact .inl h
  · obtain ⟨f, he, hx⟩ := Option.bind_eq_some_iff.1 h
    exact .inr (Option.bind_eq_some_iff.2 ⟨f, he, hf f hx⟩)

/-- A write to a state that does not take a fiber out of `EXEC`. -/
theorem setState_exec {s : Sched T C} {f : Nat} {x : FiberState} (h : s.fibers f = some .exec → x = .exec) (g : Nat)
    (hg : s.fibers g = some .exec) : (s.setState f x).fibers g = some .exec := by
  by_cases hgf : g = f
  · subst hgf
    simp [Sched.setState, h hg]
  · simpa [Sched.setState, Function.update_of_ne hgf] using hg

theorem guarded_of_alert {s : Sched T C} {t : T} (h : (s.pc t).alert = true) : s.Guarded := .inl (.of_alert h)

theorem Sched.Underway.push {s : Sched T C} (h : s.Underway) (e : Entry T C) : (s.push e).Underway := by
  rcases h with h | h | h | h
  · exact .inl h
  · refine .inr (.inl ?_)
    simp only [Sched.push]
    split <;> omega
  · exact .inr (.inr (.inl h))
  · exact .inr (.inr (.inr h))

theorem push_guarded {s : Sched T C} (h : s.Guarded) {e : Entry T C} (he : s.queue = [] ∨ s.Underway ∨ s.Quiet [e]) :
    (s.push e).Guarded := by
  rcases he with he | he | he
  · refine .inl (.inr (.inl ?_))
    simp [Sched.push, he]
  · exact .inl (he.push e)
  · rcases h with h | h
    · exact .inl (h.push e)
    · right
      intro t x ht hx
      rcases List.mem_append.1 hx with hx | hx
      · exact h t x ht hx
      · exact he t x ht hx

/-! ## One step -/

section Step

variable [DecidableEq T] {s s' : Sched T C}

/-- A wake-up stays under way when a thread that is not alert moves. -/
theorem Sched.Underway.goto (h : s.Underway) {t : T} {p : Pc C} (ht : (s.pc t).alert = false) :
    (s.goto t p).Underway := by
  rcases h with h | h | h | ⟨u, hu⟩
  · exact .inl h
  · exact .inr (.inl h)
  · exact .inr (.inr (.inl h))
  · refine .inr (.inr (.inr ⟨u, ?_⟩))
    have hne : u ≠ t := by
      rintro rfl
      rw [ht] at hu
      cases hu
    simpa [Sched.goto, Function.update_of_ne hne] using hu

theorem asleep_goto {t u : T} {p : Pc C} (hp : p.asleep = true → (s.pc t).asleep = true)
    (hu : ((s.goto t p).pc u).asleep = true) : (s.pc u).asleep = true := by
  by_cases hut : u = t
  · subst hut
    exact hp (by simpa [Sched.goto] using hu)
  · simpa [Sched.goto, Function.update_of_ne hut] using hu

/-- A thread moves that was not alert, and is asleep after the move only if it was before; the queue,
the pipe and the tickles stay and no fiber leaves the state `EXEC`. -/
theorem guarded_goto (h : s.Guarded) {t : T} {p : Pc C} (ht : (s.pc t).alert = false)
    (hp : p.asleep = true → (s.pc t).asleep = true) (hpc : s'.pc = (s.goto t p).pc) (hq : s'.queue = s.queue)
    (hf : ∀ f, s.fibers f = some .exec → s'.fibers f = some .exec) (hpipe : s'.pipe = s.pipe) (ho : s'.owed = s.owed)
    (hw : s'.writes = s.writes) : s'.Guarded := by
  rcases h with h | h
  · left
    have := h.goto (p := p) ht
    unfold Sched.Underway at this ⊢
    rw [hpc, hpipe, ho, hw]
    exact this
  · right
    intro u e hu he
    rw [hq] at he
    rw [hpc] at hu
    exact (h u e (asleep_goto hp hu) he).mono hf

/-- Without the thread `t`, a wake-up is under way: so it is wherever `t` goes. -/
theorem Sched.Underway.others {t : T} {p : Pc C} (h : (s.goto t .blocked).Underway) (hpc : s'.pc = (s.goto t p).pc)
    (hpipe : s'.pipe = s.pipe) (ho : s'.owed = s.owed) (hw : s'.writes = s.writes) : s'.Underway := by
  have := h.goto (t := t) (p := p) (by simp [Sched.goto, Pc.alert])
  simp only [Sched.goto, Function.update_idem] at this
  unfold Sched.Underway at this ⊢
  rw [hpc, hpipe, ho, hw]
  exact this

theorem test_guarded (hs : s.Step .test s') (ha : s.Noticed .test) : s'.Guarded := by
  obtain ⟨-, ⟨hi, rfl⟩ | ⟨-, rfl⟩⟩ := Sched.next_test hs
  · rcases ha with ha | ha | ha
    · exact absurd hi ha
    · exact .inl ha
    · exact .inr ha
  · exact .inl (.inr (.inr (.inl (Nat.succ_pos _))))

theorem scan_guarded {t : T} (hs : s.Step (.scan t) s') (ha : s.Noticed (.scan t)) : s'.Guarded := by
  obtain ⟨-, rfl⟩ := Sched.next_scan hs
  rcases pick_spec s.fibers t s.queue with ⟨h1, h2, h3, h4⟩ | ⟨a, e, b, hq, h1, h2, -, -, -⟩
  · cases hb : (pick s.fibers t s.queue).2.2 with
    | true => exact guarded_of_alert (t := t) (by simp [Sched.goto, Pc.alert])
    | false =>
      -- nothing found and nothing pinned elsewhere: what is left is in state `EXEC`
      rw [hb] at h4
      right
      intro u e hu he
      have he : e ∈ s.queue := by rw [← h2]; exact he
      refine (h3 e he).elim (fun hp => absurd (h4.2 ⟨e, he, hp⟩) (by simp)) .inr
  · rcases ha with ha | ha | ha | ha
    · rw [h1] at ha
      cases ha
    · rw [ha]
      exact guarded_of_alert (t := t) (by simp [Sched.goto, Pc.alert])
    · exact .inl (ha.others rfl rfl rfl rfl)
    · right
      intro u x hu hx
      refine ha u x (asleep_goto (t := t) (p := _) ?_ hu) hx
      rw [h1]
      split <;> (intro hc; cases hc)

theorem scanTest_guarded {t : T} (hs : s.Step (.scanTest t) s') (ha : s.Noticed (.scanTest t)) : s'.Guarded := by
  obtain ⟨ft, hpc, rfl⟩ := Sched.next_scanTest hs
  by_cases hi : s.idle = 0
  · rw [if_pos hi]
    rcases ha with ha | ha | ha
    · exact absurd hi ha
    · exact .inl (ha.others rfl rfl rfl rfl)
    · refine .inr fun u e hu he => ha u e (asleep_goto (t := t) (p := .chosen ft) ?_ hu) he
      rw [hpc]
      cases ft <;> exact id
  · rw [if_neg hi]
    exact guarded_of_alert (t := t) (by simp [Sched.goto, Pc.alert])

theorem dispatch_guarded (h : s.Guarded) {t : T} {g : Nat} (hs : s.Step (.dispatch t g) s') : s'.Guarded := by
  rcases Sched.next_dispatch hs with ⟨f, hpc, ⟨-, rfl⟩ | ⟨-, rfl⟩⟩ |
    ⟨c, hpc, ⟨f, -, hf, rfl⟩ | ⟨-, hf, rfl⟩⟩ | ⟨hpc, rfl⟩
  · exact guarded_of_alert (t := t) (by simp [Sched.goto, Pc.alert])
  · exact guarded_goto h (t := t) (by rw [hpc]; rfl) (fun hc => by cases hc) rfl rfl (fun _ hx => hx) rfl rfl rfl
  · refine guarded_goto h (t := t) (by rw [hpc]; rfl) (fun hc => by cases hc) rfl rfl
      (setState_exec fun hx => ?_) rfl rfl rfl
    simp [Sched.ended, hx] at hf
  · refine guarded_goto h (t := t) (by rw [hpc]; rfl) (fun hc => by cases hc) rfl rfl
      (setState_exec fun hx => ?_) rfl rfl rfl
    rw [hf] at hx
    cases hx
  · exact guarded_goto h (t := t) (by rw [hpc]; rfl) (fun _ => by rw [hpc]; rfl) rfl rfl (fun _ hx => hx) rfl rfl rfl

/-- One step keeps the invariant, if it wakes somebody wherever somebody has to be woken. -/
theorem step_guarded (h : s.Guarded) {a : Act T C} (hs : s.Step a s') (ha : s.Noticed a) : s'.Guarded := by
  cases a with
  | create f =>
    obtain ⟨hf, rfl⟩ := Sched.next_create hs
    rcases h with h | h
    · exact .inl h
    · refine .inr fun t e ht he => (h t e ht he).mono (setState_exec (x := .init) fun hx => ?_)
      rw [hf] at hx
      cases hx
  | schedule task thread =>
    cases task with
    | fiber f =>
      obtain ⟨-, rfl⟩ := Sched.next_schedule hs
      exact push_guarded h ha
    | cb c =>
      cases hs
      exact push_guarded h ha
  | test => exact test_guarded hs ha
  | write =>
    obtain ⟨-, rfl⟩ := Sched.next_write hs
    exact .inl (.inl (Nat.succ_pos _))
  | scan t => exact scan_guarded hs ha
  | scanTest t => exact scanTest_guarded hs ha
  | scanWrite t =>
    obtain ⟨ft, -, rfl⟩ := Sched.next_scanWrite hs
    exact .inl (.inl (Nat.succ_pos _))
  | dispatch t g => exact dispatch_guarded h hs
  | swapIn t =>
    obtain ⟨f, cb, hpc, -, rfl⟩ := Sched.next_swapIn hs
    exact guarded_goto h (t := t) (by rw [hpc]; rfl) (fun hc => by cases hc) rfl rfl
      (setState_exec fun _ => rfl) rfl rfl rfl
  | arm t =>
    obtain ⟨f, cb, hpc, rfl⟩ := Sched.next_arm hs
    exact guarded_goto h (t := t) (by rw [hpc]; rfl) (fun hc => by cases hc) rfl rfl (fun _ hx => hx) rfl rfl rfl
  | block t =>
    obtain ⟨hpc, rfl⟩ := Sched.next_block hs
    exact guarded_goto h (t := t) (by rw [hpc]; rfl) (fun _ => by rw [hpc]; rfl) rfl rfl (fun _ hx => hx) rfl rfl rfl
  | drain t =>
    obtain ⟨hpc, rfl⟩ := Sched.next_drain hs
    exact guarded_of_alert (t := t) (by simp [hpc, Pc.alert])
  | yieldToHold t | yieldToReady t | finish t _ | save t | decrement t | inspect t | requeue t | assign t | wake t
    | leave t =>
    -- the thread is awake behind the action, and scans before it sleeps
    refine guarded_of_alert (t := t) ?_
    simp only [Sched.Step, Sched.next] at hs
    repeat' split at hs
    all_goals cases hs
    all_goals simp [Sched.goto, Pc.alert]

end Step

/-! ## Runs -/

theorem init_guarded : (Sched.init : Sched T C).Guarded := .inr fun _ _ _ he => by cases he

/-- No lost wake-up. For any set of threads and in every interleaving of `schedule()` calls, scans,
tasks, entries into `epoll_wait`, tickles and drains: if every push behind other tasks, every tickle
dropped for want of an idle thread and every scan that takes a task leaves no task that a sleeping
thread could run, or is made while another wake-up is under way, then no state is reached in which
a blocked thread could run a queued task and nothing will wake it. -/
theorem no_lost_wakeup [DecidableEq T] {s : Sched T C} {l : List (Act T C)}
    (h : Lts.Run (fun s a s' => s.Step a s' ∧ s.Noticed a) Sched.init l s) : ¬ s.Lost :=
  (h.invariant init_guarded fun _ _ _ hg hs => step_guarded hg hs.1 hs.2).not_lost

/-- One thread has made its empty scan and is not counted as idle yet when a callback is scheduled: the
tickle is dropped and the thread goes to sleep. -/
theorem dropped_tickle_lost : ¬ ∀ (l : List (Act Unit Unit)) (s : Sched Unit Unit),
    Lts.Run Sched.Step Sched.init l s → ¬ s.Lost := by
  intro h
  have hr : ∃ s1 s2 s3 s4 s5 : Sched Unit Unit, Sched.init.Step (.scan ()) s1 ∧ s1.Step (.schedule (.cb ()) none) s2 ∧
      s2.Step .test s3 ∧ s3.Step (.dispatch () 0) s4 ∧ s4.Step (.block ()) s5 ∧
      s5.queue = [⟨.cb (), none⟩] ∧ s5.pc () = .blocked ∧ s5.pipe = 0 ∧ s5.owed = 0 ∧ s5.writes = 0 :=
    ⟨_, _, _, _, _, rfl, rfl, rfl, rfl, rfl, rfl, rfl, rfl, rfl, rfl⟩
  obtain ⟨s1, s2, s3, s4, s5, h1, h2, h3, h4, h5, hq, hpc, hp, ho, hw⟩ := hr
  refine h _ s5 (.cons h1 (.cons h2 (.cons h3 (.cons h4 (.single h5)))))
    ⟨(), ⟨.cb (), none⟩, by simp [hq], ?_, hpc, hp, ho, hw, ?_⟩
  · rintro (⟨hn, -⟩ | hx)
    · exact hn rfl
    · cases hx
  · exact fun u hu => absurd rfl hu

/-- A callback scheduled while the thread sleeps puts a byte into the pipe. -/
theorem no_lost_wakeup_sleeping : ∃ s : Sched Unit Unit,
    Lts.Run (fun s a s' => s.Step a s' ∧ s.Noticed a) Sched.init
      [.scan (), .dispatch () 0, .block (), .schedule (.cb ()) none, .test, .write] s ∧
    s.pc () = .blocked ∧ s.pipe = 1 ∧ ¬ s.Lost := by
  have hr : ∃ s1 s2 s3 s4 s5 s6 : Sched Unit Unit, Sched.init.Step (.scan ()) s1 ∧ s1.Step (.dispatch () 0) s2 ∧
      s2.Step (.block ()) s3 ∧ (s3.Step (.schedule (.cb ()) none) s4 ∧ s3.queue = []) ∧
      (s4.Step .test s5 ∧ s4.idle ≠ 0) ∧ s5.Step .write s6 ∧ s6.pc () = .blocked ∧ s6.pipe = 1 :=
    ⟨_, _, _, _, _, _, rfl, rfl, rfl, ⟨rfl, rfl⟩, ⟨rfl, by decide⟩, rfl, rfl, rfl⟩
  obtain ⟨s1, s2, s3, s4, s5, s6, h1, h2, h3, h4, h5, h6, hpc, hp⟩ := hr
  have hrun : Lts.Run (fun s a s' => s.Step a s' ∧ s.Noticed a) Sched.init
      [.scan (), .dispatch () 0, .block (), .schedule (.cb ()) none, .test, .write] s6 :=
    .cons ⟨h1, .inl rfl⟩ (.cons ⟨h2, trivial⟩ (.cons ⟨h3, trivial⟩ (.cons ⟨h4.1, .inl h4.2⟩
      (.cons ⟨h5.1, .inl h5.2⟩ (.single ⟨h6, trivial⟩)))))
  exact ⟨s6, hrun, hpc, hp, no_lost_wakeup hrun⟩

end ServerFrame.Schedulers
