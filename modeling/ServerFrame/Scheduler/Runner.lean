/-
One runner per fiber. The right to resume a fiber next is in one place at a time: with whoever may
still schedule it, in the queue, with the thread that took it or runs it, or with the thread whose
`cb_fiber` it is. The thread that ran a fiber last keeps working on it for a while after the yield has
written the state (it saves the context, inspects the state and assigns `HOLD`); a scan that takes the
fiber in that window puts two threads on it.
-/
import ServerFrame.Scheduler.Basic
import ServerFrame.Lib.Run

namespace ServerFrame.Schedulers

universe u v

variable {T : Type u} {C : Type v}

/-! ## Who is on a fiber -/

/-- The fiber a thread has taken from the queue or works on. -/
def Pc.on : Pc C → Option Nat
  | .scanned ft | .tickling ft | .chosen ft => ft.bind Task.fiber?
  | .task f _ _ => some f
  | _ => none

/-- The thread works on its `cb_fiber`. -/
def Pc.isCb : Pc C → Bool
  | .task _ cb _ => cb
  | _ => false

/-- The thread executes on the fiber. -/
def Pc.runs (f : Nat) : Pc C → Bool
  | .task g _ .running | .task g _ .armed => g = f
  | _ => false

/-- A thread on a fiber in state `st` holds the right to resume it next: not when it has registered a
wake-up, or has suspended itself in state `HOLD`. -/
def Pc.holds (st : Option FiberState) : Pc C → Bool
  | .task _ _ .armed | .task _ _ .assign => false
  | .task _ _ .yielding | .task _ _ .returned | .task _ _ .inspecting => st ≠ some .hold
  | _ => true

/-- The place of the right to resume a fiber. -/
inductive Right (T : Type u)
  | nobody
  | waker
  | queue
  | thread (t : T)
  | parked (t : T)

namespace Sched

variable (s : Sched T C)

/-- The fibers of the queue. -/
def queued : List Nat := s.queue.filterMap fun e => e.task.fiber?

/-- The thread works on the fiber, or has it as its `cb_fiber`. -/
def Owns (t : T) (f : Nat) : Prop := (s.pc t).on = some f ∨ s.cbFiber t = some f

end Sched

/-- What holds of one fiber, with the right to resume it at `r`. -/
structure Held (s : Sched T C) (f : Nat) (r : Right T) : Prop where
  waker : s.wakeable f = true → r = .waker
  queue : f ∈ s.queued → r = .queue
  once : s.queued.count f ≤ 1
  thread : ∀ t, (s.pc t).on = some f → (s.pc t).holds (s.fibers f) = true → r = .thread t
  parked : ∀ t, s.cbFiber t = some f → (s.pc t).on ≠ some f → r = .parked t
  single : ∀ t u, s.Owns t f → s.Owns u f → t = u
  exec : ∀ t, (s.pc t).runs f = true → s.fibers f = some .exec
  flag : ∀ t, (s.pc t).on = some f → ((s.pc t).isCb = true ↔ s.cbFiber t = some f)
  born : s.fibers f = none → r = .nobody ∧ ∀ t, ¬ s.Owns t f

/-- The invariant of all fibers. -/
def Sched.Orderly (s : Sched T C) : Prop := ∀ f, ∃ r, Held s f r

theorem Pc.on_of_runs {f : Nat} {p : Pc C} (h : p.runs f = true) : p.on = some f := by
  unfold Pc.runs at h
  split at h <;> simp_all [Pc.on]

/-! ## What a step leaves alone -/

section Frame

variable {s s' : Sched T C} {f : Nat} {r : Right T}

/-- The position `p'` says no more about the fiber than `p` did. -/
structure Pc.Within (f : Nat) (st : Option FiberState) (p p' : Pc C) : Prop where
  on : p'.on = some f → p.on = some f
  holds : p'.on = some f → p'.holds st = true → p.holds st = true
  isCb : p'.on = some f → p'.isCb = p.isCb
  runs : p'.runs f = true → p.runs f = true

theorem Pc.Within.refl (f : Nat) (st : Option FiberState) (p : Pc C) : p.Within f st p :=
  ⟨id, fun _ => id, fun _ => rfl, id⟩

theorem Pc.Within.of_off {st : Option FiberState} {p p' : Pc C} (h : p'.on ≠ some f) : p.Within f st p' :=
  ⟨fun h' => absurd h' h, fun h' => absurd h' h, fun h' => absurd h' h, fun h' => absurd (Pc.on_of_runs h') h⟩

/-- A step that says no more about a fiber than was known, and lets no thread off its `cb_fiber`. -/
theorem Held.frame (h : Held s f r) (hw : s'.wakeable f = s.wakeable f) (hq : s'.queued.count f = s.queued.count f)
    (hf : s'.fibers f = s.fibers f) (hpc : ∀ t, (s.pc t).Within f (s.fibers f) (s'.pc t))
    (hcb : ∀ t, s'.cbFiber t = some f ↔ s.cbFiber t = some f)
    (hoff : ∀ t, (s.pc t).on = some f → (s'.pc t).on ≠ some f → s.cbFiber t ≠ some f) : Held s' f r := by
  have howns : ∀ t, s'.Owns t f → s.Owns t f := fun t => by
    rintro (ho | ho)
    · exact .inl ((hpc t).on ho)
    · exact .inr ((hcb t).1 ho)
  have hmem : f ∈ s'.queued → f ∈ s.queued := fun hm => by
    rw [← List.count_pos_iff, ← hq, List.count_pos_iff]
    exact hm
  refine ⟨fun hx => h.waker (hw ▸ hx), fun hm => h.queue (hmem hm), hq ▸ h.once, fun t ho hh => ?_, fun t hc ho => ?_,
    fun t u ht hu => h.single t u (howns t ht) (howns u hu), fun t hr => ?_, fun t ho => ?_, fun hn => ?_⟩
  · rw [hf] at hh
    exact h.thread t ((hpc t).on ho) ((hpc t).holds ho hh)
  · have hc := (hcb t).1 hc
    refine h.parked t hc fun ho' => hoff t ho' ho hc
  · rw [hf]
    exact h.exec t ((hpc t).runs hr)
  · rw [(hpc t).isCb ho, hcb t]
    exact h.flag t ((hpc t).on ho)
  · rw [hf] at hn
    obtain ⟨hr, hno⟩ := h.born hn
    exact ⟨hr, fun t ht => hno t (howns t ht)⟩

/-- A fiber on which at most one thread is left. -/
theorem Held.of_owner {t : T} (hother : ∀ u, u ≠ t → ¬ s.Owns u f) (hw : s.wakeable f = true → r = .waker)
    (hq : f ∈ s.queued → r = .queue) (hone : s.queued.count f ≤ 1)
    (ht : (s.pc t).on = some f → (s.pc t).holds (s.fibers f) = true → r = .thread t)
    (hp : s.cbFiber t = some f → (s.pc t).on ≠ some f → r = .parked t)
    (hx : (s.pc t).runs f = true → s.fibers f = some .exec)
    (hfl : (s.pc t).on = some f → ((s.pc t).isCb = true ↔ s.cbFiber t = some f)) (hb : s.fibers f ≠ none) :
    Held s f r := by
  have only : ∀ u, s.Owns u f → u = t := fun u hu => by
    by_contra hne
    exact hother u hne hu
  refine ⟨hw, hq, hone,
    fun u ho hh => ?_, fun u hc ho => ?_, fun u v hu hv => by rw [only u hu, only v hv], fun u hr => ?_,
    fun u ho => ?_, fun hn => absurd hn hb⟩
  · have := only u (.inl ho)
    subst this
    exact ht ho hh
  · have := only u (.inr hc)
    subst this
    exact hp hc ho
  · have := only u (.inl (Pc.on_of_runs hr))
    subst this
    exact hx hr
  · have := only u (.inl ho)
    subst this
    exact hfl ho

/-- A step that changes neither fibers nor queue nor threads. -/
theorem Sched.Orderly.same (h : s.Orderly) (hw : s'.wakeable = s.wakeable) (hq : s'.queued = s.queued)
    (hf : s'.fibers = s.fibers) (hpc : s'.pc = s.pc) (hcb : s'.cbFiber = s.cbFiber) : s'.Orderly := by
  intro f
  obtain ⟨r, hr⟩ := h f
  refine ⟨r, hr.frame (by rw [hw]) (by rw [hq]) (by rw [hf]) (fun t => ?_) (fun t => by rw [hcb]) (fun t h1 h2 => ?_)⟩
  · rw [hpc]
    exact .refl ..
  · rw [hpc] at h2
    exact absurd h1 h2

end Frame

section Moves

variable [DecidableEq T] {s s' : Sched T C} {t : T} {p : Pc C}

theorem goto_pc_self : (s.goto t p).pc t = p := by simp [Sched.goto]

theorem goto_pc_of_ne {u : T} (h : u ≠ t) : (s.goto t p).pc u = s.pc u := by simp [Sched.goto, Function.update_of_ne h]

/-- A thread moves to a position that says no more about any fiber, and not off its `cb_fiber`. -/
theorem Sched.Orderly.move (h : s.Orderly) (hin : ∀ f, (s.pc t).Within f (s.fibers f) p)
    (hoff : ∀ f, (s.pc t).on = some f → p.on ≠ some f → (s.pc t).isCb = false) (hpc : s'.pc = (s.goto t p).pc)
    (hw : s'.wakeable = s.wakeable) (hq : s'.queued = s.queued) (hf : s'.fibers = s.fibers)
    (hcb : s'.cbFiber = s.cbFiber) : s'.Orderly := by
  intro f
  obtain ⟨r, hr⟩ := h f
  refine ⟨r, hr.frame (by rw [hw]) (by rw [hq]) (by rw [hf]) (fun u => ?_) (fun u => by rw [hcb])
    (fun u h1 h2 h3 => ?_)⟩
  · rw [hpc]
    by_cases hu : u = t
    · rw [hu, goto_pc_self]
      exact hin f
    · rw [goto_pc_of_ne hu]
      exact .refl ..
  · rw [hpc] at h2
    by_cases hu : u = t
    · subst hu
      rw [goto_pc_self] at h2
      have := hoff f h1 h2
      rw [(hr.flag u h1).2 h3] at this
      cases this
    · rw [goto_pc_of_ne hu] at h2
      exact h2 h1

/-- A step of the thread `t` on the fiber `f`, which no other thread has: the other fibers are left alone. -/
theorem Sched.Orderly.act (h : s.Orderly) {f : Nat} (hother : ∀ u, u ≠ t → ¬ s.Owns u f)
    (hon : ∀ g, g ≠ f → (s.pc t).on ≠ some g) (hp : ∀ g, g ≠ f → p.on ≠ some g) (hpc : s'.pc = (s.goto t p).pc)
    (hw : ∀ g, g ≠ f → s'.wakeable g = s.wakeable g) (hq : ∀ g, g ≠ f → s'.queued.count g = s.queued.count g)
    (hf : ∀ g, g ≠ f → s'.fibers g = s.fibers g) (hcb : ∀ u, u ≠ t → s'.cbFiber u = s.cbFiber u)
    (hcbt : ∀ g, g ≠ f → (s'.cbFiber t = some g ↔ s.cbFiber t = some g))
    (hat : (∀ u, u ≠ t → ¬ s'.Owns u f) → s'.pc t = p → ∃ r, Held s' f r) : s'.Orderly := by
  intro g
  by_cases hg : g = f
  · subst hg
    refine hat (fun u hu => ?_) (by rw [hpc, goto_pc_self])
    have : s'.Owns u g ↔ s.Owns u g := by
      unfold Sched.Owns
      rw [hpc, goto_pc_of_ne hu, hcb u hu]
    rw [this]
    exact hother u hu
  · obtain ⟨r, hr⟩ := h g
    refine ⟨r, hr.frame (hw g hg) (hq g hg) (hf g hg) (fun u => ?_) (fun u => ?_) (fun u h1 h2 => ?_)⟩
    · rw [hpc]
      by_cases hu : u = t
      · rw [hu, goto_pc_self]
        exact .of_off (hp g hg)
      · rw [goto_pc_of_ne hu]
        exact .refl ..
    · by_cases hu : u = t
      · rw [hu]
        exact hcbt g hg
      · rw [hcb u hu]
    · by_cases hu : u = t
      · rw [hu] at h1
        exact absurd h1 (hon g hg)
      · rw [hpc, goto_pc_of_ne hu] at h2
        exact absurd h1 h2

/-- A step of a thread on the fiber it works on. -/
theorem Sched.Orderly.actOn (h : s.Orderly) {f : Nat} {cb : Bool} {st : Stage} (hpt : s.pc t = .task f cb st)
    (hp : ∀ g, g ≠ f → p.on ≠ some g) (hpc : s'.pc = (s.goto t p).pc)
    (hw : ∀ g, g ≠ f → s'.wakeable g = s.wakeable g) (hq : ∀ g, g ≠ f → s'.queued.count g = s.queued.count g)
    (hf : ∀ g, g ≠ f → s'.fibers g = s.fibers g) (hcb : ∀ u, u ≠ t → s'.cbFiber u = s.cbFiber u)
    (hcbt : ∀ g, g ≠ f → (s'.cbFiber t = some g ↔ s.cbFiber t = some g))
    (hat : ∀ r, Held s f r → (cb = true ↔ s.cbFiber t = some f) → (∀ u, u ≠ t → ¬ s'.Owns u f) → s'.pc t = p →
      ∃ r, Held s' f r) : s'.Orderly := by
  obtain ⟨r, hr⟩ := h f
  have hon : (s.pc t).on = some f := by rw [hpt]; rfl
  refine h.act (fun u hu ho => hu (hr.single u t ho (.inl hon))) (fun g hg => ?_) hp hpc hw hq hf hcb hcbt
    (hat r hr (by simpa [hpt, Pc.isCb] using hr.flag t hon))
  rw [hon]
  exact fun he => hg (Option.some.inj he).symm

/-- A step on a fiber that changes its state, and whether it may be woken, only. -/
theorem Sched.Orderly.turn (h : s.Orderly) {f : Nat} {cb : Bool} {st : Stage} (hpt : s.pc t = .task f cb st)
    (r' : Right T → Right T) (st' : Stage) (hpc : s'.pc = (s.goto t (.task f cb st')).pc)
    (hw : ∀ g, g ≠ f → s'.wakeable g = s.wakeable g) (hq : s'.queued = s.queued)
    (hf : ∀ g, g ≠ f → s'.fibers g = s.fibers g) (hcb : s'.cbFiber = s.cbFiber) (hb : s'.fibers f ≠ none)
    (hx : (Pc.task f cb st' : Pc C).runs f = true → s'.fibers f = some .exec)
    (hat : ∀ r, Held s f r → (s'.wakeable f = true → r' r = .waker) ∧ (f ∈ s.queued → r' r = .queue) ∧
      ((Pc.task f cb st' : Pc C).holds (s'.fibers f) = true → r' r = .thread t)) : s'.Orderly := by
  refine h.actOn (p := .task f cb st') hpt (fun g hg he => hg (Option.some.inj he).symm) hpc hw
    (fun _ _ => by rw [hq]) hf (fun _ _ => by rw [hcb])
    (fun _ _ => by rw [hcb]) fun r hr hflag hother hp => ?_
  obtain ⟨h1, h2, h3⟩ := hat r hr
  refine ⟨r' r, .of_owner hother h1 (fun hm => h2 (hq ▸ hm)) (hq ▸ hr.once) (fun _ hh => h3 (hp ▸ hh)) (fun _ ho => ?_)
    (fun hr => hx (hp ▸ hr)) (fun _ => ?_) hb⟩
  · exact absurd (by rw [hp]; rfl) ho
  · rw [hp, hcb]
    exact hflag

end Moves

/-! ## One step -/

/-- A scan does not take a fiber whose last runner is still in the window between the state that its
yield wrote and the end of `run()`'s work on it. -/
def Sched.Settled [DecidableEq T] (s : Sched T C) : Act T C → Prop
  | .scan t => ∀ f, (pick s.fibers t s.queue).1 = some (.fiber f) → ∀ u cb st, s.pc u = .task f cb st →
      st ≠ .yielding ∧ st ≠ .returned ∧ st ≠ .inspecting ∧ st ≠ .requeue ∧ st ≠ .assign
  | _ => True

section Step

variable {s s' : Sched T C}

theorem create_orderly (h : s.Orderly) {f : Nat} (hf : s.fibers f = none) :
    ((s.setState f .init).setWakeable f true).Orderly := by
  intro g
  obtain ⟨r, hr⟩ := h g
  by_cases hg : g = f
  · subst hg
    obtain ⟨rfl, hno⟩ := hr.born hf
    refine ⟨.waker, fun _ => rfl, fun hm => ?_, hr.once, fun t ho _ => absurd (.inl ho) (hno t),
      fun t hc _ => absurd (.inr hc) (hno t), fun t _ ht _ => absurd ht (hno t),
      fun t hx => absurd (.inl (Pc.on_of_runs hx)) (hno t), fun t ho => absurd (.inl ho) (hno t), fun hn => ?_⟩
    · cases hr.queue hm
    · simp [Sched.setState, Sched.setWakeable] at hn
  · refine ⟨r, hr.frame ?_ rfl ?_ (fun t => .refl ..) (fun t => Iff.rfl) (fun t h1 h2 => absurd h1 h2)⟩
    · simp [Sched.setState, Sched.setWakeable, Function.update_of_ne hg]
    · simp [Sched.setState, Sched.setWakeable, Function.update_of_ne hg]

theorem queued_push (s : Sched T C) (e : Entry T C) : (s.push e).queued = s.queued ++ e.task.fiber?.toList := by
  unfold Sched.queued Sched.push
  cases h : e.task.fiber? <;> simp [List.filterMap_append, h]

theorem schedule_orderly (h : s.Orderly) {f : Nat} {thread : Option T} (hw : s.wakeable f = true) :
    ((s.setWakeable f false).push ⟨.fiber f, thread⟩).Orderly := by
  intro g
  obtain ⟨r, hr⟩ := h g
  have hq : ((s.setWakeable f false).push ⟨.fiber f, thread⟩).queued = s.queued ++ [f] := queued_push _ _
  by_cases hg : g = f
  · subst hg
    have hrw := hr.waker hw
    subst hrw
    have hnot : g ∉ s.queued := fun hm => by cases hr.queue hm
    refine ⟨.queue,
      fun hx => ?_, fun _ => rfl, ?_, fun t ho hh => ?_, fun t hc ho => ?_, hr.single, hr.exec, hr.flag, fun hn => ?_⟩
    · simp [Sched.setWakeable, Sched.push] at hx
    · rw [hq, List.count_append, List.count_eq_zero_of_not_mem hnot]
      simp
    · cases hr.thread t ho hh
    · cases hr.parked t hc ho
    · cases (hr.born hn).1
  · refine ⟨r, hr.frame ?_ ?_ rfl (fun t => .refl ..) (fun t => Iff.rfl) (fun t h1 h2 => absurd h1 h2)⟩
    · simp [Sched.setWakeable, Sched.push, Function.update_of_ne hg]
    · rw [hq, List.count_append, List.count_singleton, if_neg (by simpa using Ne.symm hg), Nat.add_zero]

/-- A fiber whose turn in the queue has come, outside the window: no thread is on it. -/
theorem Held.free {f : Nat} {r : Right T} (hr : Held s f r) (hm : f ∈ s.queued) (hx : s.fibers f ≠ some .exec)
    (hset : ∀ u cb st, s.pc u = .task f cb st →
      st ≠ .yielding ∧ st ≠ .returned ∧ st ≠ .inspecting ∧ st ≠ .requeue ∧ st ≠ .assign) (t : T) : ¬ s.Owns t f := by
  have hq := hr.queue hm
  subst hq
  have hoff : (s.pc t).on ≠ some f := by
    intro ho
    -- the thread does not hold the right, so it is at a stage behind the registration of the wake-up
    cases hh : (s.pc t).holds (s.fibers f) with
    | true => cases hr.thread t ho hh
    | false =>
      cases hpc : s.pc t with
      | task g cb st =>
        rw [hpc] at ho hh
        cases ho
        have := hset t cb st hpc
        cases st with
        | armed => exact hx (hr.exec t (by simp [hpc, Pc.runs]))
        | yielding | returned | inspecting | requeue | assign => simp at this
        | entering | running => cases hh
      | _ => rw [hpc] at hh; cases hh
  rintro (ho | ho)
  · exact hoff ho
  · cases hr.parked t ho hoff

theorem setState_of_ne {f g : Nat} {st : FiberState} (h : g ≠ f) : (s.setState f st).fibers g = s.fibers g := by
  simp [Sched.setState, Function.update_of_ne h]

theorem setState_self {f : Nat} {st : FiberState} : (s.setState f st).fibers f = some st := by simp [Sched.setState]

/-- The fiber a thread works on exists. -/
theorem Sched.Orderly.exists_fiber (h : s.Orderly) {t : T} {f : Nat} {cb : Bool} {st : Stage}
    (hpt : s.pc t = .task f cb st) : s.fibers f ≠ none := fun hn => by
  obtain ⟨r, hr⟩ := h f
  exact (hr.born hn).2 t (.inl (by rw [hpt]; rfl))

theorem Held.right {t : T} {f : Nat} {cb : Bool} {st : Stage} {r : Right T} (hr : Held s f r)
    (hpt : s.pc t = .task f cb st) (hh : (Pc.task f cb st : Pc C).holds (s.fibers f) = true) : r = .thread t :=
  hr.thread t (by rw [hpt]; rfl) (by rw [hpt]; exact hh)

/-- The fibers of a queue and of what is left of it after a fiber was taken out. -/
theorem count_queued_take {a b : List (Entry T C)} {e : Entry T C} {f : Nat} (hq : s.queue = a ++ e :: b)
    (hq' : s'.queue = a ++ b) (he : e.task = .fiber f) (g : Nat) :
    s.queued.count g = s'.queued.count g + if g = f then 1 else 0 := by
  rw [Sched.queued, Sched.queued, hq, hq', List.filterMap_append, List.filterMap_append, List.filterMap_cons, he]
  simp only [Task.fiber?]
  rw [List.count_append, List.count_append, List.count_cons]
  by_cases hgf : g = f
  · simp [hgf, Nat.add_assoc]
  · simp [hgf, Ne.symm hgf]

variable [DecidableEq T] {t : T}

/-- A thread takes a fiber that no thread has out of the queue. -/
theorem take_orderly (h : s.Orderly) {f : Nat} {p : Pc C} (hoff : ∀ g, (s.pc t).on ≠ some g) (hm : f ∈ s.queued)
    (hfree : ∀ u, ¬ s.Owns u f) (hcount : ∀ g, s.queued.count g = s'.queued.count g + if g = f then 1 else 0)
    (hp : s'.pc = (s.goto t p).pc) (hon : p.on = some f) (hcb : p.isCb = false) (hruns : p.runs f = false)
    (hwake : s'.wakeable = s.wakeable) (hfib : s'.fibers = s.fibers) (hcbf : s'.cbFiber = s.cbFiber) : s'.Orderly := by
  obtain ⟨r, hr⟩ := h f
  have hrq := hr.queue hm
  subst hrq
  have hzero : s'.queued.count f = 0 := by
    have h1 := hcount f
    have h2 := hr.once
    rw [if_pos rfl] at h1
    omega
  have hcbne : s'.cbFiber t ≠ some f := by
    rw [hcbf]
    exact fun hc => hfree t (.inr hc)
  refine h.act (t := t) (fun u _ => hfree u) (fun g _ => hoff g) (fun g hg => ?_) hp (fun _ _ => by rw [hwake])
    (fun g hg => by rw [hcount g, if_neg hg, Nat.add_zero]) (fun _ _ => by rw [hfib]) (fun _ _ => by rw [hcbf])
    (fun _ _ => by rw [hcbf]) fun hother hpt => ?_
  · rw [hon]
    exact fun he => hg (Option.some.inj he).symm
  · refine ⟨.thread t, .of_owner hother (fun hw => ?_) (fun hm' => ?_) (by omega) (fun _ _ => rfl)
      (fun hc => absurd hc hcbne) (fun hrn => ?_) (fun _ => ?_) (fun hn => ?_)⟩
    · rw [hwake] at hw
      cases hr.waker hw
    · rw [← List.count_pos_iff] at hm'
      omega
    · rw [hpt, hruns] at hrn
      cases hrn
    · rw [hpt, hcb]
      simp [hcbne]
    · rw [hfib] at hn
      cases (hr.born hn).1

theorem scan_orderly (h : s.Orderly) (hpt : s.pc t = .scan) (hset : s.Settled (.scan t))
    (hs : s.Step (.scan t) s') : s'.Orderly := by
  simp only [Sched.Step, Sched.next, hpt, Option.some.injEq] at hs
  -- the thread goes on with what it found, whether it tickles first or not
  obtain ⟨p, hp, hon, hcb, hruns⟩ : ∃ p, s'.pc = (s.goto t p).pc ∧ p.on = (pick s.fibers t s.queue).1.bind Task.fiber? ∧
      p.isCb = false ∧ ∀ f, p.runs f = false := by
    refine ⟨_, by rw [← hs]; rfl, ?_, ?_, fun f => ?_⟩ <;> split <;> rfl
  have hwake : s'.wakeable = s.wakeable := by rw [← hs]; rfl
  have hfib : s'.fibers = s.fibers := by rw [← hs]; rfl
  have hcbf : s'.cbFiber = s.cbFiber := by rw [← hs]; rfl
  have hqueue : s'.queue = (pick s.fibers t s.queue).2.1 := by rw [← hs]; rfl
  have hoff : ∀ f, (s.pc t).on ≠ some f := fun f => by rw [hpt]; simp [Pc.on]
  rcases pick_spec s.fibers t s.queue with ⟨h1, h2, -⟩ | ⟨a, e, b, hq, h1, h2, hne, -⟩
  · rw [h1] at hon
    refine h.move (t := t) (fun f => .of_off ?_) (fun f hf => absurd hf (hoff f)) hp hwake
      (by rw [Sched.queued, hqueue, h2]; rfl) hfib hcbf
    rw [hon]
    simp
  · rw [h1] at hon
    rw [h2] at hqueue
    cases htask : e.task with
    | cb c =>
      rw [htask] at hon
      refine h.move (t := t) (fun f => .of_off ?_) (fun f hf => absurd hf (hoff f)) hp hwake ?_ hfib hcbf
      · rw [hon]
        simp [Task.fiber?]
      · rw [Sched.queued, Sched.queued, hqueue, hq]
        simp [List.filterMap_append, htask, Task.fiber?]
    | fiber f =>
      rw [htask] at hon
      obtain ⟨r, hr⟩ := h f
      have hcount := count_queued_take hq hqueue htask
      have hm : f ∈ s.queued := by
        rw [← List.count_pos_iff, hcount f, if_pos rfl]
        exact Nat.succ_pos _
      have hx : s.fibers f ≠ some .exec := fun hx => hne (.inr (by rw [htask]; exact hx))
      have hfree := hr.free hm hx (hset f (by rw [h1, htask]))
      exact take_orderly h hoff hm hfree hcount hp hon hcb (hruns f) hwake hfib hcbf

/-- The thread's `cb_fiber` is reset to a new callback. -/
theorem resetCb_orderly (h : s.Orderly) {f : Nat} (hoff : ∀ g, (s.pc t).on ≠ some g) (hc : s.cbFiber t = some f) :
    ((s.setState f .init).goto t (.task f true .entering)).Orderly := by
  obtain ⟨r, hr⟩ := h f
  have hrp := hr.parked t hc (hoff f)
  subst hrp
  refine h.act (p := .task f true .entering) (fun u hu ho => hu (hr.single u t ho (.inr hc))) (fun g _ => hoff g)
    (fun g hg he => hg (Option.some.inj he).symm) rfl (fun _ _ => rfl) (fun _ _ => rfl) (fun g hg => setState_of_ne hg)
    (fun _ _ => rfl) (fun _ _ => Iff.rfl) fun hother hp => ?_
  refine ⟨.thread t, .of_owner hother (fun hw => ?_) (fun hm => ?_) hr.once (fun _ _ => rfl) (fun _ ho => ?_)
    (fun hrn => ?_)
    (fun _ => ?_) (by simp [Sched.goto, setState_self])⟩
  · cases hr.waker hw
  · cases hr.queue hm
  · exact absurd (by rw [hp]; rfl) ho
  · rw [hp] at hrn
    cases hrn
  · rw [hp]
    exact iff_of_true rfl hc

/-- The thread makes a new `cb_fiber`. -/
theorem newCb_orderly (h : s.Orderly) {g : Nat} (hoff : ∀ f, (s.pc t).on ≠ some f) (hc : s.cbFiber t = none)
    (hg : s.fibers g = none) :
    ({ s.setState g .init with cbFiber := Function.update s.cbFiber t (some g) }.goto t
      (.task g true .entering)).Orderly := by
  obtain ⟨r, hr⟩ := h g
  obtain ⟨rfl, hno⟩ := hr.born hg
  refine h.act (p := .task g true .entering) (fun u _ => hno u) (fun f _ => hoff f)
    (fun f hf he => hf (Option.some.inj he).symm) rfl
    (fun _ _ => rfl) (fun _ _ => rfl) (fun f hf => setState_of_ne hf) (fun u hu => ?_)
      (fun f hf => ?_) fun hother hp => ?_
  · simp [Sched.goto, Function.update_of_ne hu]
  · simp [Sched.goto, hc, Ne.symm hf]
  · refine ⟨.thread t, .of_owner hother (fun hw => ?_) (fun hm => ?_) hr.once (fun _ _ => rfl) (fun _ ho => ?_)
      (fun hrn => ?_)
      (fun _ => ?_) (by simp [Sched.goto, setState_self])⟩
    · cases hr.waker hw
    · cases hr.queue hm
    · exact absurd (by rw [hp]; rfl) ho
    · rw [hp] at hrn
      cases hrn
    · rw [hp]
      refine iff_of_true rfl ?_
      simp [Sched.goto]

/-- The `cb_fiber` has ended and stays with its thread. -/
theorem parkCb_orderly (h : s.Orderly) {f : Nat} (hpt : s.pc t = .task f true .inspecting)
    (hend : s.fibers f ≠ some .hold) : ((s.setState f .init).goto t .scan).Orderly := by
  refine h.actOn (p := .scan) hpt (fun g _ => by simp [Pc.on]) rfl (fun _ _ => rfl) (fun _ _ => rfl)
    (fun g hg => setState_of_ne hg)
    (fun _ _ => rfl) (fun _ _ => Iff.rfl) fun r hr hflag hother hp => ?_
  have hrt := hr.thread t (by rw [hpt]; rfl) (by rw [hpt]; simpa [Pc.holds] using hend)
  subst hrt
  have hoff : (((s.setState f .init).goto t .scan).pc t).on ≠ some f := by rw [hp]; simp [Pc.on]
  refine ⟨.parked t, .of_owner hother (fun hw => ?_) (fun hm => ?_) hr.once (fun ho => absurd ho hoff)
    (fun _ _ => rfl) (fun hrn => ?_)
    (fun ho => absurd ho hoff) (by simp [Sched.goto, setState_self])⟩
  · cases hr.waker hw
  · cases hr.queue hm
  · exact absurd (Pc.on_of_runs hrn) hoff

/-- A thread that lets its fiber go has it as `cb_fiber` no more. -/
theorem dropCb_ne {f : Nat} {cb : Bool} (hflag : cb = true ↔ s.cbFiber t = some f) :
    (s.dropCb t cb).cbFiber t ≠ some f := by
  unfold Sched.dropCb
  cases cb with
  | true => simp
  | false => simpa using hflag

theorem dropCb_other {cb : Bool} {u : T} (hu : u ≠ t) : (s.dropCb t cb).cbFiber u = s.cbFiber u := by
  unfold Sched.dropCb
  split
  · simp [Function.update_of_ne hu]
  · rfl

theorem dropCb_iff {f g : Nat} {cb : Bool} (hflag : cb = true ↔ s.cbFiber t = some f) (hg : g ≠ f) :
    (s.dropCb t cb).cbFiber t = some g ↔ s.cbFiber t = some g := by
  unfold Sched.dropCb
  cases cb with
  | true => simp [hflag.1 rfl, Ne.symm hg]
  | false => exact Iff.rfl

theorem dropCb_fields (s : Sched T C) (t : T) (cb : Bool) :
    (s.dropCb t cb).fibers = s.fibers ∧ (s.dropCb t cb).wakeable = s.wakeable ∧
    (s.dropCb t cb).queue = s.queue ∧ (s.dropCb t cb).pc = s.pc := by
  unfold Sched.dropCb
  split <;> exact ⟨rfl, rfl, rfl, rfl⟩

/-- A thread lets its fiber go: `s1` is the state after what it did to the fiber last. -/
theorem letGo_orderly (h : s.Orderly) {s1 : Sched T C} {f : Nat} {cb : Bool} {st : Stage} (hpt : s.pc t = .task f cb st)
    (hpc : s1.pc = s.pc) (hcb : s1.cbFiber = s.cbFiber) (hw : s1.wakeable = s.wakeable)
    (hq : ∀ g, g ≠ f → s1.queued.count g = s.queued.count g) (hf : ∀ g, g ≠ f → s1.fibers g = s.fibers g)
    (hb : s1.fibers f ≠ none) (hat : ∀ r, Held s f r → ∃ r' : Right T, (s.wakeable f = true → r' = .waker) ∧
      (f ∈ s1.queued → r' = .queue) ∧ s1.queued.count f ≤ 1) : ((s1.dropCb t cb).goto t .scan).Orderly := by
  obtain ⟨h1, h2, h3, h4⟩ := dropCb_fields s1 t cb
  have hqueued : ((s1.dropCb t cb).goto t .scan).queued = s1.queued := by unfold Sched.queued; rw [← h3]; rfl
  have hpcs : ((s1.dropCb t cb).goto t .scan).pc = (s.goto t .scan).pc := by
    simp only [Sched.goto, h4, hpc]
  obtain ⟨r, hr⟩ := h f
  have hflag : cb = true ↔ s1.cbFiber t = some f := by
    rw [hcb]
    simpa [hpt, Pc.isCb] using hr.flag t (by rw [hpt]; rfl)
  refine h.actOn (p := .scan) hpt (fun g _ => by simp [Pc.on]) hpcs (fun g _ => ?_)
    (fun g hg => by rw [hqueued, hq g hg]) (fun g hg => ?_)
    (fun u hu => ?_) (fun g hg => ?_) fun r hr _ hother hp => ?_
  · show (s1.dropCb t cb).wakeable g = _
    rw [h2, hw]
  · show (s1.dropCb t cb).fibers g = _
    rw [h1, hf g hg]
  · show (s1.dropCb t cb).cbFiber u = _
    rw [dropCb_other hu, hcb]
  · show (s1.dropCb t cb).cbFiber t = some g ↔ _
    rw [dropCb_iff hflag hg, hcb]
  · obtain ⟨r', hr1, hr2, hr3⟩ := hat r hr
    have hoff : (((s1.dropCb t cb).goto t .scan).pc t).on ≠ some f := by rw [hp]; simp [Pc.on]
    refine ⟨r', .of_owner hother (fun hx => hr1 ?_) (fun hm => hr2 (hqueued ▸ hm)) (hqueued ▸ hr3)
      (fun ho => absurd ho hoff)
      (fun hc => absurd hc (dropCb_ne hflag)) (fun hrn => absurd (Pc.on_of_runs hrn) hoff)
        (fun ho => absurd ho hoff) ?_⟩
    · have hx : (s1.dropCb t cb).wakeable f = true := hx
      rwa [h2, hw] at hx
    · show (s1.dropCb t cb).fibers f ≠ none
      rwa [h1]

theorem dispatch_orderly (h : s.Orderly) {g : Nat} (hs : s.Step (.dispatch t g) s') : s'.Orderly := by
  have hoff : ∀ {c : C}, s.pc t = .chosen (some (.cb c)) → ∀ f, (s.pc t).on ≠ some f := fun hpt f => by
    rw [hpt]
    simp [Pc.on, Task.fiber?]
  rcases Sched.next_dispatch hs with ⟨f, hpt, ⟨-, rfl⟩ | ⟨-, rfl⟩⟩ |
    ⟨c, hpt, ⟨f, hcb, -, rfl⟩ | ⟨hcb, hg, rfl⟩⟩ | ⟨hpt, rfl⟩
  · refine h.move (t := t) (p := .scan) (fun f => .of_off (by simp [Pc.on])) (fun f _ _ => ?_) rfl rfl rfl rfl rfl
    rw [hpt]
    rfl
  · refine h.move (t := t) (p := .task f false .entering) (fun f => ?_) (fun f _ _ => ?_) rfl rfl rfl rfl rfl
    · rw [hpt]
      exact ⟨id, fun _ _ => rfl, fun _ => rfl, fun hc => by cases hc⟩
    · rw [hpt]
      rfl
  · exact resetCb_orderly h (hoff hpt) hcb
  · exact newCb_orderly h (hoff hpt) hcb hg
  · refine h.move (t := t) (p := .idling) (fun f => .of_off (by simp [Pc.on])) (fun f ho => ?_) rfl rfl rfl rfl rfl
    rw [hpt] at ho
    simp [Pc.on] at ho

theorem swapIn_orderly (h : s.Orderly) (hs : s.Step (.swapIn t) s') : s'.Orderly := by
  obtain ⟨f, cb, hpt, -, rfl⟩ := Sched.next_swapIn hs
  refine h.turn hpt id .running rfl (fun _ _ => rfl) rfl (fun g hg => setState_of_ne hg) rfl
    (by simp [Sched.goto, setState_self]) (fun _ => setState_self) fun r hr => ?_
  exact ⟨hr.waker, hr.queue, fun _ => hr.right hpt rfl⟩

theorem arm_orderly (h : s.Orderly) (hs : s.Step (.arm t) s') : s'.Orderly := by
  obtain ⟨f, cb, hpt, rfl⟩ := Sched.next_arm hs
  refine h.turn hpt (fun _ => .waker) .armed rfl (fun g hg => ?_) rfl (fun _ _ => rfl) rfl (h.exists_fiber hpt)
    (fun _ => ?_) fun r hr => ⟨fun _ => rfl, fun hm => ?_, fun hh => by cases hh⟩
  · simp [Sched.goto, Sched.setWakeable, Function.update_of_ne hg]
  · obtain ⟨r, hr⟩ := h f
    exact hr.exec t (by simp [hpt, Pc.runs])
  · have := hr.right hpt rfl
    rw [hr.queue hm] at this
    cases this

theorem yieldToHold_orderly (h : s.Orderly) (hs : s.Step (.yieldToHold t) s') : s'.Orderly := by
  -- without a registered wake-up the right goes to whoever may wake the fiber; with one it is there already
  obtain ⟨f, cb, ⟨hpt, rfl⟩ | ⟨hpt, rfl⟩⟩ := Sched.next_yieldToHold hs
  · refine h.turn hpt (fun _ => .waker) .yielding rfl (fun g hg => ?_) rfl (fun g hg => setState_of_ne hg) rfl
      (by simp [Sched.goto, Sched.setWakeable, setState_self]) (fun hc => by cases hc) fun r hr =>
        ⟨fun _ => rfl, fun hm => ?_, fun hh => ?_⟩
    · simp [Sched.goto, Sched.setState, Sched.setWakeable, Function.update_of_ne hg]
    · have := hr.right hpt rfl
      rw [hr.queue hm] at this
      cases this
    · simp [Pc.holds, Sched.goto, Sched.setWakeable, setState_self] at hh
  · refine h.turn hpt id .yielding rfl (fun g hg => rfl) rfl (fun g hg => setState_of_ne hg) rfl
      (by simp [Sched.goto, setState_self]) (fun hc => by cases hc) fun r hr => ⟨hr.waker, hr.queue, fun hh => ?_⟩
    simp [Pc.holds, Sched.goto, setState_self] at hh

/-- A fiber that goes back to `run()` with any state keeps the right it had. -/
theorem yielding_orderly (h : s.Orderly) {f : Nat} {cb : Bool} (hpt : s.pc t = .task f cb .running) (st : FiberState) :
    ((s.setState f st).goto t (.task f cb .yielding)).Orderly := by
  refine h.turn hpt id .yielding rfl (fun _ _ => rfl) rfl (fun g hg => setState_of_ne hg) rfl
    (by simp [Sched.goto, setState_self]) (fun hc => by cases hc) fun r hr => ?_
  exact ⟨hr.waker, hr.queue, fun _ => hr.right hpt rfl⟩

theorem inspect_orderly (h : s.Orderly) (hs : s.Step (.inspect t) s') : s'.Orderly := by
  obtain ⟨f, cb, hpt, ⟨hready, rfl⟩ | ⟨-, hend, rfl⟩ | ⟨-, -, rfl⟩⟩ := Sched.next_inspect hs
  · refine h.turn hpt id .requeue rfl (fun _ _ => rfl) rfl (fun _ _ => rfl) rfl (h.exists_fiber hpt)
      (fun hc => by cases hc) fun r hr => ?_
    exact ⟨hr.waker, hr.queue, fun _ => hr.right hpt (by simp [Pc.holds, hready])⟩
  · cases cb with
    | true =>
      refine parkCb_orderly h hpt fun hh => ?_
      simp [Sched.ended, hh] at hend
    | false =>
      refine h.move (t := t) (p := .scan) (fun f => .of_off (by simp [Pc.on])) (fun f _ _ => ?_) rfl rfl rfl rfl rfl
      rw [hpt]
      rfl
  · refine h.turn hpt id .assign rfl (fun _ _ => rfl) rfl (fun _ _ => rfl) rfl (h.exists_fiber hpt)
      (fun hc => by cases hc) fun r hr => ⟨hr.waker, hr.queue, fun hh => by cases hh⟩

theorem requeue_orderly (h : s.Orderly) (hs : s.Step (.requeue t) s') : s'.Orderly := by
  -- the thread still holds the right here, so the fiber is not in the queue yet
  obtain ⟨f, cb, hpt, rfl⟩ := Sched.next_requeue hs
  have hq := queued_push s ⟨.fiber f, none⟩
  refine letGo_orderly h hpt rfl rfl rfl (fun g hg => ?_) (fun _ _ => rfl) (h.exists_fiber hpt) fun r hr => ?_
  · rw [hq, List.count_append]
    simp [Task.fiber?, Ne.symm hg]
  · have hrt := hr.right hpt rfl
    subst hrt
    have hnot : f ∉ s.queued := fun hm => by cases hr.queue hm
    refine ⟨.queue, fun hw => (by cases hr.waker hw), fun _ => rfl, ?_⟩
    rw [hq, List.count_append, List.count_eq_zero_of_not_mem hnot]
    simp [Task.fiber?]

/-- One step keeps the invariant, if its scan takes no fiber in the window. -/
theorem step_orderly (h : s.Orderly) {a : Act T C} (hs : s.Step a s') (ha : s.Settled a) : s'.Orderly := by
  cases a with
  | scan t => exact scan_orderly h (Sched.next_scan hs).1 ha hs
  | create f =>
    obtain ⟨hf, rfl⟩ := Sched.next_create hs
    exact create_orderly h hf
  | schedule task thread =>
    cases task with
    | fiber f =>
      obtain ⟨hf, rfl⟩ := Sched.next_schedule hs
      exact schedule_orderly h hf
    | cb c =>
      cases hs
      refine h.same rfl ?_ rfl rfl rfl
      rw [queued_push]
      simp [Task.fiber?]
  | test =>
    obtain ⟨-, ⟨-, rfl⟩ | ⟨-, rfl⟩⟩ := Sched.next_test hs
    · exact h.same rfl rfl rfl rfl rfl
    · exact h.same rfl rfl rfl rfl rfl
  | write =>
    obtain ⟨-, rfl⟩ := Sched.next_write hs
    exact h.same rfl rfl rfl rfl rfl
  | drain t =>
    obtain ⟨-, rfl⟩ := Sched.next_drain hs
    exact h.same rfl rfl rfl rfl rfl
  | scanTest t =>
    obtain ⟨ft, hpt, rfl⟩ := Sched.next_scanTest hs
    refine h.move (t := t) (fun f => ?_) (fun f ho hp => ?_) rfl rfl rfl rfl rfl
    · rw [hpt]
      split <;> exact ⟨id, fun _ _ => rfl, fun _ => rfl, id⟩
    · rw [hpt] at ho ⊢
      rfl
  | scanWrite t =>
    obtain ⟨ft, hpt, rfl⟩ := Sched.next_scanWrite hs
    refine h.move (t := t) (p := .chosen ft) (fun f => ?_) (fun f ho hp => ?_) rfl rfl rfl rfl rfl
    · rw [hpt]
      exact ⟨id, fun _ _ => rfl, fun _ => rfl, id⟩
    · rw [hpt]
      rfl
  | dispatch t g => exact dispatch_orderly h hs
  | swapIn t => exact swapIn_orderly h hs
  | arm t => exact arm_orderly h hs
  | yieldToHold t => exact yieldToHold_orderly h hs
  | yieldToReady t =>
    obtain ⟨f, cb, hpt, rfl⟩ := Sched.next_yieldToReady hs
    exact yielding_orderly h hpt .ready
  | finish t except =>
    obtain ⟨f, cb, hpt, rfl⟩ := Sched.next_finish hs
    exact yielding_orderly h hpt _
  | save t =>
    obtain ⟨f, cb, hpt, rfl⟩ := Sched.next_save hs
    refine h.turn hpt id .returned rfl (fun _ _ => rfl) rfl (fun _ _ => rfl) rfl (h.exists_fiber hpt)
      (fun hc => by cases hc) fun r hr => ?_
    exact ⟨hr.waker, hr.queue, fun hh => hr.right hpt hh⟩
  | decrement t =>
    obtain ⟨f, cb, hpt, rfl⟩ := Sched.next_decrement hs
    refine h.turn hpt id .inspecting rfl (fun _ _ => rfl) rfl (fun _ _ => rfl) rfl (h.exists_fiber hpt)
      (fun hc => by cases hc) fun r hr => ?_
    exact ⟨hr.waker, hr.queue, fun hh => hr.right hpt hh⟩
  | inspect t => exact inspect_orderly h hs
  | requeue t => exact requeue_orderly h hs
  | assign t =>
    obtain ⟨f, cb, hpt, rfl⟩ := Sched.next_assign hs
    exact letGo_orderly h hpt rfl rfl rfl (fun _ _ => rfl) (fun g hg => setState_of_ne hg) (by simp [setState_self])
      fun r hr => ⟨r, hr.waker, hr.queue, hr.once⟩
  | block t | wake t | leave t =>
    -- no fiber is on the thread, before or after
    simp only [Sched.Step, Sched.next] at hs
    split at hs
    · rename_i hpt
      cases hs
      refine h.move (t := t) (fun f => .of_off ?_) (fun f ho => ?_) rfl rfl rfl rfl rfl
      · simp [Pc.on]
      · rw [hpt] at ho
        cases ho
    · cases hs

end Step

/-! ## Runs -/

/-- The thread an action is of; `create`, `schedule()` and its `tickle()` may be anyone's. -/
def Act.thread : Act T C → Option T
  | .create _ | .schedule _ _ | .test | .write => none
  | .scan t | .scanTest t | .scanWrite t | .dispatch t _ | .swapIn t | .arm t | .yieldToHold t | .yieldToReady t
    | .finish t _
  | .save t | .decrement t | .inspect t | .requeue t | .assign t | .block t | .wake t | .drain t | .leave t => some t

/-- A thread is swapping a fiber in while another one executes on it or has not saved its context. -/
def Sched.Clash (s : Sched T C) : Prop :=
  ∃ t u f cb cb' st, t ≠ u ∧ s.pc t = .task f cb .entering ∧ s.pc u = .task f cb' st ∧
  (st = .running ∨ st = .armed ∨ st = .yielding)

theorem eq_of_setState {s : Sched T C} {f g : Nat} {st : FiberState} (h : (s.setState g st).fibers f ≠ s.fibers f) :
    g = f := by
  by_contra hg
  exact h (setState_of_ne (Ne.symm hg))

/-- A thread that writes the state of the fiber it works on. -/
theorem owns_of_setState {s : Sched T C} {t : T} {f g : Nat} {cb : Bool} {st : Stage} {x : FiberState}
    (hpt : s.pc t = .task g cb st) (h : (s.setState g x).fibers f ≠ s.fibers f) : s.Owns t f := by
  cases eq_of_setState h
  exact .inl (by rw [hpt]; rfl)

/-- An action writes the states of the fibers its thread has, and of new ones. -/
theorem fibers_of_step [DecidableEq T] {s s' : Sched T C} {a : Act T C} (hs : s.Step a s') {f : Nat}
    (hne : s'.fibers f ≠ s.fibers f) : s.fibers f = none ∨ ∃ t, a.thread = some t ∧ s.Owns t f := by
  cases a with
  | create g =>
    obtain ⟨hg, rfl⟩ := Sched.next_create hs
    cases eq_of_setState hne
    exact .inl hg
  | schedule task thread =>
    cases task with
    | fiber g =>
      obtain ⟨-, rfl⟩ := Sched.next_schedule hs
      exact absurd rfl hne
    | cb c =>
      cases hs
      exact absurd rfl hne
  | dispatch t g =>
    rcases Sched.next_dispatch hs with ⟨f, -, ⟨-, rfl⟩ | ⟨-, rfl⟩⟩ | ⟨c, -, ⟨g', hc, -, rfl⟩ | ⟨-, hg, rfl⟩⟩ | ⟨-, rfl⟩
    · exact absurd rfl hne
    · exact absurd rfl hne
    · cases eq_of_setState hne
      exact .inr ⟨t, rfl, .inr hc⟩
    · cases eq_of_setState hne
      exact .inl hg
    · exact absurd rfl hne
  | inspect t =>
    obtain ⟨g, cb, hpt, ⟨-, rfl⟩ | ⟨-, -, rfl⟩ | ⟨-, -, rfl⟩⟩ := Sched.next_inspect hs
    · exact absurd rfl hne
    · cases cb with
      | false => exact absurd rfl hne
      | true => exact .inr ⟨t, rfl, owns_of_setState hpt hne⟩
    · exact absurd rfl hne
  | assign t =>
    obtain ⟨g, cb, hpt, rfl⟩ := Sched.next_assign hs
    have hne : (((s.setState g .hold).dropCb t cb)).fibers f ≠ s.fibers f := hne
    rw [(dropCb_fields _ t cb).1] at hne
    exact .inr ⟨t, rfl, owns_of_setState hpt hne⟩
  | requeue t =>
    obtain ⟨g, cb, hpt, rfl⟩ := Sched.next_requeue hs
    have hne : (((s.push ⟨.fiber g, none⟩).dropCb t cb)).fibers f ≠ s.fibers f := hne
    rw [(dropCb_fields _ t cb).1] at hne
    exact absurd rfl hne
  | swapIn t | yieldToHold t | yieldToReady t | finish t _ =>
    simp only [Sched.Step, Sched.next] at hs
    repeat' split at hs
    all_goals cases hs
    all_goals exact .inr ⟨t, rfl, owns_of_setState ‹_› hne⟩
  | test | write | scan t | scanTest t | scanWrite t | arm t | save t | decrement t | block t | wake t | drain t
    | leave t =>
    -- no state is written
    simp only [Sched.Step, Sched.next] at hs
    repeat' split at hs
    all_goals cases hs
    all_goals exact absurd rfl hne

theorem init_owns (t : T) (f : Nat) : ¬ (Sched.init : Sched T C).Owns t f := by
  rintro (h | h) <;> cases h

theorem init_orderly : (Sched.init : Sched T C).Orderly := fun f => ⟨.nobody,
  { waker := nofun
    queue := nofun
    once := Nat.zero_le _
    thread := nofun
    parked := nofun
    single := fun t _ h => absurd h (init_owns t f)
    exec := nofun
    flag := nofun
    born := fun _ => ⟨rfl, fun t => init_owns t f⟩ }⟩

/-- One runner per fiber. For any set of threads and fibers, in every interleaving in which each fiber
is scheduled at most once per suspension: if no scan takes a fiber whose last runner is still between
the state its yield wrote and the end of `run()`'s work on it, then no thread ever swaps a fiber in
while another executes on it or has not saved its context, and no step of another thread changes
the state of a fiber that a thread is running. -/
theorem single_runner [DecidableEq T] {s : Sched T C} {l : List (Act T C)}
    (h : Lts.Run (fun s a s' => s.Step a s' ∧ s.Settled a) Sched.init l s) :
    ¬ s.Clash ∧ ∀ a s', s.Step a s' → ∀ u f, (s.pc u).runs f = true → a.thread ≠ some u → s'.fibers f = some .exec := by
  have ho : s.Orderly := h.invariant init_orderly fun _ _ _ ho hs => step_orderly ho hs.1 hs.2
  constructor
  · rintro ⟨t, u, f, cb, cb', st, hne, ht, hu, -⟩
    obtain ⟨r, hr⟩ := ho f
    exact hne (hr.single t u (.inl (by rw [ht]; rfl)) (.inl (by rw [hu]; rfl)))
  · intro a s' hs u f hu ha
    obtain ⟨r, hr⟩ := ho f
    have hx := hr.exec u hu
    by_contra hne
    rcases fibers_of_step hs (f := f) (by rw [hx]; exact hne) with hn | ⟨t, hat, ht⟩
    · rw [hn] at hx
      cases hx
    · rw [hr.single t u ht (.inl (Pc.on_of_runs hu))] at hat
      exact ha hat

/-- A fiber registers its wake-up and writes `HOLD`; before its context is saved the wake-up is queued,
and another thread takes the fiber. -/
def earlyWakeup : List (Act Bool Unit) :=
  [.create 0, .schedule (.fiber 0) none, .scan false, .dispatch false 0, .swapIn false, .arm false, .yieldToHold false,
    .schedule (.fiber 0) none, .scan true, .dispatch true 0]

theorem early_wakeup_clashes : ¬ ∀ (l : List (Act Bool Unit)) (s : Sched Bool Unit), Lts.Run Sched.Step Sched.init l s →
    ¬ s.Clash ∧ ∀ a s', s.Step a s' → ∀ u f, (s.pc u).runs f = true → a.thread ≠ some u → s'.fibers f = some .exec := by
  intro h
  have hr : ∃ s1 s2 s3 s4 s5 s6 s7 s8 s9 s : Sched Bool Unit, Sched.init.Step (.create 0) s1 ∧
      s1.Step (.schedule (.fiber 0) none) s2 ∧ s2.Step (.scan false) s3 ∧ s3.Step (.dispatch false 0) s4 ∧
      s4.Step (.swapIn false) s5 ∧ s5.Step (.arm false) s6 ∧ s6.Step (.yieldToHold false) s7 ∧
      s7.Step (.schedule (.fiber 0) none) s8 ∧ s8.Step (.scan true) s9 ∧ s9.Step (.dispatch true 0) s ∧
      s.pc true = .task 0 false .entering ∧ s.pc false = .task 0 false .yielding :=
    ⟨_, _, _, _, _, _, _, _, _, _, rfl, rfl, rfl, rfl, rfl, rfl, rfl, rfl, rfl, rfl, rfl, rfl⟩
  obtain ⟨s1, s2, s3, s4, s5, s6, s7, s8, s9, s, h1, h2, h3, h4, h5, h6, h7, h8, h9, h10, ht, hu⟩ := hr
  have hrun : Lts.Run Sched.Step Sched.init earlyWakeup s :=
    .cons h1 (.cons h2 (.cons h3 (.cons h4 (.cons h5 (.cons h6 (.cons h7 (.cons h8 (.cons h9 (.single h10)))))))))
  exact (h _ s hrun).1 ⟨true, false, 0, false, false, .yielding, by decide, ht, hu, .inr (.inr rfl)⟩

/-- A fiber is swapped in by one thread, which comes back from it when it has registered its wake-up and yielded, and is
then scheduled again and swapped in by another. -/
def movedOn : List (Act Bool Unit) :=
  [.create 0, .schedule (.fiber 0) none, .scan false, .dispatch false 0, .swapIn false, .arm false, .yieldToHold false,
    .save false, .decrement false, .inspect false, .assign false, .schedule (.fiber 0) none, .scan true,
    .dispatch true 0, .swapIn true]

/-- Steps other than scans are settled. -/
theorem run_of_foldlM {s : Sched Bool Unit} : ∀ {l : List (Act Bool Unit)} {s' : Sched Bool Unit},
    (∀ a ∈ l, ∀ s : Sched Bool Unit, s.Settled a) → l.foldlM Sched.next s = some s' →
      Lts.Run (fun s a s' => s.Step a s' ∧ s.Settled a) s l s'
  | [], s', _, h => by
    cases h
    exact .nil
  | a :: l, s', hl, h => by
    rw [List.foldlM_cons] at h
    obtain ⟨u, hu, h⟩ := Option.bind_eq_some_iff.1 h
    rw [List.forall_mem_cons] at hl
    exact .cons ⟨hu, hl.1 s⟩ (run_of_foldlM hl.2 h)

theorem single_runner_moved : ∃ s : Sched Bool Unit,
    Lts.Run (fun s a s' => s.Step a s' ∧ s.Settled a) Sched.init movedOn s ∧
    s.pc true = .task 0 false .running ∧ s.fibers 0 = some .exec ∧ ¬ s.Clash := by
  have hr : ∃ s2 s3 s12 s13 s : Sched Bool Unit,
      [Act.create 0, .schedule (.fiber 0) none].foldlM Sched.next Sched.init = some s2 ∧
      s2.next (.scan false) = some s3 ∧
      [Act.dispatch false 0, .swapIn false, .arm false, .yieldToHold false, .save false, .decrement false,
        .inspect false, .assign false, .schedule (.fiber 0) none].foldlM Sched.next s3 = some s12 ∧
      s12.next (.scan true) = some s13 ∧
      [Act.dispatch true 0, .swapIn true].foldlM Sched.next s13 = some s ∧
      (∀ u, s2.pc u = .scan) ∧ (∀ u, s12.pc u = .scan) ∧ s.pc true = .task 0 false .running ∧ s.fibers 0 = some .exec :=
    ⟨_, _, _, _, _, rfl, rfl, rfl, rfl, rfl, fun _ => rfl, by rintro (_ | _) <;> rfl, rfl, rfl⟩
  obtain ⟨s2, s3, s12, s13, s, h2, h3, h12, h13, h, hscan2, hscan12, hpc, hexec⟩ := hr
  have hsettled : ∀ {s : Sched Bool Unit}, (∀ u, s.pc u = .scan) → ∀ t, s.Settled (.scan t) := by
    intro s hs t f _ u cb st hu
    rw [hs u] at hu
    cases hu
  have hrun : Lts.Run (fun s a s' => s.Step a s' ∧ s.Settled a) Sched.init movedOn s :=
    ((run_of_foldlM (by simp [Sched.Settled]) h2).append (.cons ⟨h3, hsettled hscan2 false⟩
      (run_of_foldlM (by simp [Sched.Settled]) h12))).append (.cons ⟨h13, hsettled hscan12 true⟩
        (run_of_foldlM (by simp [Sched.Settled]) h))
  exact ⟨s, hrun, hpc, hexec, (single_runner hrun).1⟩

end ServerFrame.Schedulers
