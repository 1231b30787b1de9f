/-
What `Timer::reset` tells its caller. It answers before it takes the lock when the period is the same and the deadline
is not counted from now; a timer that was cancelled or delivered is told the same.
-/
import ServerFrame.Timer.Account

namespace ServerFrame.Timers

universe u

variable {C : Type u} {m : TimerManager C} {h : Nat} {t : Timer C}

/-- The answer of `reset(ms, from_now)` says whether the timer is in the set and has a callback. If it is true the timer
has the new period and deadline and all else is as before; if it is false nothing has changed. -/
def Truthful (m : TimerManager C) (h : Nat) (ms : UInt64) (from_now : Bool) (now : UInt64) : Prop :=
  ∀ t, m.heap[h]? = some t → ∃ m' b front, m.reset h ms from_now now = some (m', b, front) ∧
    (b = true ↔ h ∈ m.timers ∧ t.cb.isSome) ∧
    (b = true →
      m'.heap[h]? = some { t with ms := ms, next := (if from_now then now else t.next - t.ms) + ms } ∧
      (∀ k, k ≠ h → m'.heap[k]? = m.heap[k]?) ∧ WF m' ∧ ∀ k, k ∈ m'.timers ↔ k ∈ m.timers) ∧
    (b = false → m' = m)

/-- The answer before the lock. -/
theorem reset_same (ht : m.heap[h]? = some t) (now : UInt64) : m.reset h t.ms false now = some (m, true, false) := by
  unfold TimerManager.reset
  rw [ht]
  exact if_pos ⟨rfl, rfl⟩

/-- Behind it, a timer without a callback is left alone. -/
theorem reset_dead (ht : m.heap[h]? = some t) (hcb : t.cb = none) {ms : UInt64} {from_now : Bool}
    (hnew : ¬ (ms = t.ms ∧ from_now = false)) (now : UInt64) :
    m.reset h ms from_now now = some (m, false, false) := by
  unfold TimerManager.reset
  rw [ht]
  simp only
  rw [if_neg hnew, if_pos (by rw [hcb]; rfl)]

/-- A timer with a callback is taken out, gets its period and its deadline, and is put back. -/
theorem reset_live (hw : WF m) (ht : m.heap[h]? = some t) (hcb : t.cb.isSome) {ms : UInt64} {from_now : Bool}
    (hnew : ¬ (ms = t.ms ∧ from_now = false)) (now : UInt64) :
    ∃ m' front, m.reset h ms from_now now = some (m', true, front) ∧ WF m' ∧ ∀ k, m'.heap[k]? = if k = h then
      some { t with ms := ms, next := (if from_now then now else t.next - t.ms) + ms } else m.heap[k]? := by
  have hlive : (m.cbOf h).isSome := by
    unfold TimerManager.cbOf
    rw [ht]
    exact hcb
  obtain ⟨hfind, m₁, herase, hl, hheap⟩ := hw.take hlive
  let f : Timer C → Timer C := fun u => { u with ms := ms, next := (if from_now then now else t.next - t.ms) + ms }
  refine ⟨((m₁.modify h f).addTimerLocked h).1, ((m₁.modify h f).addTimerLocked h).2, ?_,
    (hl.modify (h := h) (f := f) (by simp) (fun _ => rfl) (fun _ => rfl)).addTimerLocked, fun k => ?_⟩
  · unfold TimerManager.reset
    rw [ht]
    simp only
    rw [if_neg hnew, if_neg (by simpa [Option.isNone_iff_eq_none, Option.isSome_iff_ne_none] using hcb), hfind,
      if_neg (Option.some_ne_none h), herase]
    rfl
  · rw [(addTimerLocked_fst _ _).1, heap_modify, hheap]
    by_cases hk : k = h
    · rw [if_pos hk, if_pos hk, hk, ht]
      rfl
    · rw [if_neg hk, if_neg hk]

/-- In the states where the set is as the invariant says, the answer is false of no call but the early one, and that one
is about a timer without a callback. -/
theorem WF.truthful_iff (hw : WF m) (ht : m.heap[h]? = some t) (ms : UInt64) (from_now : Bool) (now : UInt64) :
    Truthful m h ms from_now now ↔ t.cb.isSome ∨ ¬ (ms = t.ms ∧ from_now = false) := by
  have hmem : h ∈ m.timers ↔ t.cb.isSome := by
    rw [hw.mem_iff]
    unfold TimerManager.cbOf
    rw [ht]
    rfl
  have hall : Truthful m h ms from_now now ↔ ∃ m' b front, m.reset h ms from_now now = some (m', b, front) ∧
      (b = true ↔ t.cb.isSome) ∧
      (b = true →
        m'.heap[h]? = some { t with ms := ms, next := (if from_now then now else t.next - t.ms) + ms } ∧
        (∀ k, k ≠ h → m'.heap[k]? = m.heap[k]?) ∧ WF m' ∧ ∀ k, k ∈ m'.timers ↔ k ∈ m.timers) ∧
      (b = false → m' = m) := by
    unfold Truthful
    rw [ht]
    simp only [Option.some.injEq, forall_eq', hmem, and_self]
  rw [hall]
  -- the early return does not look at the callback; behind it the answer is that of the callback
  by_cases hold : ms = t.ms ∧ from_now = false
  · obtain ⟨rfl, rfl⟩ := hold
    rw [or_iff_left (not_not_intro ⟨rfl, rfl⟩), reset_same ht]
    constructor
    · rintro ⟨m', b, front, hrun, hb, -, -⟩
      cases hrun
      exact hb.1 rfl
    · intro hcb
      refine ⟨m, true, false, rfl, iff_of_true rfl hcb, fun _ => ⟨?_, fun k _ => rfl, hw, fun k => Iff.rfl⟩,
        fun hf => by cases hf⟩
      rw [if_neg Bool.false_ne_true, UInt64.sub_add_cancel, ht]
  · refine iff_of_true ?_ (.inr hold)
    cases hcb : t.cb with
    | none =>
      exact ⟨m, false, false, reset_dead ht hcb hold now, by simp, fun hf => absurd hf Bool.false_ne_true, fun _ => rfl⟩
    | some c =>
      obtain ⟨m', front, hrun, hw', hheap⟩ := reset_live hw ht (by rw [hcb]; rfl) hold now
      refine ⟨m', true, front, hrun, by simp, fun _ => ⟨?_, fun k hk => ?_, hw', fun k => ?_⟩, fun hf => by cases hf⟩
      · rw [hheap, if_pos rfl, hcb]
      · rw [hheap, if_neg hk]
      · rw [hw'.mem_iff, hw.mem_iff]
        unfold TimerManager.cbOf
        rw [hheap]
        by_cases hk : k = h
        · rw [if_pos hk, hk, ht]
          rfl
        · rw [if_neg hk]

/-- In every state that the operations reach, `reset` tells the truth of every call unless the period is the same, the
deadline is not counted from now and the timer has no callback any more. -/
theorem reset_truthful {start : UInt64} {l : List (Op C × Out C)} (hr : Lts.Run Step (TimerManager.init start) l m) :
    ∀ h t, m.heap[h]? = some t → ∀ ms from_now now, Truthful m h ms from_now now ↔
      t.cb.isSome ∨ ¬ (ms = t.ms ∧ from_now = false) :=
  fun _ _ ht ms from_now now => (account_run hr).wf.truthful_iff ht ms from_now now

theorem reset_truthful_cancelled : ∃ m : TimerManager Unit,
    Lts.Run Step (TimerManager.init 5)
      [(.addTimer 10 () false 5 64, .handle 0 true), (.cancel 0, .flag true false)] m ∧
    Truthful m 0 10 true 7 ∧ ¬ Truthful m 0 10 false 7 := by
  have hr : Lts.Run Step (TimerManager.init 5 : TimerManager Unit)
      [(.addTimer 10 () false 5 64, .handle 0 true), (.cancel 0, .flag true false)]
      ⟨[⟨false, 10, 15, none, 64⟩], [], true, 5⟩ :=
    .cons ⟨by decide, rfl⟩ (.single ⟨by decide, rfl⟩)
  have htruth := reset_truthful hr 0 _ rfl
  exact ⟨_, hr, (htruth 10 true 7).2 (.inr (by decide)), fun h => by simpa using (htruth 10 false 7).1 h⟩

/-- A timer that was cancelled is told that it was reset. -/
theorem cancelled_timer_reset : ¬ ∀ (start : UInt64) (l : List (Op Unit × Out Unit)) (m : TimerManager Unit),
    Lts.Run Step (TimerManager.init start) l m → ∀ h t, m.heap[h]? = some t → ∀ ms from_now now,
      Truthful m h ms from_now now := by
  intro hall
  have hr : Lts.Run Step (TimerManager.init 5 : TimerManager Unit)
      [(.addTimer 10 () false 5 64, .handle 0 true), (.cancel 0, .flag true false)]
      ⟨[⟨false, 10, 15, none, 64⟩], [], true, 5⟩ :=
    .cons ⟨by decide, rfl⟩ (.single ⟨by decide, rfl⟩)
  have htruth := hall 5 _ _ hr 0 _ rfl 10 false 7
  rw [(account_run hr).wf.truthful_iff rfl] at htruth
  exact absurd htruth (by decide)

end ServerFrame.Timers
