/-
Tasks pinned to a thread. The pin of a task is a field of its entry in the queue, and a scan respects it;
but `run()` puts a fiber that yields to `READY` back with `schedule(fiber)`, whose entry has no pin, so
that any thread may take it from then on.
-/
import ServerFrame.Scheduler.Queue

namespace ServerFrame.Schedulers

universe u v

variable {T : Type u} {C : Type v}

/-- The branch that loses a pin is not taken: a task that was taken under a pin is not put back into the
queue by `run()`, which it does for a fiber it finds in state `READY`. -/
def Ledger.KeepsPin (l : Ledger T C) : Act T C → Prop
  | .requeue t => ∀ r, l.round t = some r → r.ticket.pin = none
  | _ => True

/-- Where a ticket has a pin, its entry has the same one, its thread is that one, and so was the thread
that executed it. -/
structure Ledger.Pinned (l : Ledger T C) : Prop where
  queue : ∀ (i : Nat) e k p, l.sched.queue[i]? = some e → l.tickets[i]? = some k → k.pin = some p → e.thread = some p
  round : ∀ t r p, l.round t = some r → r.ticket.pin = some p → t = p
  executed : ∀ k t p, (k, t) ∈ l.executed → k.pin = some p → t = p

section Pin

variable [DecidableEq T] {l l' : Ledger T C} {s s' : Sched T C} {a : Act T C} {t : T}

/-- Only `schedule()`, a scan and the return of a fiber change the queue. -/
theorem queue_of_other (hs : s.nextAny a = some s') (hsched : ∀ task thread, a ≠ .schedule task thread)
    (hscan : ∀ t, a ≠ .scan t) (hre : ∀ t, a ≠ .requeue t) : s'.queue = s.queue := by
  cases a with
  | schedule task thread => exact absurd rfl (hsched task thread)
  | scan t => exact absurd rfl (hscan t)
  | requeue t => exact absurd rfl (hre t)
  | assign t =>
    obtain ⟨f, cb, -, rfl⟩ := Sched.next_assign hs
    simp only [Sched.goto, dropCb_pc]
    rfl
  | inspect t =>
    obtain ⟨f, cb, -, ⟨-, rfl⟩ | ⟨-, -, rfl⟩ | ⟨-, -, rfl⟩⟩ := Sched.next_inspect hs
    · rfl
    · cases cb <;> rfl
    · rfl
  | create f | test | write | scanTest t | scanWrite t | dispatch t g | swapIn t | arm t | yieldToHold t
    | yieldToReady t | finish t _ | save t | decrement t | block t | wake t | drain t | leave t =>
    simp only [Sched.nextAny, Sched.next] at hs
    repeat' split at hs
    all_goals cases hs
    all_goals rfl

theorem queue_of_requeue (hs : s.nextAny (.requeue t) = some s') : ∃ f, s'.queue = s.queue ++ [⟨.fiber f, none⟩] := by
  obtain ⟨f, cb, -, rfl⟩ := Sched.next_requeue hs
  refine ⟨f, ?_⟩
  simp only [Sched.goto, dropCb_pc]
  rfl

theorem Ledger.Pinned.endRound (h : ({ l with sched := s } : Ledger T C).Pinned) (t : T) :
    ({ l.endRound t with sched := s } : Ledger T C).Pinned := by
  unfold Ledger.endRound
  split
  · exact h
  · refine ⟨h.queue, fun u r p hu => ?_, h.executed⟩
    by_cases hut : u = t
    · subst hut
      simp only [Function.update_self] at hu
      cases hu
    · simp only [Function.update_of_ne hut] at hu
      exact h.round u r p hu

theorem Ledger.Pinned.execute (h : ({ l with sched := s } : Ledger T C).Pinned) (t : T) :
    ({ l.execute t with sched := s } : Ledger T C).Pinned := by
  unfold Ledger.execute
  split
  · exact h
  · rename_i r hr
    refine ⟨h.queue, fun u r' p hu hp => ?_, fun k u p hm hp => ?_⟩
    · by_cases hut : u = t
      · subst hut
        simp only [Function.update_self] at hu
        cases hu
        exact h.round u r p hr hp
      · simp only [Function.update_of_ne hut] at hu
        exact h.round u r' p hu hp
    · rcases List.mem_append.1 hm with hm | hm
      · exact h.executed k u p hm hp
      · rw [List.mem_singleton] at hm
        cases hm
        exact h.round t r p hr hp

omit [DecidableEq T] in
/-- A new entry with the pin of its ticket, or one whose ticket has none. -/
theorem Ledger.Pinned.push (h : l.Pinned) (hl : l.tickets.length = l.sched.queue.length) {e : Entry T C}
    {pin : Option T} (hq : s.queue = l.sched.queue ++ [e]) (hpin : ∀ p, pin = some p → e.thread = some p) :
    ({ l.enqueue pin with sched := s } : Ledger T C).Pinned := by
  refine ⟨fun i e' k p he hk hp => ?_, h.round, h.executed⟩
  replace hk : (l.tickets ++ [⟨l.issued, pin⟩])[i]? = some k := hk
  rw [hq] at he
  rcases Nat.lt_or_ge i l.sched.queue.length with hlt | hge
  · rw [List.getElem?_append_left hlt] at he
    rw [List.getElem?_append_left (hl ▸ hlt)] at hk
    exact h.queue i e' k p he hk hp
  · rw [List.getElem?_append_right hge] at he
    rw [List.getElem?_append_right (hl ▸ hge), hl] at hk
    obtain ⟨h1, h2⟩ := List.getElem?_eq_some_iff.1 he
    have hz : i - l.sched.queue.length = 0 := by simpa using h1
    rw [hz] at he hk
    cases he
    cases hk
    exact hpin p hp

theorem Ledger.Pinned.take (h : l.Pinned) (hl : l.tickets.length = l.sched.queue.length) (t : T)
    (hq : s.queue = l.sched.queue.eraseIdx (l.sched.queue.findIdx (allowed l.sched.fibers t))) :
    ({ l.take t with sched := s } : Ledger T C).Pinned := by
  unfold Ledger.take
  simp only
  generalize hi : l.sched.queue.findIdx (allowed l.sched.fibers t) = i at hq ⊢
  split
  · rename_i e k he hk
    refine ⟨fun j e' k' p hj hkj hp => ?_, fun u r p hu hp => ?_, h.executed⟩
    · replace hkj : (l.tickets.eraseIdx i)[j]? = some k' := hkj
      rw [hq, List.getElem?_eraseIdx] at hj
      rw [List.getElem?_eraseIdx] at hkj
      split at hj
      · rename_i hlt
        rw [if_pos hlt] at hkj
        exact h.queue j e' k' p hj hkj hp
      · rename_i hlt
        rw [if_neg hlt] at hkj
        exact h.queue (j + 1) e' k' p hj hkj hp
    · by_cases hut : u = t
      · subst hut
        simp only [Function.update_self] at hu
        cases hu
        -- the scan does not take an entry that is pinned to another thread
        have hth := h.queue i e k p he hk hp
        subst hi
        have hlt := (List.getElem?_eq_some_iff.1 he).1
        have hal := List.findIdx_getElem (w := hlt)
        have hel := Option.some.inj ((List.getElem?_eq_getElem hlt).symm.trans he)
        rw [hel, allowed_iff] at hal
        by_contra hne
        refine hal (.inl ⟨by simp [hth], fun hx => hne ?_⟩)
        rw [hth] at hx
        exact (Option.some.inj hx).symm
      · simp only [Function.update_of_ne hut] at hu
        exact h.round u r p hu hp
  · rename_i hno
    refine ⟨fun j e k p hj hk hp => ?_, h.round, h.executed⟩
    rcases Nat.lt_or_ge i l.sched.queue.length with hlt | hge
    · exact (hno _ _ (List.getElem?_eq_getElem hlt) (List.getElem?_eq_getElem (hl ▸ hlt))).elim
    · rw [hq, List.eraseIdx_of_length_le hge] at hj
      exact h.queue j e k p hj hk hp

/-- Every action that does not put a pinned task back keeps the pins. -/
theorem pinned_step (hl : l.tickets.length = l.sched.queue.length) (h : l.Pinned) (hst : l.Step a l')
    (hk : l.KeepsPin a) : l'.Pinned := by
  unfold Ledger.Step Ledger.next at hst
  obtain ⟨s, hs, rfl⟩ := Option.map_eq_some_iff.1 hst
  -- the actions that leave the queue alone
  have hkeep : s.queue = l.sched.queue → ({ l with sched := s } : Ledger T C).Pinned := fun hq =>
    ⟨by rw [hq]; exact h.queue, h.round, h.executed⟩
  cases a with
  | schedule task thread =>
    have hq : s.queue = l.sched.queue ++ [⟨task, thread⟩] := by rw [Sched.nextAny_schedule hs, Sched.push]
    exact h.push hl hq fun _ hp => hp
  | scan t =>
    refine h.take hl t ?_
    obtain ⟨-, rfl⟩ := Sched.next_scan hs
    exact (pick_eq l.sched.fibers t l.sched.queue).2
  | requeue t =>
    obtain ⟨f, hq⟩ := queue_of_requeue hs
    have hnone : (l.round t).bind (·.ticket.pin) = none := by
      cases hr : l.round t with
      | none => rfl
      | some r => exact hk r hr
    show ({ (l.enqueue _).endRound t with sched := s } : Ledger T C).Pinned
    rw [hnone]
    exact (h.push hl hq fun _ hp => by cases hp).endRound t
  | swapIn t => exact (hkeep (queue_of_other hs (by simp) (by simp) (by simp))).execute t
  | dispatch t _ | inspect t | assign t =>
    have hp := hkeep (queue_of_other hs (by simp) (by simp) (by simp))
    simp only [Ledger.note]
    split
    · exact hp.endRound t
    · exact hp
  | create _ | test | write | scanTest _ | scanWrite _ | arm _ | yieldToHold _ | yieldToReady _ | finish _ _ | save _
    | decrement _ | block _ | wake _ | drain _ | leave _ =>
        exact hkeep (queue_of_other hs (by simp) (by simp) (by simp))

end Pin

/-! ## Runs -/

/-- Pinned tasks stay on their thread. For any number of threads and in every interleaving in which `run()`
puts no task back into the queue that was taken under a pin: a fiber or callback that was scheduled
for one thread is executed by that thread only. -/
theorem pinned_execution [Fintype T] [DecidableEq T] {as : List (Act T C)} {l : Ledger T C}
    (hr : Lts.Run (fun l a l' => l.Step a l' ∧ l.KeepsPin a) Ledger.init as l) :
    ∀ k t p, (k, t) ∈ l.executed → k.pin = some p → t = p := by
  have h0 : (Ledger.init : Ledger T C).Pinned :=
    ⟨fun i e k p he => by simp [Ledger.init, Sched.init] at he, nofun, nofun⟩
  have hs : l.Sound ∧ l.Pinned := hr.invariant (P := fun l => l.Sound ∧ l.Pinned) ⟨init_sound, h0⟩
    fun l a l' h hst => ⟨sound_step h.1 hst.1, pinned_step h.1.length h.2 hst.1 hst.2⟩
  exact hs.2.executed

/-- A callback pinned to the first of two threads yields to `READY` and is resumed by the second. -/
def strayCallback : List (Act Bool Unit) :=
  [.schedule (.cb ()) (some false), .scan false, .dispatch false 0, .swapIn false, .yieldToReady false, .save false,
    .decrement false, .inspect false, .requeue false, .scan true, .dispatch true 1, .swapIn true]

theorem stray_callback_unpinned : ¬ ∀ (as : List (Act Bool Unit)) (l : Ledger Bool Unit),
    Lts.Run Ledger.Step Ledger.init as l → ∀ k t p, (k, t) ∈ l.executed → k.pin = some p → t = p := by
  intro h
  have hr : ∃ l1 l2 l3 l4 l5 l6 l7 l8 l9 l10 l11 l : Ledger Bool Unit,
      Ledger.init.Step (.schedule (.cb ()) (some false)) l1 ∧ l1.Step (.scan false) l2 ∧
        l2.Step (.dispatch false 0) l3 ∧
      l3.Step (.swapIn false) l4 ∧ l4.Step (.yieldToReady false) l5 ∧ l5.Step (.save false) l6 ∧
      l6.Step (.decrement false) l7 ∧ l7.Step (.inspect false) l8 ∧ l8.Step (.requeue false) l9 ∧
      l9.Step (.scan true) l10 ∧ l10.Step (.dispatch true 1) l11 ∧ l11.Step (.swapIn true) l ∧
      l.executed = [(⟨0, some false⟩, false), (⟨1, some false⟩, true)] :=
    ⟨_, _, _, _, _, _, _, _, _, _, _, _, rfl, rfl, rfl, rfl, rfl, rfl, rfl, rfl, rfl, rfl, rfl, rfl, rfl⟩
  obtain ⟨l1, l2, l3, l4, l5, l6, l7, l8, l9, l10, l11, l, h1, h2, h3, h4, h5, h6, h7, h8, h9, h10, h11, h12, he⟩ := hr
  have hrun : Lts.Run Ledger.Step Ledger.init strayCallback l :=
    .cons h1 (.cons h2 (.cons h3 (.cons h4 (.cons h5 (.cons h6 (.cons h7 (.cons h8 (.cons h9 (.cons h10 (.cons h11
      (.single h12)))))))))))
  have := h _ l hrun ⟨1, some false⟩ true false (by rw [he]; simp) rfl
  cases this

/-- A callback pinned to the second of two threads is passed over by the first. -/
theorem pinned_execution_cb : ∃ l : Ledger Bool Unit,
    Lts.Run (fun l a l' => l.Step a l' ∧ l.KeepsPin a) Ledger.init
      [.schedule (.cb ()) (some true), .scan false, .scan true, .dispatch true 0, .swapIn true] l ∧
    l.executed = [(⟨0, some true⟩, true)] ∧ ∀ k t p, (k, t) ∈ l.executed → k.pin = some p → t = p := by
  have hr : ∃ l1 l2 l3 l4 l : Ledger Bool Unit,
      Ledger.init.Step (.schedule (.cb ()) (some true)) l1 ∧ l1.Step (.scan false) l2 ∧ l2.Step (.scan true) l3 ∧
      l3.Step (.dispatch true 0) l4 ∧ l4.Step (.swapIn true) l ∧ l.executed = [(⟨0, some true⟩, true)] :=
    ⟨_, _, _, _, _, rfl, rfl, rfl, rfl, rfl, rfl⟩
  obtain ⟨l1, l2, l3, l4, l, h1, h2, h3, h4, h5, he⟩ := hr
  have hrun : Lts.Run (fun (l : Ledger Bool Unit) a l' => l.Step a l' ∧ l.KeepsPin a) Ledger.init
      [.schedule (.cb ()) (some true), .scan false, .scan true, .dispatch true 0, .swapIn true] l :=
    .cons ⟨h1, trivial⟩ (.cons ⟨h2, trivial⟩ (.cons ⟨h3, trivial⟩ (.cons ⟨h4, trivial⟩ (.single ⟨h5, trivial⟩))))
  exact ⟨l, hrun, he, pinned_execution hrun⟩

end ServerFrame.Schedulers
