/-
Which timers a call of `listExpiredCb` delivers and how it leaves them: whatever the address of the probe is, the cut of
`m_timers` is where the deadlines pass the reading of the clock.
-/
import ServerFrame.Timer.Account

namespace ServerFrame.Timers

universe u

variable {C : Type u} {m : TimerManager C}

namespace TimerManager

/-- The deadline of timer `h` has come. -/
def due (m : TimerManager C) (now : UInt64) (h : Nat) : Bool := m.heap[h]?.any fun t => decide (t.next ≤ now)

/-- The timers that are delivered: all after a rollover of the clock, else those that are due. -/
def fired (m : TimerManager C) (now : UInt64) : List Nat :=
  if (m.detectClockRollover now).2 then m.timers else m.timers.filter (m.due now)

end TimerManager

/-! ## The cut -/

theorem WF.exists_of_mem (hw : WF m) {h : Nat} (hm : h ∈ m.timers) : ∃ t, m.heap[h]? = some t := by
  obtain ⟨t, -, ht, -⟩ := hw.exists_timer (h := h) (by simpa using hm)
  exact ⟨t, ht⟩

theorem due_eq {h : Nat} {t : Timer C} (ht : m.heap[h]? = some t) (now : UInt64) :
    m.due now h = decide (t.next ≤ now) := by
  rw [TimerManager.due, ht, Option.any_some]

/-- The timers behind one that is not due are not due. -/
theorem WF.not_due (hw : WF m) {z : Nat} (pre : List Nat) {post : List Nat} {now : UInt64}
    (hs : m.timers = pre ++ z :: post) (hz : m.due now z = false) : ∀ y ∈ z :: post, m.due now y = false := by
  have hmem : ∀ y ∈ z :: post, y ∈ m.timers := fun y hy => hs ▸ List.mem_append_right _ hy
  have hord : OrderedSet.Ordered Before m.key (z :: post) :=
    List.Pairwise.sublist (hs ▸ List.sublist_append_right _ _) hw.ordered
  intro y hy
  rcases List.mem_cons.1 hy with rfl | hpost
  · exact hz
  · obtain ⟨t, ht⟩ := hw.exists_of_mem (hmem z (List.mem_cons_self ..))
    obtain ⟨u, hu⟩ := hw.exists_of_mem (hmem y hy)
    have hlt : Before (m.key z) (m.key y) := (List.pairwise_cons.1 hord).1 y hpost
    unfold TimerManager.key at hlt
    rw [ht, hu, before_some] at hlt
    have hle : t.next ≤ u.next := by
      rcases hlt with hlt | ⟨he, -⟩
      · exact UInt64.le_of_lt hlt
      · exact he ▸ UInt64.le_refl _
    rw [due_eq ht, decide_eq_false_iff_not] at hz
    rw [due_eq hu, decide_eq_false_iff_not]
    exact fun hu' => hz (UInt64.le_trans hle hu')

/-- The timers before the cut are due: those less than the probe, and those at its deadline that follow. -/
theorem WF.cut_due (hw : WF m) (now : UInt64) (probeAddr : Nat) :
    ∀ h ∈ (m.cut false now probeAddr).1, m.due now h = true := by
  have happend := cut_append m false now probeAddr
  intro h hh
  have hmem : h ∈ m.timers := by
    rw [← happend]
    exact List.mem_append_left _ hh
  obtain ⟨t, ht⟩ := hw.exists_of_mem hmem
  rw [due_eq ht, decide_eq_true_iff]
  unfold TimerManager.cut at hh
  simp only [Bool.false_eq_true, if_false, List.mem_append] at hh
  rcases hh with hpre | hrest
  · have hlt := OrderedSet.lt_of_mem_before hpre
    unfold TimerManager.key at hlt
    rw [ht, before_some] at hlt
    rcases hlt with hlt | ⟨he, -⟩
    · exact UInt64.le_of_lt hlt
    · exact he ▸ UInt64.le_refl _
  · have he := List.mem_takeWhile_imp hrest
    rw [decide_eq_true_iff, ht, Option.map_some, Option.some.injEq] at he
    exact he ▸ UInt64.le_refl _

/-- The timers behind the cut are not: the first of them is not less than the probe and not at its deadline. -/
theorem WF.cut_not_due (hw : WF m) (now : UInt64) (probeAddr : Nat) :
    ∀ h ∈ (m.cut false now probeAddr).2, m.due now h = false := by
  have happend := cut_append m false now probeAddr
  cases hrest : (m.cut false now probeAddr).2 with
  | nil => exact fun h hh => by cases hh
  | cons z zs =>
    rw [hrest] at happend
    refine hw.not_due _ happend.symm ?_
    obtain ⟨t, ht⟩ := hw.exists_of_mem (h := z) (happend ▸ List.mem_append_right _ (List.mem_cons_self ..))
    unfold TimerManager.cut at hrest
    simp only [Bool.false_eq_true, if_false] at hrest
    have hne := List.head?_dropWhile_not (fun h => decide (m.heap[h]?.map (·.next) = some now))
      (OrderedSet.lowerBound Before m.key (some (Timer.probe now probeAddr)) m.timers)
    have hge : ¬ Before (m.key z) (some (Timer.probe now probeAddr)) :=
      OrderedSet.not_lt_of_mem_lowerBound hw.ordered
        ((List.dropWhile_sublist _).subset (hrest ▸ List.mem_cons_self ..))
    unfold TimerManager.key at hge
    rw [hrest] at hne
    rw [ht, before_some, not_or] at hge
    simp only [List.head?_cons, ht, Option.map_some, Option.some.injEq, decide_eq_false_iff_not] at hne
    rw [due_eq ht, decide_eq_false_iff_not]
    intro hle
    exact hne (UInt64.le_antisymm hle (UInt64.not_lt.1 hge.1))

theorem WF.cut_eq (hw : WF m) (now : UInt64) (probeAddr : Nat) :
    (m.cut false now probeAddr).1 = m.timers.filter (m.due now) := by
  rw [← cut_append m false now probeAddr, List.filter_append,
    List.filter_eq_self.2 (hw.cut_due now probeAddr),
    List.filter_eq_nil_iff.2 fun h hh => by rw [hw.cut_not_due now probeAddr h hh]; exact Bool.false_ne_true,
    List.append_nil]

/-- The section under the write lock takes the timers that are delivered off the front of the set and delivers them. -/
theorem listExpiredCb_eq (hw : WF m) (now : UInt64) (probeAddr : Nat) :
    ∃ m₁ : TimerManager C, m₁.heap = m.heap ∧ m.timers = m.fired now ++ m₁.timers ∧
      m.listExpiredCb now probeAddr = (m.fired now).foldl (TimerManager.deliver now) (m₁, []) := by
  unfold TimerManager.listExpiredCb
  split
  · rename_i hnil
    have hfired : m.fired now = [] := by
      unfold TimerManager.fired
      rw [hnil, List.filter_nil, ite_self]
    exact ⟨m, rfl, by rw [hfired, List.nil_append], by rw [hfired]; rfl⟩
  · rename_i front rest hcons
    cases hro : (m.detectClockRollover now).2 with
    | true =>
      have hfired : m.fired now = m.timers := by
        unfold TimerManager.fired
        rw [hro, if_pos rfl]
      refine ⟨{ (m.detectClockRollover now).1 with timers := [] }, rfl, by rw [hfired, List.append_nil], ?_⟩
      simp only [hro, Bool.not_true, Bool.false_and, Bool.false_eq_true, if_false]
      rw [hfired]
      rfl
    | false =>
      have hfired : m.fired now = m.timers.filter (m.due now) := by
        unfold TimerManager.fired
        rw [hro, if_neg Bool.false_ne_true]
      obtain ⟨t, ht⟩ := hw.exists_of_mem (h := front) (hcons ▸ List.mem_cons_self ..)
      simp only [hro, Bool.not_false, Bool.true_and, decide_eq_true_eq]
      split
      · rename_i hgt
        change (m.heap[front]?.map (·.next)).getD 0 > now at hgt
        rw [ht, Option.map_some, Option.getD_some] at hgt
        -- the first timer is not due, so no timer is: the function returns before the cut
        have hdue : m.due now front = false := by
          rw [due_eq ht, decide_eq_false_iff_not]
          exact UInt64.not_le.2 hgt
        have hnone := hw.not_due [] hcons hdue
        have hnil : m.fired now = [] := by
          rw [hfired, hcons, List.filter_eq_nil_iff]
          exact fun h hh => by rw [hnone h hh]; exact Bool.false_ne_true
        exact ⟨(m.detectClockRollover now).1, rfl, by rw [hnil]; rfl, by rw [hnil]; rfl⟩
      · refine ⟨{ (m.detectClockRollover now).1 with timers := (m.cut false now probeAddr).2 }, rfl, ?_, ?_⟩
        · rw [hfired, ← hw.cut_eq now probeAddr]
          exact (cut_append m false now probeAddr).symm
        · rw [hfired, ← hw.cut_eq now probeAddr]
          rfl

/-! ## The delivery -/

/-- A timer after its delivery. -/
def rearm (now : UInt64) (t : Timer C) : Timer C :=
  if t.recurring then { t with next := now + t.ms } else { t with cb := none }

theorem deliver_heap (now : UInt64) (acc : TimerManager C × List (Nat × Option C)) (h k : Nat) :
    (TimerManager.deliver now acc h).1.heap[k]? =
      if k = h then acc.1.heap[k]?.map (rearm now) else acc.1.heap[k]? := by
  unfold TimerManager.deliver
  cases ht : acc.1.heap[h]? with
  | none =>
    by_cases hk : k = h
    · rw [if_pos hk, hk, ht]
      rfl
    · rw [if_neg hk]
  | some t =>
    simp only
    split
    · rename_i hr
      rw [setInsert_heap, heap_modify]
      by_cases hk : k = h
      · rw [if_pos hk, if_pos hk, hk, ht, Option.map_some, Option.map_some, rearm, if_pos hr]
      · rw [if_neg hk, if_neg hk]
    · rename_i hr
      rw [heap_modify]
      by_cases hk : k = h
      · rw [if_pos hk, if_pos hk, hk, ht, Option.map_some, Option.map_some, rearm, if_neg hr]
      · rw [if_neg hk, if_neg hk]

theorem deliver_fold_heap (now : UInt64) (k : Nat) : ∀ (out : List Nat) (acc : TimerManager C × List (Nat × Option C)),
    out.Nodup → (out.foldl (TimerManager.deliver now) acc).1.heap[k]? =
      if k ∈ out then acc.1.heap[k]?.map (rearm now) else acc.1.heap[k]?
  | [], acc, _ => rfl
  | h :: out, acc, hnd => by
    obtain ⟨hnot, hnd⟩ := List.nodup_cons.1 hnd
    rw [List.foldl_cons, deliver_fold_heap now k out _ hnd, deliver_heap]
    by_cases hk : k = h
    · subst hk
      rw [if_neg hnot, if_pos rfl, if_pos (List.mem_cons_self ..)]
    · rw [if_neg hk]
      by_cases hout : k ∈ out
      · rw [if_pos hout, if_pos (List.mem_cons_of_mem _ hout)]
      · rw [if_neg hout, if_neg fun hm => (List.mem_cons.1 hm).elim hk hout]

theorem mem_fired {now : UInt64} {h : Nat} : h ∈ m.fired now ↔ h ∈ m.timers ∧
    ((m.detectClockRollover now).2 = true ∨ ∃ t, m.heap[h]? = some t ∧ t.next ≤ now) := by
  have hdue : m.due now h = true ↔ ∃ t, m.heap[h]? = some t ∧ t.next ≤ now := by
    rw [TimerManager.due, Option.any_eq_true]
    simp only [decide_eq_true_eq]
  unfold TimerManager.fired
  split
  · rename_i hro
    exact ⟨fun hm => ⟨hm, .inl hro⟩, fun hm => hm.1⟩
  · rename_i hro
    rw [List.mem_filter, hdue, or_iff_right hro]

theorem fired_sublist (m : TimerManager C) (now : UInt64) : (m.fired now).Sublist m.timers := by
  unfold TimerManager.fired
  split
  · exact List.Sublist.refl _
  · exact List.filter_sublist

/-- Exactly the timers that are due are delivered, or all if the clock went back: each once, with its callback, in the
order of the deadlines and addresses. After that they are as they were, but for the deadline of a recurring timer, which
is a period from now, and the callback of a one-shot timer, which is gone and with it the timer from the set. -/
theorem listExpiredCb_exact (hw : WF m) (now : UInt64) (probeAddr : Nat) :
    (∀ h, h ∈ m.fired now ↔ h ∈ m.timers ∧
      ((m.detectClockRollover now).2 = true ∨ ∃ t, m.heap[h]? = some t ∧ t.next ≤ now)) ∧
    (m.fired now).Nodup ∧
    ((m.fired now).Pairwise fun h k => ∀ t u, m.heap[h]? = some t → m.heap[k]? = some u →
      t.next < u.next ∨ (t.next = u.next ∧ t.addr < u.addr)) ∧
    (m.listExpiredCb now probeAddr).2 = (m.fired now).map (fun h => (h, m.cbOf h)) ∧
    WF (m.listExpiredCb now probeAddr).1 ∧
    (∀ h, h ∈ (m.listExpiredCb now probeAddr).1.timers ↔
      h ∈ m.timers ∧ (h ∈ m.fired now → m.recurringOf h = some true)) ∧
    (∀ h t, m.heap[h]? = some t → (m.listExpiredCb now probeAddr).1.heap[h]? = some
      (if h ∉ m.fired now then t
      else if t.recurring then { t with next := now + t.ms } else { t with cb := none })) := by
  have hnodup : (m.fired now).Nodup := (fired_sublist m now).nodup (by simpa using hw.nodup)
  obtain ⟨m₁, hheap, htimers, hrun⟩ := listExpiredCb_eq hw now probeAddr
  have hl : Loose m₁ (m.fired now) := (Loose.removePrefix hw htimers).of_eq hheap rfl
  obtain ⟨m', hfold, hw', -, -, hcb⟩ := deliver_fold now (m.fired now) m₁ [] hl
  rw [hfold, List.nil_append] at hrun
  have hs := Same.of_heap hheap
  refine ⟨fun h => mem_fired, hnodup, ?_, ?_, ?_, fun h => ?_, fun h t ht => ?_⟩
  -- the order of what fires is that of the set
  · refine List.Pairwise.imp (fun hhk t u ht hu => ?_) (List.Pairwise.sublist (fired_sublist m now) hw.ordered)
    unfold TimerManager.key at hhk
    rw [ht, hu] at hhk
    exact (before_some t u).1 hhk
  · rw [hrun]
    exact List.map_congr_left fun h _ => by rw [hs.live]
  · rw [hrun]
    exact hw'
  · rw [hrun, hw'.mem_iff, hcb, hs.recurring, hs.live, hw.mem_iff]
    -- who is in the set has a callback: what fires keeps it where it recurs
    by_cases hfired : h ∈ m.fired now
    · obtain ⟨t, ht⟩ := hw.exists_of_mem (mem_fired.1 hfired).1
      have hrec : m.recurringOf h = some t.recurring := by
        unfold TimerManager.recurringOf
        rw [ht]
        rfl
      rw [hrec]
      cases t.recurring <;> simp [hfired]
    · simp [hfired]
  · have hget := deliver_fold_heap now h (m.fired now) (m₁, []) hnodup
    rw [hfold] at hget
    simp only [hheap, ht] at hget
    rw [hrun, hget]
    by_cases hfired : h ∈ m.fired now
    · rw [if_pos hfired, if_neg (not_not_intro hfired)]
      rfl
    · rw [if_neg hfired, if_pos hfired]

/-- Of two timers at the reading of the clock and one behind it the two are delivered; one of them recurs and is due
again at once. -/
theorem listExpiredCb_exact_tie : ∃ m : TimerManager Unit, WF m ∧ m.timers = [1, 0, 2] ∧
    (m.listExpiredCb 15 48).2 = [(1, some ()), (0, some ())] ∧
    (m.listExpiredCb 15 48).1.heap[1]? = some ⟨true, 0, 15, some (), 32⟩ := by
  have hr : Lts.Run Step (TimerManager.init 5 : TimerManager Unit)
      [(.addTimer 10 () false 5 64, .handle 0 true), (.addTimer 0 () true 15 32, .handle 1 false),
        (.addTimer 1 () false 15 96, .handle 2 false)]
      ⟨[⟨false, 10, 15, some (), 64⟩, ⟨true, 0, 15, some (), 32⟩, ⟨false, 1, 16, some (), 96⟩], [1, 0, 2], true, 5⟩ :=
    .cons ⟨by decide, rfl⟩ (.cons ⟨by decide, rfl⟩ (.single ⟨by decide, rfl⟩))
  have hw := (account_run hr).wf
  obtain ⟨-, -, -, hcbs, -, -, hheap⟩ := listExpiredCb_exact hw 15 48
  exact ⟨_, hw, rfl, hcbs, hheap 1 ⟨true, 0, 15, some (), 32⟩ rfl⟩

end ServerFrame.Timers
