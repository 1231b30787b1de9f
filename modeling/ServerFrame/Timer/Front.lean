/-
What holds of the set of timers along every run, and what a thread that sleeps until the earliest
deadline relies on: `getNextTimer` clears `m_tickled`, and as long as that flag is clear no timer of the
set is earlier than the deadline it saw. Timers that are put back without a notification (by
`refresh`, and by `listExpiredCb` if they recur) do not become earlier, since a timer was armed at a
reading of the clock that has passed: `m_next - m_ms` never exceeds the time.
-/
import ServerFrame.Timer.Account

namespace ServerFrame.Timers

universe u

variable {C : Type u}

/-! ## The set of timers along runs -/

/-- The representation of the set. In every state reached by `addTimer`, `cancel`, `refresh`, `reset`,
`getNextTimer` and `listExpiredCb`, in any order and with any clock readings: the set is strictly
ordered by the current deadlines and the addresses of its members, no timer is in it twice, and a
timer is in it if and only if it has a callback; so a timer with a callback is found, `cancel` never
erases the end, and `cancel`, `refresh` and `reset` of such a timer return true. -/
theorem timer_set {now : UInt64} {l : List (Op C × Out C)} {m : TimerManager C}
    (hr : Lts.Run Step (TimerManager.init now) l m) :
    (m.timers.Pairwise fun h k => ∀ t u, m.heap[h]? = some t → m.heap[k]? = some u →
      t.next < u.next ∨ (t.next = u.next ∧ t.addr < u.addr)) ∧
    m.timers.Nodup ∧
    (∀ h ∈ m.timers, h < m.heap.length) ∧
    (∀ h t, m.heap[h]? = some t → (h ∈ m.timers ↔ t.cb.isSome)) ∧
    (∀ h t, m.heap[h]? = some t → t.cb.isSome →
      OrderedSet.find Before m.key h m.timers = some h ∧
      (∃ m', m.cancel h = some (m', true)) ∧
      (∀ clock, ∃ m', m.refresh h clock = some (m', true)) ∧
      ∀ ms from_now clock, ∃ m' front, m.reset h ms from_now clock = some (m', true, front)) ∧
    ∀ op, (exec m op).isSome := by
  have hw : WF m := (account_run hr).wf
  have hcb : ∀ {h t}, m.heap[h]? = some t → m.cbOf h = t.cb := fun ht => by
    unfold TimerManager.cbOf; rw [ht]; rfl
  refine ⟨List.Pairwise.imp (fun hhk t u ht hu => ?_) hw.ordered, by simpa using hw.nodup, fun h hm =>
    ?_, fun h t ht => ?_,
    fun h t ht hc => ?_, fun op => ?_⟩
  · unfold TimerManager.key at hhk
    rw [ht, hu] at hhk
    exact (before_some t u).1 hhk
  · exact lt_of_cbOf ((hw.mem_iff h).1 hm)
  · rw [hw.mem_iff h, hcb ht]
  · rw [← hcb ht] at hc
    refine ⟨(hw.take hc).1, ?_, fun clock => ?_, fun ms from_now clock => ?_⟩
    · rcases cancel_spec hw h with ⟨hn, -⟩ | ⟨m', -, he, -⟩
      · rw [hn] at hc; cases hc
      · exact ⟨m', he⟩
    · obtain ⟨m', he, -⟩ := refresh_spec hw h clock
      rw [hc] at he
      exact ⟨m', he⟩
    · obtain ⟨m', b, front, he, -, -, hb⟩ := reset_spec hw h ms from_now clock
      rw [hb hc] at he
      exact ⟨m', front, he⟩
  · obtain ⟨m', o, he⟩ := exec_defined hw op
    rw [he]; rfl

/-- Two timers with one deadline stand in the order of their addresses. -/
theorem timer_set_tie : ∃ m : TimerManager Unit,
    Lts.Run Step (TimerManager.init 5)
      [(.addTimer 10 () false 5 64, .handle 0 true), (.addTimer 10 () true 5 32, .handle 1 false)] m ∧
    m.timers = [1, 0] ∧ m.timers.Nodup := by
  have hr : Lts.Run Step (TimerManager.init 5 : TimerManager Unit)
      [(.addTimer 10 () false 5 64, .handle 0 true), (.addTimer 10 () true 5 32, .handle 1 false)]
      ⟨[⟨false, 10, 15, some (), 64⟩, ⟨true, 10, 15, some (), 32⟩], [1, 0], true, 5⟩ :=
    .cons ⟨by decide, rfl⟩ (.single ⟨by decide, rfl⟩)
  exact ⟨_, hr, rfl, (timer_set hr).2.1⟩

/-! ## The clock -/

/-- The clock reading of a section. -/
def reading : Op C → Option UInt64
  | .addTimer _ _ _ now _ | .refresh _ now | .reset _ _ true now | .getNextTimer now | .listExpiredCb now _ => some now
  | .reset _ _ false _ | .cancel _ => none

/-- The clock readings of a run, from the one of the constructor on. -/
def readings (start : UInt64) (l : List (Op C × Out C)) : List UInt64 := start :: l.filterMap fun a => reading a.1

/-- The reading of a section against the readings `R` before it, under a clock that does not go back.
`refresh`, `reset` and `getNextTimer` read the clock under the lock. `addTimer` and `listExpiredCb` read
it before they take the lock, so the sections of other threads may come in between; for `listExpiredCb`
they take less than the hour that would make it see a clock that went back. -/
def Timely (R : List UInt64) : Op C → Prop
  | .refresh _ now | .reset _ _ true now | .getNextTimer now => ∀ x ∈ R, x ≤ now
  | .listExpiredCb now _ => ∀ x ∈ R, x ≤ now ∨ x - 60 * 60 * 1000 ≤ now
  | .addTimer _ _ _ _ _ | .reset _ _ false _ | .cancel _ => True

/-- The clock does not go back during a run. -/
def Forward (start : UInt64) (l : List (Op C × Out C)) : Prop :=
  ∀ l₁ a l₂, l = l₁ ++ a :: l₂ → Timely (readings start l₁) a.1

/-- No sum of a clock reading and a period that the section computes overflows. -/
def Exact (m : TimerManager C) : Op C → Prop
  | .addTimer ms _ _ now _ => now.toNat + ms.toNat < 2 ^ 64
  | .refresh h now => ∀ t, m.heap[h]? = some t → t.cb.isSome → now.toNat + t.ms.toNat < 2 ^ 64
  | .reset h ms true now => ∀ t, m.heap[h]? = some t → t.cb.isSome → now.toNat + ms.toNat < 2 ^ 64
  | .listExpiredCb now _ => ∀ h ∈ m.timers, ∀ t, m.heap[h]? = some t → t.recurring = true → t.next ≤ now →
      now.toNat + t.ms.toNat < 2 ^ 64
  | .reset _ _ false _ | .cancel _ | .getNextTimer _ => True

/-- A section whose sums do not overflow. -/
def ExactStep (m : TimerManager C) (a : Op C × Out C) (m' : TimerManager C) : Prop := Step m a m' ∧ Exact m a.1

/-- Whether a section calls `onTimerInsertedAtFront`. -/
def notified : Op C × Out C → Bool
  | (_, .handle _ front) | (_, .flag _ front) => front
  | _ => false

/-- The deadline of the first timer of the set, if there is one. -/
def TimerManager.earliest (m : TimerManager C) : Option UInt64 := m.timers.head?.bind fun h => m.heap[h]?.map (·.next)

/-! ## Deadlines -/

/-- The deadline and the period of a timer. -/
def TimerManager.armOf (m : TimerManager C) (h : Nat) :
    Option (UInt64 × UInt64) := m.heap[h]?.map fun t => (t.next, t.ms)

/-- Every timer of the set was armed at one of the readings `R`, and the manager last compared the clock
with one of them. -/
structure Armed (R : List UInt64) (m : TimerManager C) : Prop where
  previous : m.previouseTime ∈ R
  armed : ∀ h ∈ m.timers, ∀ d ms, m.armOf h = some (d, ms) → ∃ x ∈ R, d = x + ms

/-- No timer of the set is earlier than `D`, `none` being never. -/
def Quiet (D : Option UInt64) (m : TimerManager C) : Prop :=
  ∀ h ∈ m.timers, ∀ d ms, m.armOf h = some (d, ms) → ∃ e ∈ D, e ≤ d

/-- A section that notifies nobody: it takes timers out of the set, and those it re-arms, at `now`, do
not become earlier. -/
structure Rearms (now : UInt64) (m m' : TimerManager C) : Prop where
  tickled : m'.tickled = m.tickled
  previous : m'.previouseTime = m.previouseTime ∨ m'.previouseTime = now
  mem : ∀ h ∈ m'.timers, h ∈ m.timers
  arm : ∀ h ∈ m'.timers, ∀ d ms, m'.armOf h = some (d, ms) →
    m.armOf h = some (d, ms) ∨ ∃ d₀, m.armOf h = some (d₀, ms) ∧ d = now + ms ∧ d₀ ≤ d

/-- A section that puts timer `h`, armed at `x`, into the set through `addTimer(val, lock)`: where nobody
is notified, the timer is not the first one. -/
structure Inserts (x : UInt64) (h : Nat) (front : Bool) (m m' : TimerManager C) : Prop where
  previous : m'.previouseTime = m.previouseTime
  self : ∀ d ms, m'.armOf h = some (d, ms) → d = x + ms
  others : ∀ k ∈ m'.timers, k ≠ h → k ∈ m.timers ∧ m'.armOf k = m.armOf k
  quiet : m.tickled = false → front = false → m'.tickled = false ∧
    ∀ d ms, m'.armOf h = some (d, ms) → ∃ k ∈ m.timers, ∃ d' ms', m.armOf k = some (d', ms') ∧ d' ≤ d

section Deadlines

variable {R : List UInt64} {D : Option UInt64} {now x : UInt64} {h : Nat} {front : Bool} {m m' : TimerManager C}

theorem Armed.mono {R' : List UInt64} (ha : Armed R m) (hR : ∀ x ∈ R, x ∈ R') : Armed R' m := by
  refine ⟨hR _ ha.previous, fun h hm d ms he => ?_⟩
  obtain ⟨x, hx, rfl⟩ := ha.armed h hm d ms he
  exact ⟨x, hR x hx, rfl⟩

theorem Rearms.of_subset (hh : m'.heap = m.heap) (ht : ∀ h ∈ m'.timers, h ∈ m.timers) (hk : m'.tickled = m.tickled)
    (hp : m'.previouseTime = m.previouseTime ∨ m'.previouseTime = now) : Rearms now m m' := by
  refine ⟨hk, hp, ht, fun h _ d ms he => .inl ?_⟩
  unfold TimerManager.armOf at he ⊢
  rw [← hh]
  exact he

theorem Rearms.armed (hr : Rearms now m m') (ha : Armed R m) (hn : now ∈ R) : Armed R m' := by
  refine ⟨?_, fun h hm d ms he => ?_⟩
  · rcases hr.previous with hp | hp
    · rw [hp]; exact ha.previous
    · rw [hp]; exact hn
  · rcases hr.arm h hm d ms he with h0 | ⟨d₀, -, hd, -⟩
    · exact ha.armed h (hr.mem h hm) d ms h0
    · exact ⟨now, hn, hd⟩

theorem Rearms.quiet (hr : Rearms now m m') (hq : Quiet D m) : Quiet D m' := by
  intro h hm d ms he
  rcases hr.arm h hm d ms he with h0 | ⟨d₀, h0, -, hle⟩
  · exact hq h (hr.mem h hm) d ms h0
  · obtain ⟨e, hD, hde⟩ := hq h (hr.mem h hm) d₀ ms h0
    exact ⟨e, hD, UInt64.le_trans hde hle⟩

theorem Inserts.armed (hi : Inserts x h front m m') (ha : Armed R m) (hx : x ∈ R) : Armed R m' := by
  refine ⟨by rw [hi.previous]; exact ha.previous, fun k hm d ms he => ?_⟩
  by_cases hk : k = h
  · subst hk
    exact ⟨x, hx, hi.self d ms he⟩
  · obtain ⟨hm0, h0⟩ := hi.others k hm hk
    exact ha.armed k hm0 d ms (h0 ▸ he)

/-- Where nobody is notified, an earlier timer was in the set before. -/
theorem Inserts.stays_quiet (hi : Inserts x h front m m') (hq : Quiet D m) (hk : m.tickled = false)
    (hf : front = false) : m'.tickled = false ∧ Quiet D m' := by
  obtain ⟨hk', hself⟩ := hi.quiet hk hf
  refine ⟨hk', fun k hm d ms he => ?_⟩
  by_cases hkh : k = h
  · subst hkh
    obtain ⟨p, hp, d', ms', hpa, hle⟩ := hself d ms he
    obtain ⟨e, hD, hde⟩ := hq p hp d' ms' hpa
    exact ⟨e, hD, UInt64.le_trans hde hle⟩
  · obtain ⟨hm0, h0⟩ := hi.others k hm hkh
    exact hq k hm0 d ms (h0 ▸ he)

/-- A period added to a later reading gives a later deadline, if the later sum does not overflow. -/
theorem add_le_add_of_exact {x now ms : UInt64} (hx : x ≤ now) (hs : now.toNat + ms.toNat < 2 ^ 64) :
    x + ms ≤ now + ms := by
  rw [UInt64.le_iff_toNat_le] at hx ⊢
  rw [UInt64.toNat_add, UInt64.toNat_add]
  omega

theorem le_add_of_exact {d now ms : UInt64} (hd : d ≤ now) (hs : now.toNat + ms.toNat < 2 ^ 64) : d ≤ now + ms := by
  rw [UInt64.le_iff_toNat_le] at hd ⊢
  rw [UInt64.toNat_add]
  omega

end Deadlines

/-! ## What each section does to the deadlines -/

theorem armOf_modify_other {m : TimerManager C} {h k : Nat} {f : Timer C → Timer C} (hk : k ≠ h) :
    (m.modify h f).armOf k = m.armOf k := by
  unfold TimerManager.armOf; rw [heap_modify, if_neg hk]

theorem armOf_modify {m : TimerManager C} {h : Nat} {f : Timer C → Timer C} (hn : ∀ t, (f t).next = t.next)
    (hs : ∀ t, (f t).ms = t.ms) (k : Nat) : (m.modify h f).armOf k = m.armOf k := by
  unfold TimerManager.armOf
  rw [heap_modify]
  split
  · rw [Option.map_map]; congr 1; funext t; simp [hn, hs]
  · rfl

theorem armOf_modify_self {m : TimerManager C} {h : Nat} {f : Timer C → Timer C} {t : Timer C}
    (ht : m.heap[h]? = some t) : (m.modify h f).armOf h = some ((f t).next, (f t).ms) := by
  unfold TimerManager.armOf; rw [heap_modify, if_pos rfl, ht]; rfl

theorem setErase_eq {m m' : TimerManager C} {h : Nat} (he : m.setErase h = some m') :
    ∃ ts, m' = { m with timers := ts } ∧ ∀ k ∈ ts, k ∈ m.timers := by
  unfold TimerManager.setErase at he
  obtain ⟨ts, hts, rfl⟩ := Option.map_eq_some_iff.1 he
  exact ⟨ts, rfl, fun k hk => OrderedSet.mem_of_mem_erase hts hk⟩

theorem cancel_rearms {m m' : TimerManager C} {h : Nat} {b : Bool} (now : UInt64) (he : m.cancel h = some (m', b)) :
    Rearms now m m' := by
  unfold TimerManager.cancel at he
  split at he
  · obtain ⟨m1, h1, h2⟩ := Option.bind_eq_some_iff.1 he
    cases h2
    obtain ⟨ts, rfl, hts⟩ := setErase_eq h1
    refine ⟨rfl, .inl rfl, hts, fun k _ d ms ha => .inl ?_⟩
    have hk := armOf_modify (m := m) (h := h) (f := fun t => { t with cb := none }) (fun _ => rfl) (fun _ => rfl) k
    exact hk.symm.trans ha
  · cases he
    exact .of_subset rfl (fun _ => id) rfl (.inl rfl)

/-- A refreshed timer was armed at an earlier reading, so it does not become earlier. -/
theorem refresh_rearms {R : List UInt64} {m m' : TimerManager C} {h : Nat} {now : UInt64} {b : Bool}
    (hw : WF m) (ha : Armed R m) (ht : ∀ x ∈ R, x ≤ now) (hx : Exact m (.refresh h now))
    (he : m.refresh h now = some (m', b)) : Rearms now m m' := by
  unfold TimerManager.refresh at he
  split at he
  · rename_i r ms nx c ad hh
    have hm : h ∈ m.timers := (hw.mem_iff h).2 (by unfold TimerManager.cbOf; rw [hh]; rfl)
    obtain ⟨x, hxR, hd⟩ := ha.armed h hm nx ms (by unfold TimerManager.armOf; rw [hh]; rfl)
    split at he
    · cases he
      exact .of_subset rfl (fun _ => id) rfl (.inl rfl)
    · obtain ⟨m1, h1, h2⟩ := Option.bind_eq_some_iff.1 he
      cases h2
      obtain ⟨ts, rfl, hts⟩ := setErase_eq h1
      refine ⟨rfl, .inl rfl, fun k hk => ?_, fun k hk d ms' hka => ?_⟩
      · rcases OrderedSet.mem_of_mem_insert hk with rfl | hk
        · exact hm
        · exact hts k hk
      · by_cases hkh : k = h
        · subst hkh
          have hself := armOf_modify_self (m := { m with timers := ts }) (h := k)
            (f := fun t => { t with next := now + t.ms }) hh
          obtain ⟨rfl, rfl⟩ := Prod.mk.inj (Option.some.inj (hka.symm.trans hself))
          refine .inr ⟨nx, by unfold TimerManager.armOf; rw [hh]; rfl, rfl, ?_⟩
          rw [hd]
          exact add_le_add_of_exact (ht x hxR) (hx _ hh rfl)
        · refine .inl ?_
          rw [← hka]
          exact (armOf_modify_other (m := { m with timers := ts }) hkh).symm
  · cases he
    exact .of_subset rfl (fun _ => id) rfl (.inl rfl)

/-! ### The expiry loop -/

/-- The timers the expiry loop takes out have a deadline that has passed. -/
theorem cut_due {m : TimerManager C} {now : UInt64} {probeAddr h : Nat} {t : Timer C}
    (hm : h ∈ (m.cut false now probeAddr).1) (ht : m.heap[h]? = some t) : t.next ≤ now := by
  simp only [TimerManager.cut, Bool.false_eq_true, if_false] at hm
  rcases List.mem_append.1 hm with hm | hm
  · have hlt := OrderedSet.lt_of_mem_before hm
    unfold TimerManager.key at hlt
    rw [ht, before_some] at hlt
    rcases hlt with hlt | ⟨heq, -⟩
    · exact UInt64.le_of_lt hlt
    · exact UInt64.le_of_eq heq
  · have hdue := List.mem_takeWhile_imp hm
    rw [ht] at hdue
    simp only [Option.map_some, Option.some.injEq, decide_eq_true_eq] at hdue
    exact UInt64.le_of_eq hdue

/-- One round of the loop, on a timer that is as it was at the start and has expired. -/
theorem deliver_rearms {m : TimerManager C} {now : UInt64} {h : Nat} {acc : TimerManager C × List (Nat × Option C)}
    {t : Timer C} (hr : Rearms now m acc.1) (hm : h ∈ m.timers) (ht : m.heap[h]? = some t)
    (hacc : acc.1.heap[h]? = some t) (hx : t.recurring = true → t.next ≤ now + t.ms) :
    Rearms now m (TimerManager.deliver now acc h).1 ∧
      ∀ k ≠ h, (TimerManager.deliver now acc h).1.heap[k]? = acc.1.heap[k]? := by
  unfold TimerManager.deliver
  simp only [hacc]
  split
  · rename_i hrec
    refine ⟨⟨hr.tickled, hr.previous, fun k hk => ?_, fun k hk d ms hka => ?_⟩, fun k hk => ?_⟩
    · rcases OrderedSet.mem_of_mem_insert hk with rfl | hk
      · exact hm
      · exact hr.mem k hk
    · by_cases hkh : k = h
      · subst hkh
        have hself := armOf_modify_self (m := acc.1) (h := k) (f := fun t => { t with next := now + t.ms }) hacc
        obtain ⟨rfl, rfl⟩ := Prod.mk.inj (Option.some.inj (hka.symm.trans hself))
        exact .inr ⟨t.next, by unfold TimerManager.armOf; rw [ht]; rfl, rfl, hx hrec⟩
      · have hother := armOf_modify_other (m := acc.1) (f := fun t => { t with next := now + t.ms }) hkh
        replace hka := hother.symm.trans hka
        rcases OrderedSet.mem_of_mem_insert hk with rfl | hk
        · exact absurd rfl hkh
        · exact hr.arm k hk d ms hka
    · exact (heap_modify acc.1 h _ k).trans (if_neg hk)
  · refine ⟨⟨hr.tickled, hr.previous, hr.mem, fun k hk d ms hka => ?_⟩, fun k hk => ?_⟩
    · have hsame := armOf_modify (m := acc.1) (h := h) (f := fun t => { t with cb := none }) (fun _ => rfl)
        (fun _ => rfl) k
      exact hr.arm k hk d ms (hsame.symm.trans hka)
    · exact (heap_modify acc.1 h _ k).trans (if_neg hk)

theorem deliver_fold_rearms {m : TimerManager C} {now : UInt64} :
    ∀ (out : List Nat) (acc : TimerManager C × List (Nat × Option C)), out.Nodup → Rearms now m acc.1 →
      (∀ h ∈ out, h ∈ m.timers ∧ acc.1.heap[h]? = m.heap[h]? ∧ (m.heap[h]?).isSome) →
      (∀ h ∈ out, ∀ t, m.heap[h]? = some t → t.recurring = true → t.next ≤ now + t.ms) →
      Rearms now m (out.foldl (TimerManager.deliver now) acc).1
  | [], _, _, hr, _, _ => hr
  | h :: out, acc, hnd, hr, hout, hx => by
    rw [List.nodup_cons] at hnd
    obtain ⟨hm, hsame, hsome⟩ := hout h (by simp)
    obtain ⟨t, ht⟩ := Option.isSome_iff_exists.1 hsome
    obtain ⟨hr', hkeep⟩ := deliver_rearms hr hm ht (hsame.trans ht) (hx h (by simp) t ht)
    refine deliver_fold_rearms out _ hnd.2 hr' (fun k hk => ?_) fun k hk => hx k (List.mem_cons_of_mem _ hk)
    obtain ⟨hkm, hks, hki⟩ := hout k (List.mem_cons_of_mem _ hk)
    exact ⟨hkm, (hkeep k fun e => hnd.1 (e ▸ hk)).trans hks, hki⟩

theorem detectClockRollover_false {m : TimerManager C} {now : UInt64}
    (h : m.previouseTime ≤ now ∨ m.previouseTime - 60 * 60 * 1000 ≤ now) : (m.detectClockRollover now).2 = false := by
  unfold TimerManager.detectClockRollover
  rcases h with h | h
  · simp [UInt64.not_lt.2 h]
  · simp only [Bool.and_eq_false_iff, decide_eq_false_iff_not]
    exact .inr (UInt64.not_lt.2 h)

theorem listExpiredCb_rearms {R : List UInt64} {m : TimerManager C} {now : UInt64} {probeAddr : Nat} (hw : WF m)
    (ha : Armed R m) (ht : ∀ x ∈ R, x ≤ now ∨ x - 60 * 60 * 1000 ≤ now) (hx : Exact m (.listExpiredCb now probeAddr)) :
    Rearms now m (m.listExpiredCb now probeAddr).1 := by
  have hro := detectClockRollover_false (ht _ ha.previous)
  unfold TimerManager.listExpiredCb
  split
  · exact .of_subset rfl (fun _ => id) rfl (.inl rfl)
  · simp only [hro, Bool.not_false, Bool.true_and]
    split
    · exact .of_subset rfl (fun _ => id) rfl (.inr rfl)
    · set m1 := (m.detectClockRollover now).1 with hm1
      have hcut : (m1.cut false now probeAddr).1 ++ (m1.cut false now probeAddr).2 = m.timers :=
        cut_append m1 false now probeAddr
      have hmem : ∀ h ∈ (m1.cut false now probeAddr).1, h ∈ m.timers := fun h hh => by
        rw [← hcut]; exact List.mem_append_left _ hh
      have hnd : m.timers.Nodup := by simpa using hw.nodup
      rw [← hcut] at hnd
      refine deliver_fold_rearms _ _ (List.nodup_append.1 hnd).1 ?_ (fun h hh => ⟨hmem h hh, rfl, ?_⟩)
        fun h hh t hht hrec => ?_
      · refine .of_subset rfl (fun h hh => ?_) rfl (.inr rfl)
        rw [← hcut]
        exact List.mem_append_right _ hh
      · obtain ⟨t, -, htt, -⟩ := hw.exists_timer (by simpa using hmem h hh)
        rw [htt]; rfl
      · have hdue := cut_due hh (m := m1) hht
        exact le_add_of_exact hdue (hx h (hmem h hh) t hht hrec hdue)

/-! ### Insertion -/

theorem addTimerLocked_tickled (m : TimerManager C) (h : Nat) :
    (m.addTimerLocked h).1.tickled = (m.tickled || (m.addTimerLocked h).2) := by
  unfold TimerManager.addTimerLocked
  simp only
  split
  · rename_i hf
    simp [hf]
  · rename_i hf
    rw [Bool.eq_false_iff.2 hf, Bool.or_false]
    rfl

/-- `addTimer(val, lock)` of a timer that is outside the set. -/
theorem addTimerLocked_inserts {m m0 : TimerManager C} {h : Nat} {x : UInt64} (hl : Loose m [h])
    (hself : ∀ d ms, m.armOf h = some (d, ms) → d = x + ms)
    (hmem : ∀ k ∈ m.timers, k ∈ m0.timers ∧ m.armOf k = m0.armOf k)
    (hk : m.tickled = m0.tickled) (hp : m.previouseTime = m0.previouseTime) :
    Inserts x h (m.addTimerLocked h).2 m0 (m.addTimerLocked h).1 := by
  have harm : ∀ k, (m.addTimerLocked h).1.armOf k = m.armOf k := fun k => by
    unfold TimerManager.armOf; rw [(addTimerLocked_fst m h).1]
  obtain ⟨hw, pre, post, hs, hi⟩ := hl.setInsert
  refine ⟨?_, fun d ms hd => hself d ms (harm h ▸ hd), fun k hkm hkh => ?_, fun ht hf => ?_⟩
  · rw [← hp]
    unfold TimerManager.addTimerLocked
    simp only
    split <;> rfl
  · rw [harm]
    rw [(addTimerLocked_fst m h).2] at hkm
    exact hmem k ((OrderedSet.mem_of_mem_insert hkm).resolve_left hkh)
  · have hfr : (((m.setInsert h).timers.head? == some h) && !m.tickled) = false := hf
    rw [hk, ht] at hfr
    -- the inserted timer is not the first one, so another one stands before it
    cases pre with
    | nil => rw [hi] at hfr; simp at hfr
    | cons p pre =>
      have hpm : p ∈ m.timers := by rw [hs]; simp
      obtain ⟨hp0, hpa⟩ := hmem p hpm
      have hord := hw.ordered
      unfold OrderedSet.Ordered at hord
      rw [hi, List.cons_append, List.pairwise_cons] at hord
      have hph : Before (m.key p) (m.key h) := hord.1 h (by simp)
      refine ⟨?_, fun d ms hd => ⟨p, hp0, ?_⟩⟩
      · rw [addTimerLocked_tickled, hf, hk, ht]
        rfl
      · rw [harm] at hd
        obtain ⟨t, hht, he⟩ := Option.map_eq_some_iff.1 hd
        obtain ⟨u, -, hpu, -⟩ := hl.exists_timer (h := p) (by simp [hpm])
        obtain ⟨rfl, -⟩ := Prod.mk.inj he
        unfold TimerManager.key at hph
        rw [hht, hpu, before_some] at hph
        refine ⟨u.next, u.ms, by rw [← hpa]; unfold TimerManager.armOf; rw [hpu]; rfl, ?_⟩
        rcases hph with hlt | ⟨heq, -⟩
        · exact UInt64.le_of_lt hlt
        · exact UInt64.le_of_eq heq

theorem addTimer_inserts {m : TimerManager C} (hw : WF m) {ms now : UInt64} {cb : C} {recurring : Bool} {addr : Nat}
    (ha : ∀ h ∈ m.timers, m.addrOf h ≠ some addr) :
    Inserts now m.heap.length (m.addTimer ms cb recurring now addr).2.2 m (m.addTimer ms cb recurring now addr).1 := by
  let t := Timer.new ms cb recurring now addr
  have hl := hw.alloc t rfl ha
  refine addTimerLocked_inserts hl (fun d ms' hd => ?_) (fun k hk => ⟨hk, ?_⟩) rfl rfl
  · have hnew : (m.heap ++ [t])[m.heap.length]? = some t := by simp
    unfold TimerManager.armOf at hd
    rw [hnew] at hd
    cases hd
    rfl
  · have hlt : k < m.heap.length := lt_of_cbOf ((hw.mem_iff k).1 hk)
    unfold TimerManager.armOf
    rw [List.getElem?_append_left hlt]

/-- `reset` changes nothing, or arms a timer of the set anew: at the reading of the clock, or at the
reading it was armed at before. -/
theorem reset_inserts {R : List UInt64} {m m' : TimerManager C} {h : Nat} {ms now : UInt64} {from_now b front : Bool}
    (hw : WF m) (ha : Armed R m) (he : m.reset h ms from_now now = some (m', b, front)) :
    (m' = m ∧ front = false) ∨ ∃ x, (x ∈ R ∨ (from_now = true ∧ x = now)) ∧ Inserts x h front m m' := by
  unfold TimerManager.reset at he
  cases ht : m.heap[h]? with
  | none =>
    simp only [ht] at he
    cases he
    exact .inl ⟨rfl, rfl⟩
  | some t =>
    simp only [ht] at he
    split at he
    · cases he
      exact .inl ⟨rfl, rfl⟩
    · split at he
      · cases he
        exact .inl ⟨rfl, rfl⟩
      · rename_i hn
        split at he
        · cases he
          exact .inl ⟨rfl, rfl⟩
        · obtain ⟨m1, h1, h2⟩ := Option.bind_eq_some_iff.1 he
          cases h2
          have hc : (m.cbOf h).isSome := by
            unfold TimerManager.cbOf
            rw [ht, Option.bind_some]
            simpa [Option.isSome_iff_ne_none, Option.isNone_iff_eq_none] using hn
          obtain ⟨-, m2, h3, hl, -⟩ := hw.take hc
          obtain rfl : m1 = m2 := Option.some.inj (h1.symm.trans h3)
          obtain ⟨ts, rfl, hts⟩ := setErase_eq h1
          refine .inr ⟨if from_now = true then now else t.next - t.ms, ?_, ?_⟩
          · split
            · exact .inr ⟨by assumption, rfl⟩
            · obtain ⟨x, hx, hd⟩ := ha.armed h ((hw.mem_iff h).2 hc) t.next t.ms
                (by unfold TimerManager.armOf; rw [ht]; rfl)
              rw [hd, UInt64.add_sub_cancel]
              exact .inl hx
          · let f : Timer C → Timer C := fun t' =>
              { t' with ms := ms, next := (if from_now = true then now else t.next - t.ms) + ms }
            refine addTimerLocked_inserts (hl.modify (h := h) (f := f) (by simp) (fun _ => rfl) (fun _ => rfl))
              (fun d ms' hd => ?_) (fun k hk => ⟨hts k hk, ?_⟩) rfl rfl
            · rw [armOf_modify_self (m := { m with timers := ts }) (f := f) ht] at hd
              cases hd
              rfl
            · have hkh : k ≠ h := fun e =>
                (List.nodup_append.1 hl.nodup).2.2 h (by simp) k hk e.symm
              exact armOf_modify_other (m := { m with timers := ts }) hkh

/-! ## Runs -/

theorem getNextTimer_eq (m : TimerManager C) (now : UInt64) :
    (m.getNextTimer now).1 = { m with tickled := false } := by
  unfold TimerManager.getNextTimer
  simp only
  split <;> rfl

/-- What a section does to the deadlines: it re-arms without a notification, it inserts a timer, or it is
the `getNextTimer` that clears the flag. The readings it arms with are `R` and its own. -/
theorem step_deadlines {R : List UInt64} {m m' : TimerManager C} {a : Op C × Out C} (hw : WF m) (ha : Armed R m)
    (ht : Timely R a.1) (hs : ExactStep m a m') :
    (∃ now, (now ∈ R ∨ reading a.1 = some now) ∧ notified a = false ∧ Rearms now m m') ∨
    (∃ x h, (x ∈ R ∨ reading a.1 = some x) ∧ Inserts x h (notified a) m m') ∨
    (∃ now, a.1 = .getNextTimer now ∧ m' = { m with tickled := false }) := by
  obtain ⟨op, o⟩ := a
  obtain ⟨⟨hen, he⟩, hx⟩ := hs
  simp only at hen he hx ht
  cases op with
  | addTimer ms cb recurring now addr =>
    simp only [exec, Option.some.injEq, Prod.mk.injEq] at he
    obtain ⟨rfl, rfl⟩ := he
    exact .inr (.inl ⟨now, _, .inr rfl, addTimer_inserts hw hen⟩)
  | cancel h =>
    obtain ⟨⟨m1, b⟩, h1, h2⟩ := Option.map_eq_some_iff.1 he
    cases h2
    exact .inl ⟨m.previouseTime, .inl ha.previous, rfl, cancel_rearms _ h1⟩
  | refresh h now =>
    obtain ⟨⟨m1, b⟩, h1, h2⟩ := Option.map_eq_some_iff.1 he
    cases h2
    exact .inl ⟨now, .inr rfl, rfl, refresh_rearms hw ha ht hx h1⟩
  | reset h ms from_now now =>
    obtain ⟨⟨m1, b, front⟩, h1, h2⟩ := Option.map_eq_some_iff.1 he
    cases h2
    rcases reset_inserts hw ha h1 with ⟨rfl, rfl⟩ | ⟨x, hxR, hi⟩
    · exact .inl ⟨_, .inl ha.previous, rfl, .of_subset rfl (fun _ => id) rfl (.inl rfl)⟩
    · refine .inr (.inl ⟨x, h, hxR.imp id ?_, hi⟩)
      rintro ⟨rfl, rfl⟩
      rfl
  | getNextTimer now =>
    simp only [exec, Option.some.injEq, Prod.mk.injEq] at he
    exact .inr (.inr ⟨now, rfl, he.1.symm.trans (getNextTimer_eq m now)⟩)
  | listExpiredCb now probeAddr =>
    simp only [exec, Option.some.injEq, Prod.mk.injEq] at he
    obtain ⟨rfl, rfl⟩ := he
    exact .inl ⟨now, .inr rfl, rfl, listExpiredCb_rearms hw ha ht hx⟩

theorem mem_readings_snoc {start x : UInt64} {l : List (Op C × Out C)} {a : Op C × Out C}
    (h : x ∈ readings start l ∨ reading a.1 = some x) : x ∈ readings start (l ++ [a]) := by
  unfold readings at h ⊢
  rw [List.filterMap_append]
  rcases h with h | h
  · rcases List.mem_cons.1 h with rfl | h
    · exact List.mem_cons_self
    · exact List.mem_cons_of_mem _ (List.mem_append_left _ h)
  · refine List.mem_cons_of_mem _ (List.mem_append_right _ ?_)
    simp [h]

/-- One section arms timers only with readings of the run. -/
theorem armed_step {start : UInt64} {l : List (Op C × Out C)} {m m' : TimerManager C} {a : Op C × Out C} (hw : WF m)
    (ha : Armed (readings start l) m) (ht : Timely (readings start l) a.1) (hs : ExactStep m a m') :
    Armed (readings start (l ++ [a])) m' := by
  have ha' : Armed (readings start (l ++ [a])) m := ha.mono fun x hx => mem_readings_snoc (.inl hx)
  rcases step_deadlines hw ha ht hs with ⟨now, hn, -, hr⟩ | ⟨x, h, hx, hi⟩ | ⟨now, -, rfl⟩
  · exact hr.armed ha' (mem_readings_snoc hn)
  · exact hi.armed ha' (mem_readings_snoc hx)
  · exact ⟨ha'.previous, ha'.armed⟩

theorem Forward.left {start : UInt64} {l l' : List (Op C × Out C)} (h : Forward start (l ++ l')) : Forward start l := by
  intro l₁ a l₂ hl
  exact h l₁ a (l₂ ++ l') (by rw [hl]; simp)

/-- Along every run the timers are well formed and were armed at readings of the run. -/
theorem armed_run {start : UInt64} {l : List (Op C × Out C)} {m : TimerManager C}
    (hr : Lts.Run ExactStep (TimerManager.init start) l m) : Forward start l → WF m ∧ Armed (readings start l) m := by
  refine hr.history (P := fun l m => Forward start l → WF m ∧ Armed (readings start l) m) (fun _ => ?_)
    fun l t a u _ ih hs hf => ?_
  · exact ⟨init_wf start, List.mem_cons_self, fun h hm => (by cases hm)⟩
  · obtain ⟨hw, ha⟩ := ih hf.left
    exact ⟨(step_effect hw hs.1).wf, armed_step hw ha (hf l a [] rfl) hs⟩

/-- A deadline at which a thread sleeps: as long as nobody is notified, no timer of the set is earlier. -/
theorem quiet_step {R : List UInt64} {D : Option UInt64} {m m' : TimerManager C} {a : Op C × Out C} (hw : WF m)
    (ha : Armed R m) (ht : Timely R a.1) (hs : ExactStep m a m') (hn : notified a = false)
    (hk : m.tickled = false) (hq : Quiet D m) : m'.tickled = false ∧ Quiet D m' := by
  rcases step_deadlines hw ha ht hs with ⟨now, -, -, hr⟩ | ⟨x, h, -, hi⟩ | ⟨now, -, rfl⟩
  · exact ⟨hr.tickled.trans hk, hr.quiet hq⟩
  · exact hi.stays_quiet hq hk hn
  · exact ⟨rfl, hq⟩

/-- No timer of an ordered set is earlier than its first one. -/
theorem WF.quiet_earliest {m : TimerManager C} (hw : WF m) : Quiet m.earliest m := by
  intro h hm d ms he
  obtain ⟨t, ht, hd⟩ := Option.map_eq_some_iff.1 he
  obtain ⟨rfl, -⟩ := Prod.mk.inj hd
  unfold TimerManager.earliest
  have hord := hw.ordered
  unfold OrderedSet.Ordered at hord
  cases hts : m.timers with
  | nil => rw [hts] at hm; cases hm
  | cons p ps =>
    obtain ⟨u, -, hu, -⟩ := hw.exists_timer (h := p) (by simp [hts])
    refine ⟨u.next, by simp [hu], ?_⟩
    rw [hts] at hm hord
    rcases List.mem_cons.1 hm with rfl | hm
    · rw [ht] at hu
      cases hu
      exact UInt64.le_refl _
    · have hph := (List.pairwise_cons.1 hord).1 h hm
      unfold TimerManager.key at hph
      rw [ht, hu, before_some] at hph
      rcases hph with hlt | ⟨heq, -⟩
      · exact UInt64.le_of_lt hlt
      · exact UInt64.le_of_eq heq

/-- An earlier timer is never missed by a sleeper. In every run with a clock that does not go back and
sums that do not overflow: if at some point after a `getNextTimer` a timer of the set is earlier than
the earliest deadline that `getNextTimer` saw (than never, if the set was empty), then
`onTimerInsertedAtFront` has been called since. -/
theorem earlier_timer_notified {start now : UInt64} {l₁ l₂ : List (Op C × Out C)} {out : Out C}
    {m₁ m₂ m : TimerManager C} (h₁ : Lts.Run ExactStep (TimerManager.init start) l₁ m₁)
    (hs : ExactStep m₁ (.getNextTimer now, out) m₂) (h₂ : Lts.Run ExactStep m₂ l₂ m)
    (hf : Forward start (l₁ ++ (.getNextTimer now, out) :: l₂))
    {h : Nat} {t : Timer C} (hm : h ∈ m.timers) (ht : m.heap[h]? = some t)
    (he : ∀ e ∈ m₁.earliest, t.next < e) : ∃ a ∈ l₂, notified a = true := by
  have hw₁ : WF m₁ := (armed_run h₁ hf.left).1
  obtain rfl : m₂ = { m₁ with tickled := false } := by
    have hx := hs.1.2
    simp only [exec, Option.some.injEq, Prod.mk.injEq] at hx
    exact hx.1.symm.trans (getNextTimer_eq m₁ now)
  by_contra hno
  have hno' : ∀ a ∈ l₂, notified a = false := fun a ha =>
    Bool.eq_false_iff.2 fun hn => hno ⟨a, ha, hn⟩
  have h0 : Quiet m₁.earliest { m₁ with tickled := false } := hw₁.quiet_earliest
  -- as long as nobody is notified the flag stays clear and no timer comes before the deadline
  have key : (∀ a ∈ l₂, notified a = false) → Forward start ((l₁ ++ [(.getNextTimer now, out)]) ++ l₂) →
      m.tickled = false ∧ Quiet m₁.earliest m := by
    refine h₂.history (P := fun l₂ m => (∀ a ∈ l₂, notified a = false) →
      Forward start ((l₁ ++ [(.getNextTimer now, out)]) ++ l₂) → m.tickled = false ∧ Quiet m₁.earliest m)
      (fun _ _ => ⟨rfl, h0⟩) fun l m a m' hl ih hst hn hfl => ?_
    rw [← List.append_assoc] at hfl
    obtain ⟨hk, hq⟩ := ih (fun b hb => hn b (List.mem_append_left _ hb)) hfl.left
    obtain ⟨hw, ha⟩ := armed_run ((h₁.snoc hs).append hl) hfl.left
    exact quiet_step hw ha (hfl _ a [] rfl) hst (hn a (by simp)) hk hq
  have hf' : Forward start ((l₁ ++ [(.getNextTimer now, out)]) ++ l₂) := by
    rw [List.append_assoc]
    exact hf
  obtain ⟨e, hD, hle⟩ := (key hno' hf').2 h hm t.next t.ms (by unfold TimerManager.armOf; rw [ht]; rfl)
  exact UInt64.not_lt.2 hle (he e hD)

/-- A timer with a deadline at 15 is added while a thread sleeps until 105. -/
theorem earlier_timer_notified_add : ∃ m₁ m₂ m : TimerManager Unit,
    Lts.Run ExactStep (TimerManager.init 5) [(.addTimer 100 () false 5 64, .handle 0 true)] m₁ ∧
    ExactStep m₁ (.getNextTimer 5, .timeout 100) m₂ ∧
    Lts.Run ExactStep m₂ [(.addTimer 10 () false 5 32, .handle 1 true)] m ∧
    ∃ a ∈ [((.addTimer 10 () false 5 32, .handle 1 true) : Op Unit × Out Unit)], notified a = true := by
  have h₁ : Lts.Run ExactStep (TimerManager.init 5 : TimerManager Unit)
      [(.addTimer 100 () false 5 64, .handle 0 true)] ⟨[⟨false, 100, 105, some (), 64⟩], [0], true, 5⟩ :=
    .single ⟨⟨by decide, rfl⟩, by unfold Exact; decide⟩
  have hs : ExactStep (⟨[⟨false, 100, 105, some (), 64⟩], [0], true, 5⟩ : TimerManager Unit)
      (.getNextTimer 5, .timeout 100) ⟨[⟨false, 100, 105, some (), 64⟩], [0], false, 5⟩ :=
    ⟨⟨trivial, rfl⟩, trivial⟩
  have h₂ : Lts.Run ExactStep (⟨[⟨false, 100, 105, some (), 64⟩], [0], false, 5⟩ : TimerManager Unit)
      [(.addTimer 10 () false 5 32, .handle 1 true)]
      ⟨[⟨false, 100, 105, some (), 64⟩, ⟨false, 10, 15, some (), 32⟩], [1, 0], true, 5⟩ :=
    .single ⟨⟨by decide, rfl⟩, by unfold Exact; decide⟩
  refine ⟨_, _, _, h₁, hs, h₂, earlier_timer_notified h₁ hs h₂ (fun l₁ a l₂ hl => ?_) (h := 1) (by simp) rfl ?_⟩
  · -- the only section that looks at the readings before it is the second one
    match l₁, hl with
    | [], hl => cases hl; trivial
    | [_], hl => cases hl; intro x hx; simp [readings, reading] at hx; subst hx; decide
    | [_, _], hl => cases hl; trivial
    | _ :: _ :: _ :: _, hl => simp at hl
  · intro e he
    have : e = 105 := by simpa [TimerManager.earliest] using he.symm
    subst this
    decide

end ServerFrame.Timers
