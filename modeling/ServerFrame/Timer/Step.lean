/-
What one critical section of the timer manager does: every enabled operation is defined (no
`erase(end())`), keeps the representation invariant and the kind of every timer, and changes which
timers are live in one of four ways only: a new timer, a cancel, the delivery of a one-shot timer,
or nothing (a recurring timer that is delivered stays live).
-/
import ServerFrame.Timer.Invariant

namespace ServerFrame.Timers

universe u

variable {C : Type u}

/-- The callbacks a section outputs, each beside its timer. -/
def outputs : Op C × Out C → List (Nat × Option C)
  | (_, .cbs l) => l
  | _ => []

/-- How often a section outputs the callback of timer `h`. -/
def delivered (h : Nat) (a : Op C × Out C) : Nat := ((outputs a).map Prod.fst).count h

/-- Whether a section is a `cancel()` of timer `h` that returned true. -/
def cancelled (h : Nat) : Op C × Out C → Nat
  | (.cancel k, .flag true _) => if k = h then 1 else 0
  | _ => 0

/-- What a section does to the timers. -/
structure Effect (m : TimerManager C) (a : Op C × Out C) (m' : TimerManager C) : Prop where
  wf : WF m'
  length : m.heap.length ≤ m'.heap.length
  recurring : ∀ h < m.heap.length, m'.recurringOf h = m.recurringOf h
  live : ∀ h < m.heap.length, m'.cbOf h =
    if cancelled h a = 1 ∨ (delivered h a = 1 ∧ m.recurringOf h = some false) then none else m.cbOf h
  once : ∀ h, cancelled h a + delivered h a ≤ 1
  output : ∀ h c, (h, c) ∈ outputs a → m.cbOf h = c ∧ c.isSome
  cancel : ∀ h, cancelled h a = 1 → (m.cbOf h).isSome
  fresh : ∀ h, m.heap.length ≤ h → h < m'.heap.length →
    ∃ ms cb recurring now addr front, a = (.addTimer ms cb recurring now addr, .handle h front) ∧ m'.cbOf h = some cb

/-- The timers are as before, whatever happened to the rest of the manager. -/
structure Same (m m' : TimerManager C) : Prop where
  length : m'.heap.length = m.heap.length
  recurring : ∀ h, m'.recurringOf h = m.recurringOf h
  live : ∀ h, m'.cbOf h = m.cbOf h

theorem Same.of_heap {m m' : TimerManager C} (h : m'.heap = m.heap) : Same m m' := by
  refine ⟨by rw [h], fun k => ?_, fun k => ?_⟩
  · unfold TimerManager.recurringOf; rw [h]
  · unfold TimerManager.cbOf; rw [h]

theorem Same.modify (m : TimerManager C) (h : Nat) {f : Timer C → Timer C} (hr : ∀ t, (f t).recurring = t.recurring)
    (hc : ∀ t, (f t).cb = t.cb) : Same m (m.modify h f) :=
  ⟨modify_length m h f, recurringOf_modify hr, cbOf_modify hc⟩

theorem Same.trans {a b c : TimerManager C} (h1 : Same a b) (h2 : Same b c) : Same a c :=
  ⟨h2.length.trans h1.length, fun k => (h2.recurring k).trans (h1.recurring k), fun k => (h2.live k).trans (h1.live k)⟩

/-- A section that leaves the timers as they are, delivers nothing and cancels nothing. -/
theorem Effect.quiet {m m' : TimerManager C} {a : Op C × Out C} (hw : WF m') (hs : Same m m')
    (ho : outputs a = []) (hc : ∀ h, cancelled h a = 0) : Effect m a m' := by
  have hd : ∀ h, delivered h a = 0 := fun h => by simp [delivered, ho]
  refine ⟨hw, by rw [hs.length],
    fun h _ => hs.recurring h, fun h _ => ?_, fun h => ?_, fun h c hm => ?_, fun h hx => ?_,
    fun h h1 h2 => ?_⟩
  · simp [hc, hd, hs.live]
  · simp [hc, hd]
  · rw [ho] at hm; cases hm
  · rw [hc] at hx; cases hx
  · rw [hs.length] at h2; omega

/-! ## Insertion -/

theorem addTimerLocked_fst (m : TimerManager C) (h : Nat) :
    (m.addTimerLocked h).1.heap = m.heap ∧ (m.addTimerLocked h).1.timers = (m.setInsert h).timers := by
  unfold TimerManager.addTimerLocked
  simp only
  split <;> exact ⟨rfl, rfl⟩

theorem Loose.of_eq {m m' : TimerManager C} {out : List Nat} (hl : Loose m out) (hh : m'.heap = m.heap)
    (ht : m'.timers = m.timers) : Loose m' out := by
  have hk : m'.key = m.key := by funext k; unfold TimerManager.key; rw [hh]
  have hc : m'.cbOf = m.cbOf := by funext k; unfold TimerManager.cbOf; rw [hh]
  have ha : m'.addrOf = m.addrOf := by funext k; unfold TimerManager.addrOf; rw [hh]
  exact ⟨by rw [hk, ht]; exact hl.ordered, by rw [ht]; exact hl.nodup, by rw [ht, hc]; exact hl.live,
    by rw [ht, ha]; exact hl.addr⟩

theorem Loose.addTimerLocked {m : TimerManager C} {out : List Nat} {h : Nat} (hl : Loose m (h :: out)) :
    Loose (m.addTimerLocked h).1 out :=
  hl.setInsert.1.of_eq (addTimerLocked_fst m h).1 (addTimerLocked_fst m h).2

/-- A new timer, still outside the set. -/
theorem WF.alloc {m : TimerManager C} (hw : WF m) (t : Timer C) {c : C} (hc : t.cb = some c)
    (ha : ∀ h ∈ m.timers, m.addrOf h ≠ some t.addr) :
    Loose { m with heap := m.heap ++ [t] } [m.heap.length] := by
  have hlt : ∀ h ∈ m.timers, h < m.heap.length := fun h hh => by
    obtain ⟨t, c, ht, -⟩ := hw.exists_timer (by simpa using hh)
    exact (List.getElem?_eq_some_iff.1 ht).1
  have hget : ∀ h < m.heap.length, (m.heap ++ [t])[h]? = m.heap[h]? := fun h hh => List.getElem?_append_left hh
  have hnew : (m.heap ++ [t])[m.heap.length]? = some t := by simp
  refine ⟨hw.ordered.imp fun x hx y hy hxy => ?_, ?_, fun k => ?_, ?_⟩
  · unfold TimerManager.key at hxy ⊢
    rw [hget x (hlt x hx), hget y (hlt y hy)]; exact hxy
  · rw [List.singleton_append, List.nodup_cons]
    exact ⟨fun hm => Nat.lt_irrefl _ (hlt _ hm), by simpa using hw.nodup⟩
  · rw [List.singleton_append, List.mem_cons]
    unfold TimerManager.cbOf
    rcases Nat.lt_trichotomy k m.heap.length with hk | rfl | hk
    · show _ ↔ ((m.heap ++ [t])[k]?.bind (·.cb)).isSome
      rw [hget k hk]
      have := hw.mem_iff k
      unfold TimerManager.cbOf at this
      rw [← this]
      exact ⟨fun h => h.resolve_left (Nat.ne_of_lt hk), .inr⟩
    · show _ ↔ ((m.heap ++ [t])[m.heap.length]?.bind (·.cb)).isSome
      rw [hnew]; simp [hc]
    · show _ ↔ ((m.heap ++ [t])[k]?.bind (·.cb)).isSome
      have : (m.heap ++ [t])[k]? = none := by rw [List.getElem?_eq_none_iff]; simp; omega
      rw [this]
      simp only [Option.bind_none, Option.isSome_none, Bool.false_eq_true, iff_false, not_or]
      exact ⟨by omega, fun hm => by have := hlt k hm; omega⟩
  · have hold : ∀ h ∈ m.timers, ({ m with heap := m.heap ++ [t] } : TimerManager C).addrOf h = m.addrOf h :=
        fun h hh => by
      unfold TimerManager.addrOf; rw [hget h (hlt h hh)]
    have hself : ({ m with heap := m.heap ++ [t] } : TimerManager C).addrOf m.heap.length = some t.addr := by
      unfold TimerManager.addrOf; rw [hnew]; rfl
    intro a ha' b hb' hne
    rw [List.singleton_append, List.mem_cons] at ha' hb'
    rcases ha' with rfl | ha' <;> rcases hb' with rfl | hb'
    · exact absurd rfl hne
    · rw [hself, hold b hb']; exact fun e => ha b hb' e.symm
    · rw [hself, hold a ha']; exact ha a ha'
    · rw [hold a ha', hold b hb']; exact hw.addr a (by simpa using ha') b (by simpa using hb') hne

/-- `addTimer` creates one live timer and changes no other. -/
theorem addTimer_effect {m : TimerManager C} (hw : WF m) (ms : UInt64) (cb : C) (recurring : Bool) (now : UInt64)
    (addr : Nat) (ha : ∀ h ∈ m.timers, m.addrOf h ≠ some addr) :
    (m.addTimer ms cb recurring now addr).2.1 = m.heap.length ∧
    Effect m (.addTimer ms cb recurring now addr,
        .handle (m.addTimer ms cb recurring now addr).2.1 (m.addTimer ms cb recurring now addr).2.2)
      (m.addTimer ms cb recurring now addr).1 := by
  let t := Timer.new ms cb recurring now addr
  have hl := (hw.alloc t rfl ha).addTimerLocked
  have hh : (m.addTimer ms cb recurring now addr).1.heap = m.heap ++ [t] := (addTimerLocked_fst _ _).1
  have hget : ∀ h < m.heap.length, (m.addTimer ms cb recurring now addr).1.heap[h]? = m.heap[h]? := fun h hlt => by
    rw [hh, List.getElem?_append_left hlt]
  refine ⟨rfl, hl, by rw [hh]; simp, fun h hlt => ?_, fun h hlt => ?_, fun h => by simp [cancelled, delivered, outputs],
    fun h c hm => (by cases hm), fun h hc => (by cases hc), fun h h1 h2 => ?_⟩
  · unfold TimerManager.recurringOf; rw [hget h hlt]
  · unfold TimerManager.cbOf; rw [hget h hlt]; simp [cancelled, delivered, outputs]
  · rw [hh, List.length_append, List.length_singleton] at h2
    obtain rfl : h = m.heap.length := by omega
    refine ⟨ms, cb, recurring, now, addr, _, rfl, ?_⟩
    unfold TimerManager.cbOf; rw [hh]; simp [t, Timer.new]

/-! ## Cancel, refresh and reset -/

theorem cbOf_eq_some {m : TimerManager C} {h : Nat} {c : C} (hc : m.cbOf h = some c) :
    ∃ t, m.heap[h]? = some t ∧ t.cb = some c := by
  unfold TimerManager.cbOf at hc
  cases ht : m.heap[h]? with
  | none => rw [ht] at hc; cases hc
  | some t => rw [ht] at hc; exact ⟨t, rfl, hc⟩

/-- A `cancel()` of a live timer takes it out and drops its callback; any other changes nothing. -/
theorem cancel_spec {m : TimerManager C} (hw : WF m) (h : Nat) :
    (m.cbOf h = none ∧ m.cancel h = some (m, false)) ∨
    (∃ m', (m.cbOf h).isSome ∧ m.cancel h = some (m', true) ∧ WF m' ∧ m'.heap.length = m.heap.length ∧
      (∀ k, m'.recurringOf k = m.recurringOf k) ∧ ∀ k, m'.cbOf k = if k = h then none else m.cbOf k) := by
  cases hc : m.cbOf h with
  | none =>
    refine .inl ⟨rfl, ?_⟩
    unfold TimerManager.cancel
    unfold TimerManager.cbOf at hc
    cases ht : m.heap[h]? with
    | none => rfl
    | some t =>
      rw [ht] at hc
      obtain ⟨r, ms, nx, cb, ad⟩ := t
      cases hc; rfl
  | some c =>
    obtain ⟨t, ht, htc⟩ := cbOf_eq_some hc
    have hm : h ∈ m.timers := (hw.mem_iff h).2 (by rw [hc]; rfl)
    let f : Timer C → Timer C := fun t => { t with cb := none }
    -- `cancel` clears the callback before it searches the set, which the order does not look at
    have hrank : ∀ k, rank ((m.modify h f).key k) = rank (m.key k) := fun k => by
      unfold TimerManager.key
      rw [heap_modify]
      split
      · cases m.heap[k]? <;> rfl
      · rfl
    obtain ⟨pre, post, hs, he⟩ := Loose.setErase hw (m.modify h f) hm rfl hrank
    refine .inr ⟨{ m.modify h f with timers := pre ++ post }, rfl, ?_, ?_, modify_length m h f,
      recurringOf_modify fun _ => rfl, fun k => ?_⟩
    · unfold TimerManager.cancel
      rw [ht]
      obtain ⟨r, ms, nx, cb, ad⟩ := t
      cases htc
      show ((m.modify h f).setErase h >>= fun m => some (m, true)) = _
      rw [he]; rfl
    · exact (Loose.remove hw hs).kill (f := f) (fun _ => rfl) (fun _ => rfl)
    · show (m.modify h f).cbOf k = _
      by_cases hk : k = h
      · subst hk
        unfold TimerManager.cbOf
        rw [heap_modify, if_pos rfl, ht, if_pos rfl]; rfl
      · rw [cbOf_modify_other hk, if_neg hk]

/-- A live timer is found and can be taken out unchanged. -/
theorem WF.take {m : TimerManager C} (hw : WF m) {h : Nat} (hc : (m.cbOf h).isSome) :
    OrderedSet.find Before m.key h m.timers = some h ∧
    ∃ m', m.setErase h = some m' ∧ Loose m' [h] ∧ m'.heap = m.heap := by
  have hm : h ∈ m.timers := (hw.mem_iff h).2 hc
  obtain ⟨pre, post, hs, he⟩ := Loose.setErase hw m hm rfl fun _ => rfl
  exact ⟨OrderedSet.find_mem hw.ordered hm, _, he, Loose.remove hw hs, rfl⟩

/-- `refresh()` succeeds exactly on live timers and leaves every timer's callback alone. -/
theorem refresh_spec {m : TimerManager C} (hw : WF m) (h : Nat) (now : UInt64) :
    ∃ m', m.refresh h now = some (m', (m.cbOf h).isSome) ∧ WF m' ∧ Same m m' := by
  cases hc : m.cbOf h with
  | none =>
    refine ⟨m, ?_, hw, Same.of_heap rfl⟩
    unfold TimerManager.refresh
    unfold TimerManager.cbOf at hc
    cases ht : m.heap[h]? with
    | none => rfl
    | some t =>
      rw [ht] at hc
      obtain ⟨r, ms, nx, cb, ad⟩ := t
      cases hc; rfl
  | some c =>
    obtain ⟨t, ht, htc⟩ := cbOf_eq_some hc
    obtain ⟨hf, m1, he, hl, hh⟩ := hw.take (h := h) (by rw [hc]; rfl)
    let f : Timer C → Timer C := fun t => { t with next := now + t.ms }
    have hl2 := (hl.modify (h := h) (f := f) (by simp) (fun _ => rfl) (fun _ => rfl)).setInsert.1
    refine ⟨(m1.modify h f).setInsert h, ?_, hl2, ?_⟩
    rotate_left
    · exact ((Same.of_heap hh).trans (Same.modify m1 h (f := f) (fun _ => rfl) (fun _ => rfl))).trans
        (Same.of_heap (setInsert_heap _ h))
    unfold TimerManager.refresh
    rw [ht]
    obtain ⟨r, ms, nx, cb, ad⟩ := t
    cases htc
    show (if OrderedSet.find Before m.key h m.timers = none then _ else
      m.setErase h >>= fun m => some ((m.modify h f).setInsert h, true)) = _
    rw [hf, if_neg (by simp), he]; rfl

/-- `reset()` is defined, keeps the invariant and leaves every timer's callback alone. -/
theorem reset_spec {m : TimerManager C} (hw : WF m) (h : Nat) (ms : UInt64) (from_now : Bool) (now : UInt64) :
    ∃ m' b front, m.reset h ms from_now now = some (m', b, front) ∧ WF m' ∧ Same m m' ∧
      ((m.cbOf h).isSome → b = true) := by
  unfold TimerManager.reset
  cases ht : m.heap[h]? with
  | none => exact ⟨m, false, false, rfl, hw, Same.of_heap rfl, by simp [TimerManager.cbOf, ht]⟩
  | some t =>
    simp only
    split
    · exact ⟨m, true, false, rfl, hw, Same.of_heap rfl, fun _ => rfl⟩
    · by_cases hn : t.cb.isNone = true
      · rw [if_pos hn]
        refine ⟨m, false, false, rfl, hw, Same.of_heap rfl, fun hs => ?_⟩
        unfold TimerManager.cbOf at hs
        rw [ht, Option.bind_some] at hs
        rw [Option.isNone_iff_eq_none] at hn
        rw [hn] at hs; cases hs
      · rw [if_neg hn]
        have hc : (m.cbOf h).isSome := by
          unfold TimerManager.cbOf; rw [ht, Option.bind_some]
          simpa [Option.isSome_iff_ne_none, Option.isNone_iff_eq_none] using hn
        obtain ⟨hf, m1, he, hl, hh⟩ := hw.take hc
        rw [hf, if_neg (by simp), he]
        let f : Timer C → Timer C := fun t' =>
          { t' with ms := ms, next := (if from_now = true then now else t.next - t.ms) + ms }
        refine ⟨((m1.modify h f).addTimerLocked h).1, true, ((m1.modify h f).addTimerLocked h).2, rfl, ?_, ?_,
          fun _ => rfl⟩
        · exact (hl.modify (h := h) (f := f) (by simp) (fun _ => rfl) (fun _ => rfl)).addTimerLocked
        · exact ((Same.of_heap hh).trans (Same.modify m1 h (f := f) (fun _ => rfl) (fun _ => rfl))).trans
            (Same.of_heap (addTimerLocked_fst _ _).1)

/-! ## Delivery -/

theorem cut_append (m : TimerManager C) (rollover : Bool) (now : UInt64) (probeAddr : Nat) :
    (m.cut rollover now probeAddr).1 ++ (m.cut rollover now probeAddr).2 = m.timers := by
  unfold TimerManager.cut
  split
  · simp
  · simp only [List.append_assoc, List.takeWhile_append_dropWhile]
    exact OrderedSet.before_append_lowerBound Before m.key _ m.timers

/-- One round of the delivery loop takes its timer from outside: back into the set if it recurs,
without its callback otherwise. -/
theorem deliver_spec {m : TimerManager C} {h : Nat} {out : List Nat} (hl : Loose m (h :: out)) (now : UInt64)
    (cbs : List (Nat × Option C)) :
    ∃ m', TimerManager.deliver now (m, cbs) h = (m', cbs ++ [(h, m.cbOf h)]) ∧ Loose m' out ∧
      m'.heap.length = m.heap.length ∧ (∀ k, m'.recurringOf k = m.recurringOf k) ∧
      ∀ k, m'.cbOf k = if k = h ∧ m.recurringOf h = some false then none else m.cbOf k := by
  obtain ⟨t, c, ht, htc⟩ := hl.exists_timer (h := h) (by simp)
  have hcb : m.cbOf h = t.cb := by unfold TimerManager.cbOf; rw [ht]; rfl
  have hrec : m.recurringOf h = some t.recurring := by unfold TimerManager.recurringOf; rw [ht]; rfl
  unfold TimerManager.deliver
  rw [hcb, hrec]
  simp only [ht]
  cases hr : t.recurring with
  | true =>
    let f : Timer C → Timer C := fun t => { t with next := now + t.ms }
    have hs := Same.modify m h (f := f) (fun _ => rfl) (fun _ => rfl)
    refine ⟨(m.modify h f).setInsert h, rfl,
      (hl.modify (h := h) (f := f) (by simp) (fun _ => rfl) (fun _ => rfl)).setInsert.1, hs.length, hs.recurring,
        fun k => ?_⟩
    show (m.modify h f).cbOf k = _
    simpa using hs.live k
  | false =>
    let f : Timer C → Timer C := fun t => { t with cb := none }
    refine ⟨m.modify h f, rfl, hl.kill (fun _ => rfl) (fun _ => rfl), modify_length m h f,
      recurringOf_modify fun _ => rfl, fun k => ?_⟩
    by_cases hk : k = h
    · subst hk
      unfold TimerManager.cbOf
      rw [heap_modify, if_pos rfl, ht, if_pos ⟨rfl, rfl⟩]; rfl
    · rw [cbOf_modify_other hk, if_neg (fun e => hk e.1)]

/-- The delivery loop outputs the callbacks of the timers outside the set in order, and leaves
exactly the recurring ones live. -/
theorem deliver_fold (now : UInt64) : ∀ (out : List Nat) (m : TimerManager C) (cbs : List (Nat × Option C)),
    Loose m out → ∃ m', out.foldl (TimerManager.deliver now) (m, cbs) = (m', cbs ++ out.map fun h => (h, m.cbOf h)) ∧
      WF m' ∧ m'.heap.length = m.heap.length ∧ (∀ k, m'.recurringOf k = m.recurringOf k) ∧
      ∀ k, m'.cbOf k = if k ∈ out ∧ m.recurringOf k = some false then none else m.cbOf k
  | [], m, cbs, hl => ⟨m, by simp, hl, rfl, fun _ => rfl, fun k => by simp⟩
  | h :: out, m, cbs, hl => by
    obtain ⟨m1, hd, hl1, hlen1, hrec1, hcb1⟩ := deliver_spec hl now cbs
    obtain ⟨m', hf, hw, hlen, hrec, hcb⟩ := deliver_fold now out m1 (cbs ++ [(h, m.cbOf h)]) hl1
    have hnot : ∀ k ∈ out, k ≠ h := fun k hk e => by
      have := hl.nodup
      rw [List.cons_append, List.nodup_cons] at this
      exact this.1 (e ▸ List.mem_append_left _ hk)
    refine ⟨m', ?_, hw, hlen.trans hlen1, fun k => (hrec k).trans (hrec1 k), fun k => ?_⟩
    · rw [List.foldl_cons, hd, hf, List.map_cons, List.append_assoc, List.singleton_append]
      congr 3
      exact List.map_congr_left fun k hk => by rw [hcb1, if_neg (fun e => hnot k hk e.1)]
    · rw [hcb, hrec1, hcb1]
      by_cases hk : k = h
      · subst hk
        have hko : k ∉ out := fun hm => hnot k hm rfl
        simp [hko]
      · simp [hk]

/-- What a delivery section outputs and changes. -/
structure Delivery (m : TimerManager C) (l : List (Nat × Option C)) (m' : TimerManager C) : Prop where
  wf : WF m'
  length : m'.heap.length = m.heap.length
  recurring : ∀ k, m'.recurringOf k = m.recurringOf k
  nodup : (l.map Prod.fst).Nodup
  output : ∀ h c, (h, c) ∈ l → m.cbOf h = c ∧ c.isSome
  live : ∀ k, m'.cbOf k = if k ∈ l.map Prod.fst ∧ m.recurringOf k = some false then none else m.cbOf k

theorem Delivery.nothing {m m' : TimerManager C} (hw : WF m) (hh : m'.heap = m.heap) (ht : m'.timers = m.timers) :
    Delivery m [] m' :=
  have hs := Same.of_heap hh
  ⟨Loose.of_eq hw hh ht, hs.length, hs.recurring, .nil, by simp, fun k => by simp [hs.live]⟩

theorem Delivery.of_fold {m : TimerManager C} (m1 : TimerManager C) {out rest : List Nat} (hw : WF m)
    (hh : m1.heap = m.heap) (ht : m.timers = out ++ rest) (ht1 : m1.timers = rest) (now : UInt64) :
    Delivery m (out.foldl (TimerManager.deliver now) (m1, [])).2 (out.foldl (TimerManager.deliver now) (m1, [])).1 := by
  have hl : Loose m1 out := (Loose.removePrefix hw ht).of_eq hh ht1
  have hs := Same.of_heap hh
  obtain ⟨m', hf, hw', hlen, hrec, hcb⟩ := deliver_fold now out m1 [] hl
  have hfst : (out.map fun h => (h, m1.cbOf h)).map Prod.fst = out := by simp [List.map_map, Function.comp_def]
  rw [hf, List.nil_append]
  refine ⟨hw', hlen.trans hs.length, fun k => (hrec k).trans (hs.recurring k), ?_, fun h c hm => ?_, fun k => ?_⟩
  · simp only [hfst]
    exact (List.nodup_append.1 hl.nodup).1
  · obtain ⟨k, hk, he⟩ := List.mem_map.1 hm
    obtain ⟨rfl, rfl⟩ := Prod.mk.inj he
    exact ⟨(hs.live k).symm, (hl.live k).1 (List.mem_append_left _ hk)⟩
  · simp only [hfst, ← hs.recurring, ← hs.live]
    exact hcb k

theorem listExpiredCb_spec {m : TimerManager C} (hw : WF m) (now : UInt64) (probeAddr : Nat) :
    Delivery m (m.listExpiredCb now probeAddr).2 (m.listExpiredCb now probeAddr).1 := by
  unfold TimerManager.listExpiredCb
  split
  · exact Delivery.nothing hw rfl rfl
  · simp only
    split
    · exact Delivery.nothing hw rfl rfl
    · let m1 := (m.detectClockRollover now).1
      let ro := (m.detectClockRollover now).2
      exact Delivery.of_fold { m1 with timers := (m1.cut ro now probeAddr).2 } hw rfl
        (cut_append m1 ro now probeAddr).symm rfl now

theorem Delivery.effect {m m' : TimerManager C} {l : List (Nat × Option C)} (hd : Delivery m l m') (op : Op C)
    (hop : ∀ h, cancelled h (op, .cbs l) = 0) : Effect m (op, .cbs l) m' := by
  have hle : ∀ h, delivered h (op, .cbs l) ≤ 1 := fun h => List.nodup_iff_count.1 hd.nodup h
  have hone : ∀ h, delivered h (op, .cbs l) = 1 ↔ h ∈ l.map Prod.fst := fun h =>
    ⟨fun e => List.count_pos_iff.1 (by show 0 < delivered h (op, .cbs l); omega),
      fun hm => Nat.le_antisymm (hle h) (List.count_pos_iff.2 hm)⟩
  refine ⟨hd.wf, by rw [hd.length],
    fun h _ => hd.recurring h, fun h _ => ?_, fun h => ?_, fun h c hm => hd.output h c hm,
    fun h hc => ?_, fun h h1 h2 => ?_⟩
  · simp only [hd.live, hop, hone, Nat.zero_ne_one, false_or]
  · rw [hop]; simpa using hle h
  · rw [hop] at hc; cases hc
  · rw [hd.length] at h2; omega

/-! ## One section -/

/-- Every enabled section is defined. -/
theorem exec_defined {m : TimerManager C} (hw : WF m) (op : Op C) : ∃ m' o, exec m op = some (m', o) := by
  cases op with
  | addTimer ms cb recurring now addr => exact ⟨_, _, rfl⟩
  | cancel h =>
    rcases cancel_spec hw h with ⟨-, he⟩ | ⟨m', -, he, -⟩
    · exact ⟨m, .flag false false, by simp [exec, he]⟩
    · exact ⟨m', .flag true false, by simp [exec, he]⟩
  | refresh h now =>
    obtain ⟨m', he, -⟩ := refresh_spec hw h now
    exact ⟨m', .flag _ false, by simp only [exec, he]; rfl⟩
  | reset h ms from_now now =>
    obtain ⟨m', b, front, he, -⟩ := reset_spec hw h ms from_now now
    exact ⟨m', .flag b front, by simp only [exec, he]; rfl⟩
  | getNextTimer now => exact ⟨_, _, rfl⟩
  | listExpiredCb now probeAddr => exact ⟨_, _, rfl⟩

theorem step_effect {m m' : TimerManager C} {a : Op C × Out C} (hw : WF m) (h : Step m a m') : Effect m a m' := by
  obtain ⟨op, o⟩ := a
  obtain ⟨hen, he⟩ := h
  simp only at hen he
  cases op with
  | addTimer ms cb recurring now addr =>
    obtain ⟨-, hx⟩ := addTimer_effect hw ms cb recurring now addr hen
    simp only [exec, Option.some.injEq, Prod.mk.injEq] at he
    obtain ⟨rfl, rfl⟩ := he
    exact hx
  | cancel h =>
    simp only [exec] at he
    rcases cancel_spec hw h with ⟨-, hc⟩ | ⟨m1, hs, hc, hw1, hlen, hrec, hcb⟩
    · rw [hc] at he
      simp only [Option.map_some, Option.some.injEq, Prod.mk.injEq] at he
      obtain ⟨rfl, rfl⟩ := he
      exact .quiet hw (Same.of_heap rfl) rfl fun _ => rfl
    · rw [hc] at he
      simp only [Option.map_some, Option.some.injEq, Prod.mk.injEq] at he
      obtain ⟨rfl, rfl⟩ := he
      refine ⟨hw1, by rw [hlen], fun k _ => hrec k, fun k _ => ?_, fun k => ?_, nofun, fun k hk => ?_,
        fun k h1 h2 => (by rw [hlen] at h2; omega)⟩
      · rw [hcb]
        by_cases hk : h = k
        · simp [cancelled, hk]
        · simp [cancelled, delivered, outputs, hk, Ne.symm hk]
      · simp only [cancelled, delivered, outputs, List.map_nil, List.count_nil, Nat.add_zero]; split <;> omega
      · by_cases hkh : h = k
        · exact hkh ▸ hs
        · simp [cancelled, hkh] at hk
  | refresh h now =>
    obtain ⟨m1, hr, hw1, hs⟩ := refresh_spec hw h now
    simp only [exec, hr, Option.map_some, Option.some.injEq, Prod.mk.injEq] at he
    obtain ⟨rfl, rfl⟩ := he
    exact .quiet hw1 hs rfl fun _ => rfl
  | reset h ms from_now now =>
    obtain ⟨m1, b, front, hr, hw1, hs, -⟩ := reset_spec hw h ms from_now now
    simp only [exec, hr, Option.map_some, Option.some.injEq, Prod.mk.injEq] at he
    obtain ⟨rfl, rfl⟩ := he
    exact .quiet hw1 hs rfl fun _ => rfl
  | getNextTimer now =>
    simp only [exec, Option.some.injEq, Prod.mk.injEq] at he
    obtain ⟨rfl, rfl⟩ := he
    have hh : (m.getNextTimer now).1.heap = m.heap ∧ (m.getNextTimer now).1.timers = m.timers := by
      unfold TimerManager.getNextTimer
      simp only
      split <;> exact ⟨rfl, by simp_all⟩
    exact .quiet (Loose.of_eq hw hh.1 hh.2) (Same.of_heap hh.1) rfl fun _ => rfl
  | listExpiredCb now probeAddr =>
    simp only [exec, Option.some.injEq, Prod.mk.injEq] at he
    obtain ⟨rfl, rfl⟩ := he
    exact (listExpiredCb_spec hw now probeAddr).effect _ fun _ => rfl

end ServerFrame.Timers
