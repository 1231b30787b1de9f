/-
Delivery accounting over whole runs of one timer manager: whatever the order of the operations and
whatever the clock reads, the callback of a one-shot timer is output or cancelled at most once in
total, and exactly once when the timer has left the set; a recurring timer stays until it is
cancelled; and nothing is output for a timer after a successful cancel.
-/
import ServerFrame.Timer.Step
import ServerFrame.Lib.Run
import Mathlib.Algebra.Ring.Nat

namespace ServerFrame.Timers

universe u

variable {C : Type u}

/-- How often the callback of timer `h` was output in a run. -/
def deliveries (h : Nat) (l : List (Op C × Out C)) : Nat := (l.map (delivered h)).sum

/-- How many `cancel()` calls on timer `h` returned true in a run. -/
def cancels (h : Nat) (l : List (Op C × Out C)) : Nat := (l.map (cancelled h)).sum

/-- Timer `h` was created in a run with the callback `cb`. -/
def Created (h : Nat) (cb : C) (l : List (Op C × Out C)) : Prop :=
  ∃ ms recurring now addr front, (Op.addTimer ms cb recurring now addr, Out.handle h front) ∈ l

@[simp] theorem deliveries_snoc (h : Nat) (l : List (Op C × Out C)) (a : Op C × Out C) :
    deliveries h (l ++ [a]) = deliveries h l + delivered h a := by simp [deliveries]

@[simp] theorem cancels_snoc (h : Nat) (l : List (Op C × Out C)) (a : Op C × Out C) :
    cancels h (l ++ [a]) = cancels h l + cancelled h a := by simp [cancels]

theorem Created.mono {h : Nat} {cb : C} {l : List (Op C × Out C)} (hc : Created h cb l) (a : Op C × Out C) :
    Created h cb (l ++ [a]) := by
  obtain ⟨ms, r, now, ad, fr, hm⟩ := hc
  exact ⟨ms, r, now, ad, fr, List.mem_append_left _ hm⟩

/-- The books after the sections `l`. -/
structure Account (l : List (Op C × Out C)) (m : TimerManager C) : Prop where
  wf : WF m
  oneShot : ∀ h, m.recurringOf h = some false →
    deliveries h l + cancels h l = if (m.cbOf h).isSome then 0 else 1
  recurring : ∀ h, m.recurringOf h = some true → cancels h l = if (m.cbOf h).isSome then 0 else 1
  unborn : ∀ h, m.heap.length ≤ h → deliveries h l = 0 ∧ cancels h l = 0
  origin : ∀ h cb, m.cbOf h = some cb → Created h cb l
  output : ∀ a ∈ l, ∀ h c, (h, c) ∈ outputs a → ∃ cb, c = some cb ∧ Created h cb l

theorem account_init (now : UInt64) : Account [] (TimerManager.init now : TimerManager C) := by
  refine ⟨init_wf now, fun h hr => ?_, fun h hr => ?_, fun h _ => ⟨rfl, rfl⟩, fun h cb hc => ?_, by simp⟩
  · simp [TimerManager.recurringOf, TimerManager.init] at hr
  · simp [TimerManager.recurringOf, TimerManager.init] at hr
  · simp [TimerManager.cbOf, TimerManager.init] at hc

theorem lt_of_recurringOf {m : TimerManager C} {h : Nat} {b : Bool} (hr : m.recurringOf h = some b) :
    h < m.heap.length := by
  unfold TimerManager.recurringOf at hr
  obtain ⟨t, ht, -⟩ := Option.map_eq_some_iff.1 hr
  exact (List.getElem?_eq_some_iff.1 ht).1

theorem lt_of_cbOf {m : TimerManager C} {h : Nat} (hc : (m.cbOf h).isSome) : h < m.heap.length := by
  obtain ⟨c, hc⟩ := Option.isSome_iff_exists.1 hc
  obtain ⟨t, ht, -⟩ := cbOf_eq_some hc
  exact (List.getElem?_eq_some_iff.1 ht).1

/-- Only live timers are delivered or cancelled, and only by one of the two. -/
theorem Effect.idle {m m' : TimerManager C} {a : Op C × Out C} (he : Effect m a m') {h : Nat} (hc : m.cbOf h = none) :
    delivered h a = 0 ∧ cancelled h a = 0 := by
  constructor
  · by_contra hd
    obtain ⟨p, hp, hpe⟩ := List.mem_map.1 (List.count_pos_iff.1 (Nat.pos_of_ne_zero hd))
    obtain ⟨k, c⟩ := p
    obtain rfl : k = h := hpe
    obtain ⟨h1, h2⟩ := he.output k c hp
    rw [← h1, hc] at h2; cases h2
  · have := he.once h
    by_contra hd
    have := he.cancel h (by omega)
    rw [hc] at this; cases this

section Section

variable {l : List (Op C × Out C)} {m m' : TimerManager C} {a : Op C × Out C} {h : Nat}

theorem Account.unborn_snoc (ha : Account l m) (he : Effect m a m') (hh : m.heap.length ≤ h) :
    deliveries h (l ++ [a]) = 0 ∧ cancels h (l ++ [a]) = 0 := by
  have hc : m.cbOf h = none := by
    cases hc : m.cbOf h with
    | none => rfl
    | some c => have := lt_of_cbOf (m := m) (h := h) (by rw [hc]; rfl); omega
  obtain ⟨h1, h2⟩ := he.idle hc
  obtain ⟨h3, h4⟩ := ha.unborn h hh
  simp [h1, h2, h3, h4]

/-- A timer that a section has created is live. -/
theorem Effect.isSome_of_fresh (he : Effect m a m') (hge : m.heap.length ≤ h) (hlt : h < m'.heap.length) :
    (m'.cbOf h).isSome = true := by
  obtain ⟨ms, cb, r, now, ad, fr, -, hc⟩ := he.fresh h hge hlt
  rw [hc]
  rfl

theorem Account.oneShot_snoc (ha : Account l m) (he : Effect m a m') (hr : m'.recurringOf h = some false) :
    deliveries h (l ++ [a]) + cancels h (l ++ [a]) = if (m'.cbOf h).isSome then 0 else 1 := by
  rcases Nat.lt_or_ge h m.heap.length with hlt | hge
  · rw [he.recurring h hlt] at hr
    have ho := ha.oneShot h hr
    have hone := he.once h
    rw [deliveries_snoc, cancels_snoc, he.live h hlt]
    -- a timer that is not live is left alone; a live one is taken out exactly when it is
    -- delivered or cancelled by this section
    cases hcb : m.cbOf h with
    | none =>
      obtain ⟨h1, h2⟩ := he.idle hcb
      rw [hcb] at ho
      simp only [Option.isSome_none, Bool.false_eq_true, if_false] at ho
      simp [h1, h2, ho]
    | some c =>
      rw [hcb] at ho
      simp only [Option.isSome_some, if_true] at ho
      split
      · rename_i hx
        simp only [Option.isSome_none, Bool.false_eq_true, if_false]
        rcases hx with hx | ⟨hx, -⟩ <;> omega
      · rename_i hx
        simp only [Option.isSome_some, if_true]
        simp only [not_or, not_and] at hx
        have : ¬ delivered h a = 1 := fun hd => hx.2 hd hr
        omega
  · obtain ⟨h1, h2⟩ := ha.unborn_snoc he hge
    rw [h1, h2, he.isSome_of_fresh hge (lt_of_recurringOf hr)]
    rfl

theorem Account.recurring_snoc (ha : Account l m) (he : Effect m a m') (hr : m'.recurringOf h = some true) :
    cancels h (l ++ [a]) = if (m'.cbOf h).isSome then 0 else 1 := by
  rcases Nat.lt_or_ge h m.heap.length with hlt | hge
  · rw [he.recurring h hlt] at hr
    have ho := ha.recurring h hr
    have hone := he.once h
    rw [cancels_snoc, he.live h hlt]
    cases hcb : m.cbOf h with
    | none =>
      obtain ⟨h1, h2⟩ := he.idle hcb
      rw [hcb] at ho
      simp only [Option.isSome_none, Bool.false_eq_true, if_false] at ho
      simp [h2, ho]
    | some c =>
      rw [hcb] at ho
      simp only [Option.isSome_some, if_true] at ho
      -- delivering a recurring timer does not take it out
      simp only [hr, Option.some.injEq, Bool.true_eq_false, and_false, or_false]
      split
      · rename_i hx; simp [ho, hx]
      · rename_i hx
        simp only [Option.isSome_some, if_true]
        omega
  · rw [(ha.unborn_snoc he hge).2, he.isSome_of_fresh hge (lt_of_recurringOf hr)]
    rfl

/-- One section keeps the books. -/
theorem account_step (ha : Account l m) (hs : Step m a m') : Account (l ++ [a]) m' := by
  have he := step_effect ha.wf hs
  refine ⟨he.wf, fun h => ha.oneShot_snoc he, fun h => ha.recurring_snoc he,
    fun h hh => ha.unborn_snoc he (le_trans he.length hh), fun h cb hc => ?_, fun b hb h c hm => ?_⟩
  · rcases Nat.lt_or_ge h m.heap.length with hlt | hge
    · rw [he.live h hlt] at hc
      split at hc
      · cases hc
      · exact (ha.origin h cb hc).mono a
    · obtain ⟨ms, cb', r, now, ad, fr, rfl, hc'⟩ := he.fresh h hge (lt_of_cbOf (by rw [hc]; rfl))
      rw [hc] at hc'; cases hc'
      exact ⟨ms, r, now, ad, fr, by simp⟩
  · rcases List.mem_append.1 hb with hb | hb
    · obtain ⟨cb, hcb, hcr⟩ := ha.output b hb h c hm
      exact ⟨cb, hcb, hcr.mono a⟩
    · rw [List.mem_singleton] at hb; subst hb
      obtain ⟨h1, h2⟩ := he.output h c hm
      obtain ⟨cb, rfl⟩ := Option.isSome_iff_exists.1 h2
      exact ⟨cb, rfl, (ha.origin h cb h1).mono b⟩

end Section

/-- The books are kept along every run. -/
theorem account_run {now : UInt64} {l : List (Op C × Out C)} {m : TimerManager C}
    (hr : Lts.Run Step (TimerManager.init now) l m) : Account l m :=
  hr.history (account_init now) fun _ _ _ _ _ ha hs => account_step ha hs

/-- A timer that is not live stays so, and nothing is output for it any more. -/
theorem dead_run {m m' : TimerManager C} {l : List (Op C × Out C)} (hw : WF m) {h : Nat} (hlt : h < m.heap.length)
    (hc : m.cbOf h = none) (hr : Lts.Run Step m l m') : deliveries h l = 0 := by
  have := hr.history (P := fun l t => WF t ∧ h < t.heap.length ∧ t.cbOf h = none ∧ deliveries h l = 0)
    ⟨hw, hlt, hc, rfl⟩ fun l t a u _ ⟨w, lt, c, d⟩ hs => by
      have he := step_effect w hs
      obtain ⟨h1, -⟩ := he.idle c
      refine ⟨he.wf, Nat.lt_of_lt_of_le lt he.length, ?_, by simp [d, h1]⟩
      rw [he.live h lt, c]; simp
  exact this.2.2.2

/-- Nothing is output for a timer after a successful cancel. -/
theorem deliveries_after_cancel {now : UInt64} {l₁ l₂ : List (Op C × Out C)} {a : Op C × Out C} {m : TimerManager C}
    (hr : Lts.Run Step (TimerManager.init now) (l₁ ++ a :: l₂) m) {h : Nat} (ha : cancelled h a = 1) :
    deliveries h l₂ = 0 := by
  obtain ⟨t, t', h1, hs, h2⟩ := hr.split_step
  have he := step_effect (account_run h1).wf hs
  have hlt := lt_of_cbOf (he.cancel h ha)
  refine dead_run he.wf (Nat.lt_of_lt_of_le hlt he.length) ?_ h2
  rw [he.live h hlt, if_pos (.inl ha)]

/-- Delivery accounting. In every run of `addTimer`, `cancel`, `refresh`, `reset`, `getNextTimer` and
`listExpiredCb`, with any clock readings: for a one-shot timer the outputs of its callback and its
successful cancels together are at most one, and exactly one when the timer is no longer in the set;
a recurring timer is in the set until a cancel returns true; after a successful cancel nothing is
output for the timer; and what is output for a timer is the callback it was created with. -/
theorem delivery_accounting {now : UInt64} {l : List (Op C × Out C)} {m : TimerManager C}
    (hr : Lts.Run Step (TimerManager.init now) l m) {h : Nat} {t : Timer C} (ht : m.heap[h]? = some t) :
    (t.recurring = false → deliveries h l + cancels h l ≤ 1 ∧ (deliveries h l + cancels h l = 1 ↔ h ∉ m.timers)) ∧
    (t.recurring = true → (h ∈ m.timers ↔ cancels h l = 0)) ∧
    (∀ l₁ a l₂, l = l₁ ++ a :: l₂ → cancelled h a = 1 → deliveries h l₂ = 0) ∧
    (∀ a ∈ l, ∀ c, (h, c) ∈ outputs a → ∃ cb, c = some cb ∧ Created h cb l) := by
  have ha := account_run hr
  have hrec : m.recurringOf h = some t.recurring := by unfold TimerManager.recurringOf; rw [ht]; rfl
  refine ⟨fun hb => ?_, fun hb => ?_, fun l₁ a l₂ hl hc => ?_, fun a hm c hc => ha.output a hm h c hc⟩
  · have := ha.oneShot h (by rw [hrec, hb])
    rw [this, ha.wf.mem_iff h]
    split <;> simp_all
  · have := ha.recurring h (by rw [hrec, hb])
    rw [this, ha.wf.mem_iff h]
    split <;> simp_all
  · subst hl
    exact deliveries_after_cancel hr hc

/-- A one-shot timer armed at 5 for 10 ms is delivered by a section that reads the clock at 20. -/
theorem delivery_accounting_fired :
    ∃ m : TimerManager Unit,
      Lts.Run Step (TimerManager.init 5)
        [(.addTimer 10 () false 5 64, .handle 0 true), (.listExpiredCb 20 128, .cbs [(0, some ())])] m ∧
      (0 ∉ m.timers ↔ deliveries 0
        [((.addTimer 10 () false 5 64, .handle 0 true) : Op Unit × Out Unit),
          (.listExpiredCb 20 128, .cbs [(0, some ())])] +
        cancels 0 [((.addTimer 10 () false 5 64, .handle 0 true) : Op Unit × Out Unit),
          (.listExpiredCb 20 128, .cbs [(0, some ())])] = 1) := by
  have hr : Lts.Run Step (TimerManager.init 5 : TimerManager Unit)
      [(.addTimer 10 () false 5 64, .handle 0 true), (.listExpiredCb 20 128, .cbs [(0, some ())])]
      ⟨[⟨false, 10, 15, none, 64⟩], [], true, 20⟩ :=
    .cons ⟨by decide, rfl⟩ (.single ⟨trivial, rfl⟩)
  exact ⟨_, hr, ((delivery_accounting hr rfl).1 rfl).2.symm⟩

end ServerFrame.Timers
