/-
What one operation of the event side does: on a state with the bookkeeping invariant, an operation
that does not abort first may grow the table by fresh contexts, and then does nothing, fails its
`epoll_ctl` and changes nothing, or commits one change of one context: an event added, an event
dropped, or a set of events triggered.
-/
import ServerFrame.Event.Invariant

namespace ServerFrame.Events

universe u v

variable {F : Type u} {C : Type v}

/-! ## Changes of one context -/

/-- A change of a context, with the history lines it writes; `sch` is the scheduler of the thread
that adds an event. -/
inductive Change (sch : Option Nat) (c : FdContext F C) : FdContext F C → List (Entry F C) → Prop
  | add (e : Event) (ctx : EventContext F C) (r : Reg F C) : c.events.has e = false →
      c.getContext e = ⟨none, none, none⟩ → ctx.scheduler = sch → FdContext.regOf ctx = some r →
      (ctx.fiber = none ∨ ctx.cb = none) →
      Change sch c ({ c with events := c.events.or (.single e) }.setContext ctx e) [⟨.added, c.fd, e, r⟩]
  | drop (e : Event) : c.events.has e = true →
      Change sch c ({ c with events := c.events.diff (.single e) }.resetContext e) (entriesOf .dropped c e)
  | trigger (m : Mask) (c' : FdContext F C) (l : List (Entry F C)) : c.events.and m ≠ Mask.none →
      Triggered c m c' l → Change sch c c' l

theorem Change.fd {sch : Option Nat} {c c' : FdContext F C} {l : List (Entry F C)} (h : Change sch c c' l) :
    c'.fd = c.fd := by
  cases h with
  | add => simp
  | drop => simp [FdContext.resetContext]
  | trigger m c' l _ ht => exact ht.fd

/-- The operation `epoll_ctl` can perform on a context's descriptor: `ADD` without interest, `MOD` and
`DEL` with it. -/
def ValidOp (op : CtlOp) (c : FdContext F C) : Prop := op = .add ↔ c.events = Mask.none

/-- The outcome of a locked section. -/
inductive Outcome (sch : Option Nat) (s : IOManager F C) : Result F C → Prop
  | refused : Outcome sch s s.refused
  | failed {p : Nat} {c : FdContext F C} {op : CtlOp} : s.heap[p]? = some c → ValidOp op c →
      Outcome sch s (s.failed op p)
  | committed {p : Nat} {c c' : FdContext F C} {op : CtlOp} {l : List (Entry F C)} : s.heap[p]? = some c →
      ValidOp op c → Change sch c c' l → Outcome sch s ⟨commit s p c c', true, some (op, p, true), l⟩

/-- The outcome of a section under the mutex of the context at `p`, whose descriptor the caller takes to be `fd`. -/
inductive Locked (sch : Option Nat) (s : IOManager F C) (p fd : Nat) : Result F C → Prop
  | refused : Locked sch s p fd s.refused
  | failed {c : FdContext F C} {op : CtlOp} : s.heap[p]? = some c → ValidOp op c → Locked sch s p fd (s.failed op fd)
  | committed {c c' : FdContext F C} {op : CtlOp} {m : Mask} {n : Int} {l : List (Entry F C)} : s.heap[p]? = some c →
      ValidOp op c → Change sch c c' l → c'.events = m → (op = .del ↔ m = Mask.none) →
      n = s.pending + m.count - c.events.count →
      Locked sch s p fd ⟨{ s with heap := s.heap.set p c', interest := IOManager.epollCtl s.interest op fd m p
                                  pending := n }, true, some (op, fd, true), l⟩

/-- Where the descriptor is that of the context, the kernel call and the counter are those of a commit. -/
theorem Locked.outcome {sch : Option Nat} {s : IOManager F C} {p : Nat} {r : Result F C} (h : Locked sch s p p r) :
    Outcome sch s r := by
  cases h with
  | refused => exact .refused
  | failed hc hv => exact .failed hc hv
  | @committed c c' op m n l hc hv hch hm hd hn =>
    have : ({ s with heap := s.heap.set p c', interest := IOManager.epollCtl s.interest op p m p, pending := n } :
        IOManager F C) = commit s p c c' := by
      unfold commit interestOf
      subst hm hn
      congr 1
      cases op
      · rw [if_neg (fun h => by cases hd.2 h)]; rfl
      · rw [if_neg (fun h => by cases hd.2 h)]; rfl
      · rw [if_pos (hd.1 rfl)]; rfl
    rw [this]
    exact .committed hc hv hch

/-! ## The locked sections -/

section Locked

variable {sch : Option Nat} {s : IOManager F C} {p fd : Nat} {c : FdContext F C} {r : Result F C}

theorem addEventLocked_locked (hc : s.heap[p]? = some c) {e : Event} {caller : Caller F C} {ok : Bool}
    (h : s.addEventLocked p fd e caller ok = .ok r) : Locked caller.scheduler s p fd r := by
  unfold IOManager.addEventLocked at h
  rw [hc] at h
  simp only at h
  split at h
  · cases h
  · rename_i hb
    have hb : c.events.has e = false := by simpa using hb
    have hv : ValidOp (if c.events = Mask.none then CtlOp.add else CtlOp.mod) c := by
      unfold ValidOp; split <;> simp_all
    have hdel : (if c.events = Mask.none then CtlOp.add else CtlOp.mod) = .del ↔
        c.events.or (.single e) = Mask.none := by
      have := Mask.or_single_ne_none c.events e
      split <;> simp [this]
    have hn : s.pending + 1 = s.pending + (c.events.or (.single e)).count - c.events.count := by
      rw [Mask.count_or_single hb]; push_cast; ring
    split at h
    · cases h; exact .failed hc hv
    · split at h
      · cases h
      · rename_i hx
        simp only [Bool.or_eq_true, not_or, Option.not_isSome_iff_eq_none] at hx
        have hempty : c.getContext e = ⟨none, none, none⟩ := by
          show (⟨(c.getContext e).scheduler, (c.getContext e).fiber, (c.getContext e).cb⟩ : EventContext F C) = _
          rw [hx.1.1, hx.1.2, hx.2]
        split at h
        · rename_i cb hcb
          cases h
          exact .committed hc hv (.add e ⟨caller.scheduler, none, some cb⟩ _ hb hempty rfl rfl (.inl rfl))
            (by simp) hdel hn
        · split at h
          · cases h
            exact .committed hc hv (.add e ⟨caller.scheduler, some caller.fiber, none⟩ _ hb hempty rfl rfl (.inr rfl))
              (by simp) hdel hn
          · cases h

/-- The `epoll_ctl` that leaves `c.events & ~m` registered. -/
theorem leave_op {m : Mask} (hm : c.events.and m ≠ Mask.none) :
    ValidOp (if c.events.diff m = Mask.none then CtlOp.del else CtlOp.mod) c ∧
    ((if c.events.diff m = Mask.none then CtlOp.del else CtlOp.mod) = .del ↔ c.events.diff m = Mask.none) := by
  have hne : c.events ≠ Mask.none := fun h => hm (by rw [h]; exact Mask.ext_has fun e => by simp)
  constructor
  · unfold ValidOp; split <;> simp [hne]
  · split <;> simp_all

theorem and_single_ne_none {m : Mask} {e : Event} (h : m.has e = true) : m.and (.single e) ≠ Mask.none :=
  Mask.ne_none_of_has (e := e) (by simp [h, Mask.has_single])

theorem pending_diff {m : Mask} (hm : m.Sub c.events) :
    s.pending - m.count = s.pending + (c.events.diff m).count - c.events.count := by
  have := Mask.count_diff hm; omega

theorem delEventLocked_locked (hc : s.heap[p]? = some c) {e : Event} {ok : Bool}
    (h : s.delEventLocked p fd e ok = .ok r) : Locked sch s p fd r := by
  unfold IOManager.delEventLocked at h
  rw [hc] at h
  simp only at h
  split at h
  · cases h; exact .refused
  · rename_i hb
    have hb : c.events.has e = true := by simpa using hb
    obtain ⟨hv, hdel⟩ := leave_op (and_single_ne_none hb)
    have hn := pending_diff (s := s) (Mask.single_sub hb)
    rw [Mask.count_single] at hn
    split at h
    · cases h; exact .failed hc hv
    · cases h
      exact .committed hc hv (.drop e hb) (by simp [FdContext.resetContext]) hdel hn

theorem cancelEventLocked_locked (hc : s.heap[p]? = some c) {e : Event} {ok : Bool}
    (h : s.cancelEventLocked p fd e ok = .ok r) : Locked sch s p fd r := by
  unfold IOManager.cancelEventLocked at h
  rw [hc] at h
  simp only at h
  split at h
  · cases h; exact .refused
  · rename_i hb
    have hb : c.events.has e = true := by simpa using hb
    obtain ⟨hv, hdel⟩ := leave_op (and_single_ne_none hb)
    have hn := pending_diff (s := s) (Mask.single_sub hb)
    rw [Mask.count_single] at hn
    split at h
    · cases h; exact .failed hc hv
    · split at h
      · cases h
      · rename_i c' l ht
        cases h
        have ht := triggerEvent_ok ht
        exact .committed hc hv (.trigger _ _ _ (and_single_ne_none hb) ht) ht.events hdel hn

theorem cancelAllLocked_locked (hc : s.heap[p]? = some c) {ok : Bool} (h : s.cancelAllLocked p fd ok = .ok r) :
    Locked sch s p fd r := by
  unfold IOManager.cancelAllLocked at h
  rw [hc] at h
  simp only at h
  split at h
  · cases h; exact .refused
  · rename_i hb
    have hv : ValidOp CtlOp.del c := by unfold ValidOp; simp [hb]
    split at h
    · cases h; exact .failed hc hv
    · split at h
      · cases h
      · rename_i c' n l hb2
        split at h
        · cases h
        · rename_i hz
          cases h
          obtain ⟨ht, rfl⟩ := triggerBoth_ok hb2
          have hand : c.events.and c.events ≠ Mask.none := by
            rwa [show c.events.and c.events = c.events from Mask.ext_has fun e => by simp]
          refine .committed hc hv (.trigger _ _ _ hand ht) (by simpa using hz) (by simp) ?_
          have := pending_diff (s := s) (Mask.sub_refl c.events)
          rwa [Mask.diff_self] at this

theorem handleReport_locked (hc : s.heap[p]? = some c) {rep : Report} {ok : Bool}
    (h : s.handleReport p rep ok = .ok r) : Locked sch s p c.fd r := by
  unfold IOManager.handleReport at h
  rw [hc] at h
  simp only at h
  split at h
  · cases h; exact .refused
  · rename_i hb
    obtain ⟨hv, hdel⟩ := leave_op hb
    split at h
    · cases h; exact .failed hc hv
    · split at h
      · cases h
      · rename_i c' n l hb2
        cases h
        obtain ⟨ht, rfl⟩ := triggerBoth_ok hb2
        exact .committed hc hv (.trigger _ _ _ hb ht) ht.events hdel (pending_diff ht.sub)

end Locked

/-! ## Growing the table -/

/-- The table after it was grown, if it was. -/
structure Grown (s s' : IOManager F C) : Prop where
  heap : ∃ new, s'.heap = s.heap ++ new ∧ ∀ c ∈ new, c.events = Mask.none ∧
    ∀ e, (c.getContext e).fiber = none ∧ (c.getContext e).cb = none
  interest : s'.interest = s.interest
  pending : s'.pending = s.pending
  inv : Inv s'

theorem Grown.refl {s : IOManager F C} (hi : Inv s) : Grown s s := ⟨⟨[], by simp, by simp⟩, rfl, rfl, hi⟩

theorem bits_append (a b : List (FdContext F C)) : bits (a ++ b) = bits a + bits b := by simp [bits]

theorem bits_zero : ∀ {l : List (FdContext F C)}, (∀ c ∈ l, c.events = Mask.none) → bits l = 0
  | [], _ => rfl
  | c :: l, h => by
    have := bits_zero fun d hd => h d (List.mem_cons_of_mem _ hd)
    unfold bits at this ⊢
    rw [List.map_cons, List.sum_cons, this, h c (List.mem_cons_self ..)]; rfl

theorem contextResize_grown (memory : Nat → Event → Option Nat) {s : IOManager F C}
    (ht : s.fdContexts = List.range s.heap.length)
    (hf : ∀ (p : Nat) (c : FdContext F C), s.heap[p]? = some c → c.fd = p) (hp : s.pending = bits s.heap)
    (hi : ∀ fd, s.interest fd = s.heap[fd]?.bind fun c => interestOf c fd) {n : Nat} (hn : s.heap.length ≤ n)
    (h32 : 32 ≤ n) : Grown s (s.contextResize memory n) ∧ (s.contextResize memory n).heap.length = n := by
  rw [contextResize_grow memory ht hn]
  have hnew : ∀ c ∈ (List.range (n - s.heap.length)).map fun i => (FdContext.new (s.heap.length + i)
      (memory (s.heap.length + i)) : FdContext F C), c.events = Mask.none ∧
      ∀ e, (c.getContext e).fiber = none ∧ (c.getContext e).cb = none := by
    intro c hc
    obtain ⟨i, -, rfl⟩ := List.mem_map.1 hc
    exact ⟨rfl, fun e => by cases e <;> exact ⟨rfl, rfl⟩⟩
  have hlen : (s.heap ++ (List.range (n - s.heap.length)).map fun i => (FdContext.new (s.heap.length + i)
      (memory (s.heap.length + i)) : FdContext F C)).length = n := by simp; omega
  refine ⟨⟨⟨_, rfl, hnew⟩, rfl, rfl, ⟨by simp only [hlen], by rw [hlen]; exact h32,
    fun p c hc => ?_, ?_, fun fd => ?_⟩⟩, hlen⟩
  · rcases Nat.lt_or_ge p s.heap.length with hlt | hge
    · simp only [List.getElem?_append_left hlt] at hc
      exact hf p c hc
    · simp only [List.getElem?_append_right hge, List.getElem?_map, Option.map_eq_some_iff] at hc
      obtain ⟨i, hi', rfl⟩ := hc
      obtain ⟨-, rfl⟩ := List.getElem?_eq_some_iff.1 hi'
      simp [FdContext.new]; omega
  -- new contexts have no events: they add nothing to the count and need no interest
  · rw [bits_append, bits_zero fun c hc => (hnew c hc).1, hp]; simp
  · rw [hi]
    rcases Nat.lt_or_ge fd s.heap.length with hlt | hge
    · rw [List.getElem?_append_left hlt]
    · rw [List.getElem?_eq_none hge, List.getElem?_append_right hge]
      cases hg : ((List.range (n - s.heap.length)).map fun i => (FdContext.new (s.heap.length + i)
        (memory (s.heap.length + i)) : FdContext F C))[fd - s.heap.length]? with
      | none => rfl
      | some c =>
        have := (hnew c (List.mem_of_getElem? hg)).1
        simp [interestOf, this]

theorem init_inv (memory : Nat → Event → Option Nat) : Inv (IOManager.init memory : IOManager F C) :=
  (contextResize_grown memory (s := ⟨[], [], fun _ => none, 0⟩) rfl (fun p c h => by cases h) rfl (fun _ => rfl)
    (Nat.zero_le _) (le_refl 32)).1.inv

/-- `addEvent` finds its descriptor's slot, after growing the table if it has to. -/
theorem slot_spec (memory : Nat → Event → Option Nat) {s : IOManager F C} (hi : Inv s) (fd : Nat) :
    ∃ s', s.slot memory fd = .ok (s', fd) ∧ Grown s s' ∧ fd < s'.heap.length := by
  have hlen : s.fdContexts.length = s.heap.length := by rw [hi.table, List.length_range]
  unfold IOManager.slot
  by_cases hlt : fd < s.fdContexts.length
  · have hg : s.fdContexts[fd]? = some fd := by rw [hi.table]; exact List.getElem?_range (by omega)
    simp only [if_pos hlt, hg]
    exact ⟨s, rfl, .refl hi, by omega⟩
  · have h32 := hi.size
    obtain ⟨hg, hl⟩ := contextResize_grown memory hi.table hi.fds hi.pending hi.interest (n := fd * 3 / 2)
      (by omega) (by omega)
    have hs : (s.contextResize memory (fd * 3 / 2)).fdContexts[fd]? = some fd := by
      rw [hg.inv.table, hl]; exact List.getElem?_range (by omega)
    simp only [if_neg hlt, hs]
    exact ⟨_, rfl, hg, by rw [hl]; omega⟩

/-! ## Operations that do not abort -/

/-- Every operation that does not abort; `sch` is the scheduler of the calling thread, which only
`addEvent` reads. -/
theorem exec_outcome {memory : Nat → Event → Option Nat} {s : IOManager F C} (hi : Inv s) {op : Op F C} {r : Result F C}
    (h : exec memory s op = .ok r) (sch : Option Nat)
    (hsch : ∀ fd e caller ok, op = .addEvent fd e caller ok → caller.scheduler = sch) :
    ∃ s', Grown s s' ∧ Outcome sch s' r := by
  have honslot : ∀ {fd : Nat} {f : Nat → Except Abort (Result F C)}, s.onSlot fd f = .ok r →
      (∀ c, s.heap[fd]? = some c → f fd = .ok r → Outcome sch s r) → ∃ s', Grown s s' ∧ Outcome sch s' r := by
    intro fd f hf ho
    -- the table holds the contexts in order, so the slot of `fd` is the context `fd`
    refine ⟨s, .refl hi, ?_⟩
    unfold IOManager.onSlot at hf
    rw [hi.table] at hf
    by_cases hlt : fd < s.heap.length
    · rw [List.getElem?_range hlt] at hf
      exact ho _ (List.getElem?_eq_getElem hlt) hf
    · rw [List.getElem?_eq_none (by simpa using hlt)] at hf
      cases hf; exact .refused
  cases op with
  | addEvent fd e caller ok =>
    obtain ⟨s', hs, hg, hlt⟩ := slot_spec memory hi fd
    simp only [exec, IOManager.addEvent, hs] at h
    rw [← hsch fd e caller ok rfl]
    exact ⟨s', hg, (addEventLocked_locked (List.getElem?_eq_getElem hlt) h).outcome⟩
  | delEvent fd e ok => exact honslot h fun c hc hf => (delEventLocked_locked hc hf).outcome
  | cancelEvent fd e ok => exact honslot h fun c hc hf => (cancelEventLocked_locked hc hf).outcome
  | cancelAll fd ok => exact honslot h fun c hc hf => (cancelAllLocked_locked hc hf).outcome
  | report p rep ok =>
    refine ⟨s, .refl hi, ?_⟩
    cases hc : s.heap[p]? with
    | none => simp [exec, IOManager.handleReport, hc] at h
    | some c =>
      have hfd := hi.fds p c hc
      subst hfd
      exact (handleReport_locked hc h).outcome

theorem exec_some_outcome {memory : Nat → Event → Option Nat} {s : IOManager F C} (hi : Inv s) {op : Op F C}
    {r : Result F C} (h : exec memory s op = .ok r) : ∃ s', Grown s s' ∧ ∃ sch, Outcome sch s' r := by
  have : ∃ sch, ∀ fd e caller ok, op = .addEvent fd e caller ok → caller.scheduler = sch := by
    cases op with
    | addEvent fd e caller ok => exact ⟨caller.scheduler, fun _ _ _ _ h => by cases h; rfl⟩
    | _ => exact ⟨none, fun _ _ _ _ h => by cases h⟩
  obtain ⟨sch, hsch⟩ := this
  obtain ⟨s', hg, ho⟩ := exec_outcome hi h sch hsch
  exact ⟨s', hg, sch, ho⟩

/-! ## Aborts in a trigger -/

/-- The ways a trigger can abort. -/
def Abort.InTrigger (a : Abort) : Prop := a = .nullScheduler ∨ ∃ e, a = .triggerEvent e

theorem triggerEvent_error {c : FdContext F C} {e : Event} {a : Abort} (h : c.triggerEvent e = .error a) :
    (c.events.has e = false ∧ a = .triggerEvent e) ∨
    (c.events.has e = true ∧ (c.getContext e).scheduler = none ∧ a = .nullScheduler) := by
  unfold FdContext.triggerEvent at h
  split at h
  · rename_i hb
    cases h
    exact .inl ⟨by simpa using hb, rfl⟩
  · rename_i hb
    simp only at h
    split at h
    · rename_i hs
      cases h
      exact .inr ⟨by simpa using hb, hs, rfl⟩
    · cases h

theorem triggerIf_error {c : FdContext F C} {b : Bool} {e : Event} {a : Abort} (h : c.triggerIf b e = .error a) :
    b = true ∧ c.triggerEvent e = .error a := by
  unfold FdContext.triggerIf at h
  split at h
  · rename_i hb
    split at h
    · rename_i a' ha
      cases h
      exact ⟨hb, ha⟩
    · cases h
  · cases h

/-- A pair of triggers that aborts does so for an event of the mask, on a context that has this event
as the given one has: triggering `READ` first leaves the `WRITE` side alone. -/
theorem triggerBoth_error {c : FdContext F C} {m : Mask} {a : Abort} (h : c.triggerBoth m = .error a) :
    ∃ e, m.has e = true ∧ ((c.events.has e = false ∧ a = .triggerEvent e) ∨
      (c.events.has e = true ∧ (c.getContext e).scheduler = none ∧ a = .nullScheduler)) := by
  unfold FdContext.triggerBoth at h
  split at h
  · rename_i a' ha
    cases h
    obtain ⟨hm, ht⟩ := triggerIf_error ha
    exact ⟨.read, hm, triggerEvent_error ht⟩
  · rename_i c' n l hr
    split at h
    · rename_i a' ha
      cases h
      obtain ⟨hm, ht⟩ := triggerIf_error ha
      have hread := (triggerIf_ok hr).1
      have hkeep : (if m.read then Mask.single .read else Mask.none).has .write = false := by split <;> rfl
      have hev : c'.events.has .write = c.events.has .write := by rw [hread.events, Mask.has_diff, hkeep]; simp
      have := triggerEvent_error ht
      rw [hev, hread.kept .write hkeep] at this
      exact ⟨.write, hm, this⟩
    · cases h

/-- A trigger is the pair of triggers of its one event. -/
theorem triggerEvent_error_both {c : FdContext F C} {e : Event} {a : Abort} (h : c.triggerEvent e = .error a) :
    c.triggerBoth (.single e) = .error a := by
  cases e <;> simp [FdContext.triggerBoth, FdContext.triggerIf, Mask.single, h]

section Aborts

variable {memory : Nat → Event → Option Nat} {s : IOManager F C} {p fd : Nat} {e : Event} {ok : Bool} {a : Abort}

theorem addEvent_error {caller : Caller F C} (h : s.addEvent memory fd e caller ok = .error a) : ¬ a.InTrigger := by
  unfold IOManager.addEvent at h
  split at h
  · rename_i a' hs
    cases h
    unfold IOManager.slot at hs
    simp only at hs
    split at hs
    · cases hs; simp [Abort.InTrigger]
    · cases hs
  · unfold IOManager.addEventLocked at h
    simp only at h
    repeat' split at h
    all_goals cases h <;> simp [Abort.InTrigger]

theorem delEventLocked_error (h : s.delEventLocked p fd e ok = .error a) : ¬ a.InTrigger := by
  unfold IOManager.delEventLocked at h
  simp only at h
  repeat' split at h
  all_goals cases h <;> simp [Abort.InTrigger]

theorem cancelEventLocked_error (h : s.cancelEventLocked p fd e ok = .error a) (ha : a.InTrigger) :
    ∃ c, s.heap[p]? = some c ∧ c.events.has e = true ∧ c.triggerBoth (.single e) = .error a := by
  unfold IOManager.cancelEventLocked at h
  simp only at h
  split at h
  · cases h; simp [Abort.InTrigger] at ha
  · rename_i c hc
    split at h
    · cases h
    · rename_i hb
      split at h
      · cases h
      · split at h
        · rename_i a' ht
          cases h
          exact ⟨c, hc, by simpa using hb, triggerEvent_error_both ht⟩
        · cases h

theorem cancelAllLocked_error (h : s.cancelAllLocked p fd ok = .error a) (ha : a.InTrigger) :
    ∃ c, s.heap[p]? = some c ∧ c.triggerBoth c.events = .error a := by
  unfold IOManager.cancelAllLocked at h
  split at h
  · cases h; simp [Abort.InTrigger] at ha
  · rename_i c hc
    split at h
    · cases h
    · split at h
      · cases h
      · split at h
        · rename_i a' ht
          cases h
          exact ⟨c, hc, ht⟩
        · split at h
          · cases h; simp [Abort.InTrigger] at ha
          · cases h

theorem handleReport_error {r : Report} (h : s.handleReport p r ok = .error a) (ha : a.InTrigger) :
    ok = true ∧ ∃ c, s.heap[p]? = some c ∧ c.events.and (IOManager.realEvents r c.events) ≠ Mask.none ∧
      c.triggerBoth (IOManager.realEvents r c.events) = .error a := by
  unfold IOManager.handleReport at h
  split at h
  · cases h; simp [Abort.InTrigger] at ha
  · rename_i c hc
    simp only at h
    split at h
    · cases h
    · rename_i hand
      split at h
      · cases h
      · rename_i hok
        split at h
        · rename_i a' ht
          cases h
          exact ⟨by simpa using hok, c, hc, hand, ht⟩
        · cases h

theorem onSlot_error {f : Nat → Except Abort (Result F C)} (h : s.onSlot fd f = .error a) : ∃ p, f p = .error a := by
  unfold IOManager.onSlot at h
  split at h
  · cases h
  · exact ⟨_, h⟩

/-- An operation that aborts in a trigger: what it was triggering was registered, or it was a report
that is handled. -/
theorem exec_error {op : Op F C} (h : exec memory s op = .error a) (ha : a.InTrigger) :
    ∃ p c m, s.heap[p]? = some c ∧ c.triggerBoth m = .error a ∧ (m.Sub c.events ∨
      ∃ r, op = .report p r true ∧ m = IOManager.realEvents r c.events ∧ c.events.and m ≠ Mask.none) := by
  cases op with
  | addEvent fd e caller ok => exact absurd ha (addEvent_error h)
  | delEvent fd e ok =>
    obtain ⟨p, hp⟩ := onSlot_error h
    exact absurd ha (delEventLocked_error hp)
  | cancelEvent fd e ok =>
    obtain ⟨p, hp⟩ := onSlot_error h
    obtain ⟨c, hc, hb, ht⟩ := cancelEventLocked_error hp ha
    exact ⟨p, c, .single e, hc, ht, .inl (Mask.single_sub hb)⟩
  | cancelAll fd ok =>
    obtain ⟨p, hp⟩ := onSlot_error h
    obtain ⟨c, hc, ht⟩ := cancelAllLocked_error hp ha
    exact ⟨p, c, c.events, hc, ht, .inl (Mask.sub_refl _)⟩
  | report p r ok =>
    obtain ⟨rfl, c, hc, hand, ht⟩ := handleReport_error h ha
    exact ⟨p, c, _, hc, ht, .inr ⟨r, rfl, rfl, hand⟩⟩

end Aborts

/-! ## Runs -/

theorem outcome_inv {sch : Option Nat} {s : IOManager F C} (hi : Inv s) {r : Result F C} (h : Outcome sch s r) :
    Inv r.state := by
  cases h with
  | refused => exact hi
  | failed => exact hi
  | committed hc _ hch => exact commit_inv hi hc hch.fd

theorem step_inv {memory : Nat → Event → Option Nat} {s s' : IOManager F C} {a : Op F C × Result F C} (hi : Inv s)
    (h : Step memory s a s') : Inv s' := by
  obtain ⟨he, rfl⟩ := h
  obtain ⟨t, hg, sch, ho⟩ := exec_some_outcome hi he
  exact outcome_inv hg.inv ho

/-- The invariant holds along every run. -/
theorem run_inv {memory : Nat → Event → Option Nat} {s : IOManager F C} {l : List (Op F C × Result F C)}
    (h : Lts.Run (Step memory) (IOManager.init memory) l s) : Inv s :=
  h.invariant (init_inv memory) fun _ _ _ hi hs => step_inv hi hs

end ServerFrame.Events
