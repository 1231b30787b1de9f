/-
Which operation does what to a registration: `addEvent` makes it, `delEvent` drops it, and it is handed to `schedule()`
by `cancelEvent`, `cancelAll` and the handling of a report. An operation that returns true does so to every registration
it is about, and to no other.
-/
import ServerFrame.Event.Bookkeeping

namespace ServerFrame.Events

universe u v

variable {F : Type u} {C : Type v}

/-- The registration a context holds for an event whose bit is set. -/
def held (c : FdContext F C) (e : Event) : Option (Reg F C) :=
  if c.events.has e then FdContext.regOf (c.getContext e) else none

/-- The registration of an event that `m_fdContexts[fd]` holds. -/
def heldAt (s : IOManager F C) (fd : Nat) (e : Event) : Option (Reg F C) := (contextAt s fd).bind fun c => held c e

/-- What `addEvent` registers for its caller: the callback it passes, or its fiber. -/
def Caller.reg (caller : Caller F C) : Reg F C :=
  ⟨caller.scheduler, match caller.cb with | some cb => .cb cb | none => .fiber caller.fiber⟩

/-- What an operation does to the registrations it is about. -/
def Op.fate : Op F C → Fate
  | .addEvent .. => .added
  | .delEvent .. => .dropped
  | .cancelEvent .. => .handed
  | .cancelAll .. => .handed
  | .report .. => .handed

/-- The report stands for readiness of a descriptor for an event. -/
def Reports (s : IOManager F C) (fd : Nat) (e : Event) : Op F C → Bool
  | .report p r _ => s.heap[p]?.any fun c => c.fd = fd && (IOManager.realEvents r c.events).has e
  | _ => false

/-- The operation cancels the event of a descriptor. -/
def Cancels (fd : Nat) (e : Event) : Op F C → Prop
  | .cancelEvent fd' e' _ => fd' = fd ∧ e' = e
  | .cancelAll fd' _ => fd' = fd
  | _ => False

/-- The operation is about the event of a descriptor. -/
def Op.Concerns (s : IOManager F C) (fd : Nat) (e : Event) : Op F C → Prop
  | .addEvent fd' e' _ _ => fd' = fd ∧ e' = e
  | .delEvent fd' e' _ => fd' = fd ∧ e' = e
  | op => Reports s fd e op ∨ Cancels fd e op

/-- What an operation does: its lines are about the events that concern it, and say what it does to their
registrations; where it returns false there are none, and where it returns true, `addEvent` registers the task of its
caller, and any other operation has a line for every registration that was held. -/
structure Does (s : IOManager F C) (op : Op F C) (r : Result F C) : Prop where
  fate : ∀ x ∈ r.log, x.fate = op.fate
  concerns : ∀ x ∈ r.log, op.Concerns s x.fd x.event
  failed : r.ret = false → r.log = []
  opens : ∀ fd e caller ok, op = .addEvent fd e caller ok → r.ret = true → r.log = [⟨.added, fd, e, caller.reg⟩]
  closes : op.fate ≠ .added → r.ret = true → ∀ fd e reg, op.Concerns s fd e → heldAt s fd e = some reg →
    ⟨op.fate, fd, e, reg⟩ ∈ r.log

/-! ## The locked sections -/

section Locked

variable {memory : Nat → Event → Option Nat} {s : IOManager F C} {c c' : FdContext F C} {p fd : Nat} {e : Event}
  {ok : Bool} {r : Result F C} {x : Entry F C} {m : Mask} {l : List (Entry F C)} {reg : Reg F C}

theorem mem_of_triggered (h : Triggered c m c' l) :
    x ∈ l ↔ m.has x.event = true ∧ x ∈ entriesOf .handed c x.event := by
  have hmem : x ∈ l ↔ x ∈ l.filter fun y => decide (y.event = x.event) := by
    rw [List.mem_filter]
    exact (and_iff_left (decide_eq_true rfl)).symm
  rw [hmem, h.log]
  split
  · rename_i hm
    exact (and_iff_right hm).symm
  · rename_i hm
    exact iff_of_false (List.not_mem_nil) fun h => hm h.1

theorem mem_entriesOf {fate : Fate} : x ∈ entriesOf fate c e ↔
    x.fate = fate ∧ x.fd = c.fd ∧ x.event = e ∧ FdContext.regOf (c.getContext e) = some x.reg := by
  unfold entriesOf
  rw [List.mem_map]
  constructor
  · rintro ⟨r, hr, rfl⟩
    exact ⟨rfl, rfl, rfl, Option.mem_toList.1 hr⟩
  · rintro ⟨rfl, hfd, rfl, hr⟩
    exact ⟨x.reg, Option.mem_toList.2 hr, by rw [← hfd]⟩

/-- A section without a line that returns false, or one that returns true. -/
def Logs (r : Result F C) (done : Prop) : Prop := (r.ret = false ∧ r.log = []) ∨ (r.ret = true ∧ done)

theorem addEventLocked_logs {caller : Caller F C} (hc : s.heap[p]? = some c)
    (h : s.addEventLocked p fd e caller ok = .ok r) : Logs r (r.log = [⟨.added, c.fd, e, caller.reg⟩]) := by
  unfold IOManager.addEventLocked at h
  rw [hc] at h
  dsimp only at h
  split at h
  · cases h
  split at h
  · cases h
    exact .inl ⟨rfl, rfl⟩
  split at h
  · cases h
  split at h
  · rename_i cb hcb
    cases h
    exact .inr ⟨rfl, by rw [Caller.reg, hcb]; rfl⟩
  · rename_i hcb
    split at h
    · cases h
      exact .inr ⟨rfl, by rw [Caller.reg, hcb]; rfl⟩
    · cases h

theorem delEventLocked_logs (hc : s.heap[p]? = some c) (h : s.delEventLocked p fd e ok = .ok r) :
    Logs r (r.log = entriesOf .dropped c e) := by
  unfold IOManager.delEventLocked at h
  rw [hc] at h
  dsimp only at h
  split at h
  · cases h
    exact .inl ⟨rfl, rfl⟩
  split at h <;> cases h
  · exact .inl ⟨rfl, rfl⟩
  · exact .inr ⟨rfl, rfl⟩

theorem cancelEventLocked_logs (hc : s.heap[p]? = some c) (h : s.cancelEventLocked p fd e ok = .ok r) :
    Logs r (∃ c', Triggered c (.single e) c' r.log) := by
  unfold IOManager.cancelEventLocked at h
  rw [hc] at h
  dsimp only at h
  split at h
  · cases h
    exact .inl ⟨rfl, rfl⟩
  split at h
  · cases h
    exact .inl ⟨rfl, rfl⟩
  split at h
  · cases h
  · rename_i ht
    cases h
    exact .inr ⟨rfl, _, triggerEvent_ok ht⟩

theorem cancelAllLocked_logs (hc : s.heap[p]? = some c) (h : s.cancelAllLocked p fd ok = .ok r) :
    Logs r (∃ c', Triggered c c.events c' r.log) := by
  unfold IOManager.cancelAllLocked at h
  rw [hc] at h
  dsimp only at h
  split at h
  · cases h
    exact .inl ⟨rfl, rfl⟩
  split at h
  · cases h
    exact .inl ⟨rfl, rfl⟩
  split at h
  · cases h
  · rename_i ht
    split at h <;> cases h
    exact .inr ⟨rfl, _, (triggerBoth_ok ht).1⟩

theorem handleReport_logs {rep : Report} (hc : s.heap[p]? = some c) (h : s.handleReport p rep ok = .ok r) :
    Logs r (∃ c', Triggered c (IOManager.realEvents rep c.events) c' r.log) := by
  unfold IOManager.handleReport at h
  rw [hc] at h
  dsimp only at h
  split at h
  · cases h
    exact .inl ⟨rfl, rfl⟩
  split at h
  · cases h
    exact .inl ⟨rfl, rfl⟩
  split at h
  · cases h
  · rename_i ht
    cases h
    exact .inr ⟨rfl, _, (triggerBoth_ok ht).1⟩

/-- The operation on a slot is on the context of the descriptor, or there is none. -/
theorem onSlot_cases (hi : Inv s) {f : Nat → Except Abort (Result F C)} (h : s.onSlot fd f = .ok r) :
    (s.heap[fd]? = none ∧ r = s.refused) ∨ ∃ c, s.heap[fd]? = some c ∧ c.fd = fd ∧ f fd = .ok r := by
  unfold IOManager.onSlot at h
  rw [hi.table] at h
  by_cases hlt : fd < s.heap.length
  · rw [List.getElem?_range hlt] at h
    have hc := List.getElem?_eq_getElem hlt
    exact .inr ⟨_, hc, hi.fds _ _ hc, h⟩
  · rw [List.getElem?_eq_none (by simpa using hlt)] at h
    cases h
    exact .inl ⟨List.getElem?_eq_none (Nat.le_of_not_lt hlt), rfl⟩

end Locked

/-! ## The operations -/

section Operations

variable {memory : Nat → Event → Option Nat} {s : IOManager F C} {op : Op F C} {r : Result F C} {x : Entry F C}

theorem heldAt_eq_some (hi : Inv s) {fd : Nat} {e : Event} {reg : Reg F C} (h : heldAt s fd e = some reg) :
    ∃ c, s.heap[fd]? = some c ∧ c.events.has e = true ∧ FdContext.regOf (c.getContext e) = some reg := by
  rw [heldAt, contextAt_eq hi] at h
  obtain ⟨c, hc, hheld⟩ := Option.bind_eq_some_iff.1 h
  rw [held] at hheld
  split at hheld
  · exact ⟨c, hc, ‹_›, hheld⟩
  · cases hheld

/-- An operation with no line that returns false. -/
theorem Does.refused (hret : r.ret = false) (hlog : r.log = []) : Does s op r where
  fate x hx := by rw [hlog] at hx; cases hx
  concerns x hx := by rw [hlog] at hx; cases hx
  failed _ := hlog
  opens _ _ _ _ _ h := by rw [hret] at h; cases h
  closes _ h := by rw [hret] at h; cases h

/-- An operation that hands over the events of a mask, on the context of its descriptor. -/
theorem Does.handed {p : Nat} {c : FdContext F C} {m : Mask} (hi : Inv s) (hc : s.heap[p]? = some c)
    (hfate : op.fate = .handed) (hmask : ∀ e, m.has e = true → op.Concerns s p e)
    (hback : ∀ fd e, op.Concerns s fd e → fd = p ∧ (c.events.has e = true → m.has e = true))
    (h : Logs r (∃ c', Triggered c m c' r.log)) : Does s op r := by
  obtain ⟨hret, hlog⟩ | ⟨hret, c', ht⟩ := h
  · exact .refused hret hlog
  have hfd := hi.fds p c hc
  exact {
    fate := fun x hx => by rw [hfate, (mem_entriesOf.1 ((mem_of_triggered ht).1 hx).2).1]
    concerns := fun x hx => by
      obtain ⟨hm, hx⟩ := (mem_of_triggered ht).1 hx
      rw [(mem_entriesOf.1 hx).2.1, hfd]
      exact hmask x.event hm
    failed := fun h => by rw [hret] at h; cases h
    opens := fun fd e caller ok hop => by rw [hop] at hfate; cases hfate
    closes := fun _ _ fd e reg hop hheld => by
      obtain ⟨rfl, hm⟩ := hback fd e hop
      obtain ⟨c1, hc1, he, hreg⟩ := heldAt_eq_some hi hheld
      rw [hc] at hc1
      cases hc1
      rw [hfate]
      exact (mem_of_triggered ht).2 ⟨hm he, mem_entriesOf.2 ⟨rfl, hfd.symm, rfl, hreg⟩⟩ }

/-- Every operation that does not abort does what it is for. -/
theorem exec_does (hi : Inv s) (h : exec memory s op = .ok r) : Does s op r := by
  cases op with
  | addEvent fd e caller ok =>
    obtain ⟨s', hs, hg, hlt⟩ := slot_spec memory hi fd
    simp only [exec, IOManager.addEvent, hs] at h
    have hc := List.getElem?_eq_getElem hlt
    have hfd := hg.inv.fds _ _ hc
    obtain ⟨hret, hlog⟩ | ⟨hret, hlog⟩ := addEventLocked_logs hc h
    · exact .refused hret hlog
    rw [hfd] at hlog
    exact {
      fate := fun x hx => by rw [hlog, List.mem_singleton] at hx; rw [hx]; rfl
      concerns := fun x hx => by rw [hlog, List.mem_singleton] at hx; rw [hx]; exact ⟨rfl, rfl⟩
      failed := fun h => by rw [hret] at h; cases h
      opens := fun fd' e' caller' ok' hop _ => by cases hop; exact hlog
      closes := fun hop => absurd rfl hop }
  | delEvent fd e ok =>
    obtain ⟨-, rfl⟩ | ⟨c, hc, hfd, hf⟩ := onSlot_cases hi h
    · exact .refused rfl rfl
    obtain ⟨hret, hlog⟩ | ⟨hret, hlog⟩ := delEventLocked_logs hc hf
    · exact .refused hret hlog
    exact {
      fate := fun x hx => by rw [hlog] at hx; exact (mem_entriesOf.1 hx).1
      concerns := fun x hx => by
        rw [hlog] at hx
        obtain ⟨-, hxfd, hxe, -⟩ := mem_entriesOf.1 hx
        exact ⟨(hxfd.trans hfd).symm, hxe.symm⟩
      failed := fun h => by rw [hret] at h; cases h
      opens := fun fd' e' caller' ok' hop => by cases hop
      closes := fun _ _ fd' e' reg hop hheld => by
        obtain ⟨rfl, rfl⟩ := hop
        obtain ⟨c1, hc1, -, hreg⟩ := heldAt_eq_some hi hheld
        rw [hc] at hc1
        cases hc1
        rw [hlog]
        exact mem_entriesOf.2 ⟨rfl, hfd.symm, rfl, hreg⟩ }
  | cancelEvent fd e ok =>
    obtain ⟨-, rfl⟩ | ⟨c, hc, hfd, hf⟩ := onSlot_cases hi h
    · exact .refused rfl rfl
    refine .handed hi hc rfl (fun e' he => .inr ⟨rfl, ?_⟩) (fun fd' e' hop => ?_) (cancelEventLocked_logs hc hf)
    · rw [Mask.has_single, decide_eq_true_eq] at he
      exact he.symm
    · obtain hop | ⟨rfl, rfl⟩ := hop
      · cases hop
      · exact ⟨rfl, fun _ => by rw [Mask.has_single, decide_eq_true_eq]⟩
  | cancelAll fd ok =>
    obtain ⟨-, rfl⟩ | ⟨c, hc, hfd, hf⟩ := onSlot_cases hi h
    · exact .refused rfl rfl
    refine .handed hi hc rfl (fun e' _ => .inr rfl) (fun fd' e' hop => ?_) (cancelAllLocked_logs hc hf)
    obtain hop | hop := hop
    · cases hop
    · exact ⟨hop.symm, id⟩
  | report p rep ok =>
    rcases hc : s.heap[p]? with _ | c
    · unfold exec IOManager.handleReport at h
      dsimp only at h
      rw [hc] at h
      cases h
    · have hfd := hi.fds p c hc
      refine .handed hi hc rfl (fun e' he => .inl ?_) (fun fd' e' hop => ?_) (handleReport_logs hc h)
      · rw [Reports, hc, Option.any_some, he, hfd, decide_eq_true rfl]
        rfl
      · obtain hop | hop := hop
        · rw [Reports, hc, Option.any_some, Bool.and_eq_true, decide_eq_true_eq] at hop
          exact ⟨hop.1.symm.trans hfd, fun _ => hop.2⟩
        · cases hop

/-- A registration is handed over by a report of its readiness, or by a cancellation of its event. -/
theorem handed_cause (hi : Inv s) (h : exec memory s op = .ok r) (hx : x ∈ r.log) (hfate : x.fate = .handed) :
    Reports s x.fd x.event op ∨ Cancels x.fd x.event op := by
  have hdoes := exec_does hi h
  have hop := (hdoes.fate x hx).symm.trans hfate
  have hconcerns := hdoes.concerns x hx
  cases op with
  | addEvent => cases hop
  | delEvent => cases hop
  | cancelEvent => exact hconcerns
  | cancelAll => exact hconcerns
  | report => exact hconcerns

end Operations

end ServerFrame.Events
