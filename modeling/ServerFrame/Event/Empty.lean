/-
What a context holds for an event that is not registered. `contextResize` makes contexts whose scheduler pointers have
no initialiser, while `resetContext` and `triggerEvent` leave null behind, so that the assertion of `addEvent` depends
on the memory a context was made in.
-/
import ServerFrame.Event.Table

namespace ServerFrame.Events

universe u v

variable {F : Type u} {C : Type v}

/-- A section in which contexts change: a resize of the table to any size, or what an operation does under the mutex of
a context that its thread has found. -/
inductive ContextOp (F : Type u) (C : Type v)
  | contextResize (size : Nat)
  | addEvent (p fd : Nat) (e : Event) (caller : Caller F C) (ok : Bool)
  | delEvent (p fd : Nat) (e : Event) (ok : Bool)
  | cancelEvent (p fd : Nat) (e : Event) (ok : Bool)
  | cancelAll (p fd : Nat) (ok : Bool)
  | report (p : Nat) (r : Report) (ok : Bool)

namespace ContextOp

variable (memory : Nat → Event → Option Nat)

def exec (s : IOManager F C) : ContextOp F C → Except Abort (IOManager F C)
  | contextResize size => .ok (s.contextResize memory size)
  | addEvent p fd e caller ok => (s.addEventLocked p fd e caller ok).map Result.state
  | delEvent p fd e ok => (s.delEventLocked p fd e ok).map Result.state
  | cancelEvent p fd e ok => (s.cancelEventLocked p fd e ok).map Result.state
  | cancelAll p fd ok => (s.cancelAllLocked p fd ok).map Result.state
  | report p r ok => (s.handleReport p r ok).map Result.state

/-- A section in which nothing aborts. -/
def Step (s : IOManager F C) (a : ContextOp F C) (s' : IOManager F C) : Prop := exec memory s a = .ok s'

end ContextOp

/-- Every event that is not registered has a context with neither scheduler, fiber nor callback. -/
def Cleared (s : IOManager F C) : Prop :=
  ∀ (p : Nat) (c : FdContext F C), s.heap[p]? = some c →
    ∀ e, c.events.has e = false → c.getContext e = ⟨none, none, none⟩

/-! ## Contexts -/

/-- A context made over the memory `m`: for an event that is not registered it is as it was made, and one that is
registered found null there and has one task. -/
structure AsMade (m : Event → Option Nat) (c : FdContext F C) : Prop where
  clear : ∀ e, c.events.has e = false → c.getContext e = ⟨m e, none, none⟩
  set : ∀ e, c.events.has e = true → m e = none ∧ ((c.getContext e).fiber = none ∨ (c.getContext e).cb = none)

theorem new_asMade (fd : Nat) (m : Event → Option Nat) : AsMade m (FdContext.new fd m : FdContext F C) := by
  constructor
  · intro e _
    cases e <;> rfl
  · intro e he
    rw [FdContext.new, Mask.has_none] at he
    cases he

theorem add_asMade {m : Event → Option Nat} {c : FdContext F C} (h : AsMade m c) {e : Event} {ctx : EventContext F C}
    (hb : c.events.has e = false) (hempty : c.getContext e = ⟨none, none, none⟩)
    (hone : ctx.fiber = none ∨ ctx.cb = none) :
    AsMade m ({ c with events := c.events.or (.single e) }.setContext ctx e) := by
  -- the context was as it was made, so that the memory held null
  have hm : m e = none := congrArg EventContext.scheduler ((h.clear e hb).symm.trans hempty)
  constructor
  · intro e' he'
    rw [setContext_events, Mask.has_or, Mask.has_single, Bool.or_eq_false_iff, decide_eq_false_iff_not] at he'
    rw [getContext_setContext, if_neg he'.2, getContext_events]
    exact h.clear e' he'.1
  · intro e' he'
    rw [getContext_setContext, getContext_events]
    split
    · rename_i heq
      subst heq
      exact ⟨hm, hone⟩
    · rename_i hne
      refine h.set e' ?_
      simpa [Mask.has_single, hne] using he'

theorem drop_asMade {m : Event → Option Nat} {c : FdContext F C} (h : AsMade m c) {e : Event}
    (hb : c.events.has e = true) :
    AsMade m ({ c with events := c.events.diff (.single e) }.resetContext e) := by
  unfold FdContext.resetContext
  constructor
  · intro e' he'
    rw [getContext_setContext, getContext_events]
    split
    · rename_i heq
      subst heq
      rw [(h.set e' hb).1]
    · rename_i hne
      refine h.clear e' ?_
      simpa [Mask.has_single, hne] using he'
  · intro e' he'
    rw [setContext_events, Mask.has_diff, Mask.has_single, Bool.and_eq_true, Bool.not_eq_true',
      decide_eq_false_iff_not] at he'
    rw [getContext_setContext, if_neg he'.2, getContext_events]
    exact h.set e' he'.1

theorem trigger_asMade {m : Event → Option Nat} {c c' : FdContext F C} {mask : Mask} {l : List (Entry F C)}
    (h : AsMade m c) (ht : Triggered c mask c' l) : AsMade m c' := by
  constructor
  · intro e he
    by_cases hmask : mask.has e = true
    · -- one task was there, and it is the one that was handed over
      obtain ⟨hm, hone⟩ := h.set e (ht.sub e hmask)
      rw [ht.emptied e hmask, hm]
      rcases hone with hfiber | hcb
      · rw [hfiber, ite_self]
      · rw [hcb]
        rfl
    · rw [Bool.not_eq_true] at hmask
      rw [ht.kept e hmask]
      refine h.clear e ?_
      rw [ht.events, Mask.has_diff, hmask] at he
      simpa using he
  · intro e he
    rw [ht.events, Mask.has_diff, Bool.and_eq_true, Bool.not_eq_true'] at he
    rw [ht.kept e he.2]
    exact h.set e he.1

theorem Change.asMade {sch : Option Nat} {m : Event → Option Nat} {c c' : FdContext F C} {l : List (Entry F C)}
    (hch : Change sch c c' l) (h : AsMade m c) : AsMade m c' := by
  cases hch with
  | add e ctx r hb hempty hsch hr hone => exact add_asMade h hb hempty hone
  | drop e hb => exact drop_asMade h hb
  | trigger mask c' l hand ht => exact trigger_asMade h ht

/-! ## Runs -/

/-- Every context is one that was made over its memory. -/
def Made (memory : Nat → Event → Option Nat) (s : IOManager F C) : Prop :=
  ∀ (p : Nat) (c : FdContext F C), s.heap[p]? = some c → AsMade (memory p) c

section Runs

variable {memory : Nat → Event → Option Nat} {s s' : IOManager F C}

/-- A resize puts new contexts behind those on the heap. -/
theorem contextResize_made (h : Made memory s) (size : Nat) : Made memory (s.contextResize memory size) := by
  intro p c hc
  unfold IOManager.contextResize at hc
  rcases Nat.lt_or_ge p s.heap.length with hlt | hge
  · rw [List.getElem?_append_left hlt] at hc
    exact h p c hc
  · rw [List.getElem?_append_right hge, List.getElem?_map] at hc
    obtain ⟨i, hi, rfl⟩ := Option.map_eq_some_iff.1 hc
    obtain ⟨-, rfl⟩ := List.getElem?_eq_some_iff.1 hi
    have hp : s.heap.length + (List.range (size - (s.fdContexts.take size).length))[p - s.heap.length] = p := by
      rw [List.getElem_range]
      omega
    rw [hp]
    exact new_asMade _ _

theorem Locked.made {sch : Option Nat} {p fd : Nat} {r : Result F C} (hl : Locked sch s p fd r)
    (h : Made memory s) : Made memory r.state := by
  cases hl with
  | refused | failed => exact h
  | @committed c c' op m n l hc hv hch hm hd hn =>
    intro q d hq
    rw [List.getElem?_set] at hq
    by_cases hpq : p = q
    · subst hpq
      rw [if_pos rfl, if_pos (List.getElem?_eq_some_iff.1 hc).1] at hq
      cases hq
      exact hch.asMade (h p c hc)
    · rw [if_neg hpq] at hq
      exact h q d hq

theorem step_made {a : ContextOp F C} (h : Made memory s) (hs : ContextOp.Step memory s a s') : Made memory s' := by
  have hlocked : ∀ {p : Nat} {f : Except Abort (Result F C)}, f.map Result.state = .ok s' →
      (s.heap[p]? = none → f = .error .outOfRange) →
      (∀ c r, s.heap[p]? = some c → f = .ok r → ∃ sch fd, Locked sch s p fd r) → Made memory s' := by
    intro p f hf hnone hsome
    cases f with
    | error a => cases hf
    | ok r =>
      cases hf
      rcases hc : s.heap[p]? with _ | c
      · cases hnone hc
      · obtain ⟨sch, fd, hl⟩ := hsome c r hc rfl
        exact hl.made h
  cases a with
  | contextResize size =>
    cases hs
    exact contextResize_made h size
  | addEvent p fd e caller ok =>
    refine hlocked hs (fun hc => ?_) fun c r hc hr => ⟨_, _, addEventLocked_locked hc hr⟩
    rw [IOManager.addEventLocked, hc]
  | delEvent p fd e ok =>
    refine hlocked hs (fun hc => ?_) fun c r hc hr => ⟨none, _, delEventLocked_locked hc hr⟩
    rw [IOManager.delEventLocked, hc]
  | cancelEvent p fd e ok =>
    refine hlocked hs (fun hc => ?_) fun c r hc hr => ⟨none, _, cancelEventLocked_locked hc hr⟩
    rw [IOManager.cancelEventLocked, hc]
  | cancelAll p fd ok =>
    refine hlocked hs (fun hc => ?_) fun c r hc hr => ⟨none, _, cancelAllLocked_locked hc hr⟩
    rw [IOManager.cancelAllLocked, hc]
  | report p rep ok =>
    refine hlocked hs (fun hc => ?_) fun c r hc hr => ⟨none, _, handleReport_locked hc hr⟩
    rw [IOManager.handleReport, hc]

theorem run_made {l : List (ContextOp F C)} (h : Lts.Run (ContextOp.Step memory) (IOManager.init memory) l s) :
    Made memory s := by
  refine h.invariant (contextResize_made ?_ 32) fun t a u ht hs => step_made ht hs
  intro p c hc
  cases hc

/-- The sections of `addEvent` and of the operations on a slot, one after the other. -/
theorem exec_sections {a : Op F C × Result F C} (h : Step memory s a s') :
    ∃ l, Lts.Run (ContextOp.Step memory) s l s' := by
  obtain ⟨he, rfl⟩ := h
  obtain ⟨op, r⟩ := a
  have honslot : ∀ {fd : Nat} {f : Nat → Except Abort (Result F C)}, s.onSlot fd f = .ok r →
      (∀ p, f p = .ok r → ∃ o, ContextOp.Step memory s o r.state) →
      ∃ l, Lts.Run (ContextOp.Step memory) s l r.state := by
    intro fd f hf hop
    unfold IOManager.onSlot at hf
    split at hf
    · cases hf
      exact ⟨[], .nil⟩
    · rename_i p _
      obtain ⟨o, ho⟩ := hop p hf
      exact ⟨[o], .single ho⟩
  have hmap : ∀ {f : Except Abort (Result F C)}, f = .ok r → f.map Result.state = .ok r.state := by
    rintro f rfl
    rfl
  cases op with
  | addEvent fd e caller ok =>
    simp only [exec, IOManager.addEvent] at he
    split at he
    · cases he
    · rename_i t p hslot
      unfold IOManager.slot at hslot
      simp only at hslot
      split at hslot
      · cases hslot
      · cases hslot
        by_cases hlt : fd < s.fdContexts.length
        · rw [if_pos hlt] at he
          exact ⟨[.addEvent p fd e caller ok], .single (hmap he)⟩
        · rw [if_neg hlt] at he
          exact ⟨[.contextResize (fd * 3 / 2), .addEvent p fd e caller ok], .cons rfl (.single (hmap he))⟩
  | delEvent fd e ok => exact honslot he fun p hp => ⟨.delEvent p fd e ok, hmap hp⟩
  | cancelEvent fd e ok => exact honslot he fun p hp => ⟨.cancelEvent p fd e ok, hmap hp⟩
  | cancelAll fd ok => exact honslot he fun p hp => ⟨.cancelAll p fd ok, hmap hp⟩
  | report p rep ok => exact ⟨[.report p rep ok], .single (hmap he)⟩

/-- The critical sections of concurrent calls of `addEvent` are among these. -/
theorem table_sections {t t' : Table F C} {a : Section F C} (h : t.Step memory a t') :
    ∃ l, Lts.Run (ContextOp.Step memory) t.io l t'.io := by
  unfold Table.Step at h
  cases a with
  | test fd e caller =>
    cases h
    exact ⟨[], .nil⟩
  | resize i =>
    simp only [Table.next] at h
    split at h
    · rename_i fd e caller hcall
      split at h
      · cases h
        exact ⟨[.contextResize (fd * 3 / 2)], .single rfl⟩
      · cases h
    · cases h
  | register i ok =>
    simp only [Table.next] at h
    split at h
    · rename_i fd e caller p hcall
      split at h
      · rename_i r hr
        cases h
        refine ⟨[.addEvent p fd e caller ok], .single ?_⟩
        show (t.io.addEventLocked p fd e caller ok).map Result.state = .ok r.state
        rw [hr]
        rfl
      · cases h
    · cases h

/-- In every run, the contexts of all events that are not registered are empty exactly when the memory of every context
held null, and the assertion of `addEvent` fails for such an event exactly when the memory of its context did not. -/
theorem cleared_iff {l : List (ContextOp F C)} (h : Lts.Run (ContextOp.Step memory) (IOManager.init memory) l s) :
    (Cleared s ↔ ∀ p < s.heap.length, ∀ e, memory p e = none) ∧
    ∀ (p : Nat) (c : FdContext F C) (e : Event), s.heap[p]? = some c → c.events.has e = false →
      ∀ fd caller, s.addEventLocked p fd e caller true = .error .contextInUse ↔ memory p e ≠ none := by
  have hmade := run_made h
  constructor
  · constructor
    · intro hcleared p hp e
      have hc := List.getElem?_eq_getElem hp
      by_cases hb : (s.heap[p]).events.has e = true
      · exact ((hmade p _ hc).set e hb).1
      · rw [Bool.not_eq_true] at hb
        exact congrArg EventContext.scheduler (((hmade p _ hc).clear e hb).symm.trans (hcleared p _ hc e hb))
    · intro hnull p c hc e hb
      rw [(hmade p c hc).clear e hb, hnull p (List.getElem?_eq_some_iff.1 hc).1 e]
  · intro p c e hc hb fd caller
    unfold IOManager.addEventLocked
    rw [hc]
    simp only [hb, (hmade p c hc).clear e hb]
    rcases hm : memory p e with _ | sch
    · rcases hcb : caller.cb with _ | cb
      · by_cases hexec : caller.exec <;> simp [hexec]
      · simp
    · simp

end Runs

/-- An `IOManager` made in memory that held null: its contexts are empty, and `addEvent` accepts the first event. -/
theorem cleared_iff_null : Cleared (IOManager.init fun _ _ => none : IOManager Unit Unit) ∧
    (IOManager.init fun _ _ => none : IOManager Unit Unit).addEventLocked 3 3 .read ⟨some 0, (), true, none⟩ true ≠
      .error .contextInUse := by
  have h := cleared_iff (.nil : Lts.Run (ContextOp.Step fun _ _ => none)
    (IOManager.init fun _ _ => none : IOManager Unit Unit) [] (IOManager.init fun _ _ => none))
  constructor
  · exact h.1.2 fun p _ e => rfl
  · intro hin
    exact (h.2 3 _ .read rfl rfl 3 _).1 hin rfl

/-- In memory that did not hold null the first `addEvent` of a descriptor fails its assertion. -/
theorem first_event_asserts : (¬ ∀ (memory : Nat → Event → Option Nat) (l : List (ContextOp Unit Unit))
      (s : IOManager Unit Unit), Lts.Run (ContextOp.Step memory) (IOManager.init memory) l s → Cleared s) ∧
    (IOManager.init fun _ _ => some 1 : IOManager Unit Unit).addEvent (fun _ _ => some 1) 3 .read
      ⟨some 0, (), true, none⟩ true = .error .contextInUse := by
  constructor
  · intro h
    cases h (fun _ _ => some 1) [] _ .nil 3 _ rfl .read rfl
  · rfl

end ServerFrame.Events
