/-
The growth of `m_fdContexts` under concurrent `addEvent` calls. A call tests the size of the table
under the read lock, releases it, and grows the table under the write lock to one and a half times
its own descriptor without testing the size again; another call may have grown the table further in
between, and `resize` then cuts slots off.
-/
import ServerFrame.Event.Step

namespace ServerFrame.Events

universe u v

variable {F : Type u} {C : Type v}

/-! ## Calls of `addEvent` in progress -/

/-- Where a call of `addEvent` is: between the two locks, holding the pointer of its slot, or done. -/
inductive Phase
  | gap
  | slot (p : Nat)
  | returned
  deriving DecidableEq, Repr

structure Call (F : Type u) (C : Type v) where
  fd : Nat
  event : Event
  caller : Caller F C
  phase : Phase

/-- The event side with the calls of `addEvent` made so far. -/
structure Table (F : Type u) (C : Type v) where
  io : IOManager F C
  calls : List (Call F C)

/-- A critical section of some call: the read-locked size test, the write-locked resize, and the
registration under the context's mutex, with the outcome of its `epoll_ctl`. -/
inductive Section (F : Type u) (C : Type v)
  | test (fd : Nat) (e : Event) (caller : Caller F C)
  | resize (i : Nat)
  | register (i : Nat) (ok : Bool)

namespace Table

variable (memory : Nat → Event → Option Nat)

def init : Table F C := ⟨.init memory, []⟩

variable (t : Table F C)

/-- One critical section; `none` when no call is there, or when an assertion ends the process. -/
def next : Section F C → Option (Table F C)
  | .test fd e caller =>
    let phase := match t.io.fdContexts[fd]? with
      | some p => Phase.slot p
      | none => Phase.gap
    some { t with calls := t.calls ++ [⟨fd, e, caller, phase⟩] }
  | .resize i =>
    match t.calls[i]? with
    | some ⟨fd, e, caller, .gap⟩ =>
      let io := t.io.contextResize memory (fd * 3 / 2)
      match io.fdContexts[fd]? with
      | some p => some ⟨io, t.calls.set i ⟨fd, e, caller, .slot p⟩⟩
      | none => none
    | _ => none
  | .register i ok =>
    match t.calls[i]? with
    | some ⟨fd, e, caller, .slot p⟩ =>
      match t.io.addEventLocked p fd e caller ok with
      | .ok r => some ⟨r.state, t.calls.set i ⟨fd, e, caller, .returned⟩⟩
      | .error _ => none
    | _ => none

def Step (a : Section F C) (t' : Table F C) : Prop := t.next memory a = some t'

/-- The resize of a call leaves every slot in place: the table is not longer than the call's target. -/
def Fits : Section F C → Prop
  | .test _ _ _ | .register _ _ => True
  | .resize i => ∀ call, t.calls[i]? = some call → t.io.fdContexts.length ≤ call.fd * 3 / 2

end Table

/-! ## Stability -/

/-- A context later on: the same descriptor, and every registered event still registered with the
same scheduler and task. -/
structure Persists (c c' : FdContext F C) : Prop where
  fd : c'.fd = c.fd
  events : c.events.Sub c'.events
  contexts : ∀ e, c.events.has e = true → c'.getContext e = c.getContext e

/-- The table later on: no slot is lost, every slot has the same context, and contexts persist. -/
structure Stable (s s' : IOManager F C) : Prop where
  slots : s.fdContexts <+: s'.fdContexts
  contexts : ∀ (p : Nat) (c : FdContext F C), s.heap[p]? = some c → ∃ c', s'.heap[p]? = some c' ∧ Persists c c'

theorem Persists.refl (c : FdContext F C) : Persists c c := ⟨rfl, Mask.sub_refl _, fun _ _ => rfl⟩

theorem Persists.trans {c c' c'' : FdContext F C} (h : Persists c c') (h' : Persists c' c'') : Persists c c'' :=
  ⟨h'.fd.trans h.fd, fun e he => h'.events e (h.events e he), fun e he => by
    rw [h'.contexts e (h.events e he), h.contexts e he]⟩

theorem Stable.refl (s : IOManager F C) : Stable s s := ⟨List.prefix_refl _, fun _ c hc => ⟨c, hc, .refl c⟩⟩

theorem Stable.trans {s s' s'' : IOManager F C} (h : Stable s s') (h' : Stable s' s'') : Stable s s'' := by
  refine ⟨h.slots.trans h'.slots, fun p c hc => ?_⟩
  obtain ⟨c', hc', hp⟩ := h.contexts p c hc
  obtain ⟨c'', hc'', hp'⟩ := h'.contexts p c' hc'
  exact ⟨c'', hc'', hp.trans hp'⟩

theorem contextResize_length (memory : Nat → Event → Option Nat) (s : IOManager F C) (n : Nat) :
    (s.contextResize memory n).fdContexts.length = n := by
  simp [IOManager.contextResize]

/-- A resize is stable exactly when it does not cut slots off. -/
theorem contextResize_stable (memory : Nat → Event → Option Nat) (s : IOManager F C) (n : Nat) :
    Stable s (s.contextResize memory n) ↔ s.fdContexts.length ≤ n := by
  constructor
  · intro h
    have := h.slots.length_le
    rwa [contextResize_length] at this
  · intro h
    refine ⟨?_, fun p c hc => ⟨c, ?_, .refl c⟩⟩
    · simp only [IOManager.contextResize, List.take_of_length_le h]
      exact List.prefix_append _ _
    · simp only [IOManager.contextResize]
      rw [List.getElem?_append_left (List.getElem?_eq_some_iff.1 hc).1]
      exact hc

theorem addEventLocked_stable {s : IOManager F C} {p fd : Nat} {e : Event} {caller : Caller F C} {ok : Bool}
    {r : Result F C} (h : s.addEventLocked p fd e caller ok = .ok r) : Stable s r.state := by
  -- the context at `p` gains the bit of `e`, which was clear, and a new `e`-context
  have gain : ∀ {c : FdContext F C} {ctx : EventContext F C}, s.heap[p]? = some c → c.events.has e = false →
      ∀ (q : Nat) (d : FdContext F C), s.heap[q]? = some d → ∃ d', (s.heap.set p
        ({ c with events := c.events.or (.single e) }.setContext ctx e))[q]? = some d' ∧ Persists d d' := by
    intro c ctx hc hb q d hd
    rw [List.getElem?_set]
    by_cases hq : p = q
    · subst hq
      rw [hc] at hd
      cases hd
      rw [if_pos rfl, if_pos (List.getElem?_eq_some_iff.1 hc).1]
      refine ⟨_, rfl, by simp, fun e' he' => by simp [he'], fun e' he' => ?_⟩
      have hne : e' ≠ e := by
        rintro rfl
        rw [hb] at he'
        cases he'
      rw [getContext_setContext, if_neg hne, getContext_events]
    · rw [if_neg hq]
      exact ⟨d, hd, .refl d⟩
  unfold IOManager.addEventLocked at h
  split at h
  · cases h
  · rename_i c hc
    split at h
    · cases h
    · rename_i hb
      have hb : c.events.has e = false := by simpa using hb
      simp only at h
      split at h
      · cases h; exact .refl s
      · split at h
        · cases h
        · split at h
          · cases h
            exact ⟨List.prefix_refl _, gain hc hb⟩
          · split at h
            · cases h
              exact ⟨List.prefix_refl _, gain hc hb⟩
            · cases h

/-- A critical section keeps the table stable exactly when its resize fits. -/
theorem section_stable {memory : Nat → Event → Option Nat} {t t' : Table F C} {a : Section F C}
    (h : t.Step memory a t') : Stable t.io t'.io ↔ t.Fits a := by
  cases a with
  | test fd e caller =>
    cases h
    exact ⟨fun _ => trivial, fun _ => .refl _⟩
  | resize i =>
    simp only [Table.Step, Table.next] at h
    split at h
    · rename_i fd e caller hcall
      split at h
      · cases h
        rw [contextResize_stable]
        exact ⟨fun h call hc => by rw [hcall] at hc; cases hc; exact h, fun h => h _ hcall⟩
      · cases h
    · cases h
  | register i ok =>
    simp only [Table.Step, Table.next] at h
    split at h
    · split at h
      · rename_i r hr
        cases h
        exact ⟨fun _ => trivial, fun _ => addEventLocked_stable hr⟩
      · cases h
    · cases h

/-! ## Runs -/

theorem run_stable {memory : Nat → Event → Option Nat} {t t' : Table F C} {l : List (Section F C)}
    (h : Lts.Run (Table.Step memory) t l t')
    (hf : ∀ l1 a l2 u, l = l1 ++ a :: l2 → Lts.Run (Table.Step memory) t l1 u → u.Fits a) : Stable t.io t'.io := by
  induction h with
  | nil => exact .refl _
  | @snoc l u v a hr hs ih =>
    have hu : Stable t.io u.io := ih fun l1 b l2 w hl hw => hf l1 b (l2 ++ [a]) w (by rw [hl]; simp) hw
    exact hu.trans ((section_stable hs).2 (hf l a [] u rfl hr))

theorem step_unique {memory : Nat → Event → Option Nat} (t : Table F C) (a : Section F C) (u u' : Table F C)
    (h : t.Step memory a u) (h' : t.Step memory a u') : u = u' := by
  unfold Table.Step at h h'
  rw [h] at h'
  exact Option.some.inj h'

/-- The stability of the table. In every interleaving of the critical sections of `addEvent` calls on
any descriptors, from a fresh `IOManager`: between every two points the table keeps all its slots,
each with the same context and its registered events, if and only if every write-locked resize is
made while the table has at most one and a half times the resizing call's descriptor slots. -/
theorem contexts_stable {memory : Nat → Event → Option Nat} {t : Table F C} {l : List (Section F C)}
    (h : Lts.Run (Table.Step memory) (Table.init memory) l t) :
    (∀ l1 l2 l3 t1 t2, l = l1 ++ l2 ++ l3 → Lts.Run (Table.Step memory) (Table.init memory) l1 t1 →
      Lts.Run (Table.Step memory) t1 l2 t2 → Stable t1.io t2.io) ↔
    ∀ l1 a l2 t1, l = l1 ++ a :: l2 → Lts.Run (Table.Step memory) (Table.init memory) l1 t1 → t1.Fits a := by
  constructor
  · rintro hst l1 a l2 t1 rfl h1
    obtain ⟨u, u', hu, hs, -⟩ := h.split_step
    have := hu.unique step_unique h1
    subst this
    exact (section_stable hs).1 (hst l1 [a] l2 u u' (by simp) h1 (.single hs))
  · rintro hf l1 l2 l3 t1 t2 rfl h1 h2
    refine run_stable h2 ?_
    rintro m1 a m2 u rfl hu
    exact hf (l1 ++ m1) a (m2 ++ l3) u (by simp) (h1.append hu)

/-- Two calls on descriptors 32 and 100 find the fresh table of 32 slots too short; the second grows
it to 150 slots and registers, and the first then resizes it to 48. -/
def lateResize : List (Section Unit Unit) :=
  [.test 32 .read ⟨some 0, (), true, none⟩, .test 100 .read ⟨some 0, (), true, none⟩, .resize 1, .register 1 true]

theorem lateResize_run : ∃ t t', Lts.Run (Table.Step fun _ _ => none) (Table.init fun _ _ => none) lateResize t ∧
    t.Step (fun _ _ => none) (.resize 0) t' ∧ t.io.fdContexts.length = 150 ∧ t'.io.fdContexts.length = 48 := by
  have h : ∃ t1 t2 t3 t4 t5 : Table Unit Unit,
      (Table.init fun _ _ => none).Step (fun _ _ => none) (.test 32 .read ⟨some 0, (), true, none⟩) t1 ∧
      t1.Step (fun _ _ => none) (.test 100 .read ⟨some 0, (), true, none⟩) t2 ∧
      t2.Step (fun _ _ => none) (.resize 1) t3 ∧ t3.Step (fun _ _ => none) (.register 1 true) t4 ∧
      t4.Step (fun _ _ => none) (.resize 0) t5 ∧ t4.io.fdContexts.length = 150 ∧ t5.io.fdContexts.length = 48 :=
    ⟨_, _, _, _, _, rfl, rfl, rfl, rfl, rfl, rfl, rfl⟩
  obtain ⟨t1, t2, t3, t4, t5, h1, h2, h3, h4, h5, hl⟩ := h
  exact ⟨t4, t5, .cons h1 (.cons h2 (.cons h3 (.single h4))), h5, hl⟩

/-- A late resize cuts off slots, one of them with a registered event. -/
theorem late_resize_shrinks : ¬ ∀ (l1 l2 : List (Section Unit Unit)) (t1 t2 : Table Unit Unit),
    Lts.Run (Table.Step fun _ _ => none) (Table.init fun _ _ => none) l1 t1 →
    Lts.Run (Table.Step fun _ _ => none) t1 l2 t2 → Stable t1.io t2.io := by
  intro h
  obtain ⟨t, t', hr, hs, hl, hl'⟩ := lateResize_run
  have := (h _ _ t t' hr (.single hs)).slots.length_le
  omega

/-- The late resize above does not fit: the table has 150 slots then. -/
theorem contexts_stable_before : ∃ t t' : Table Unit Unit,
    Lts.Run (Table.Step fun _ _ => none) (Table.init fun _ _ => none) (lateResize ++ [.resize 0]) t' ∧
    t.io.fdContexts.length = 150 ∧
    ¬ ∀ l1 a l2 t1, lateResize ++ [.resize 0] = l1 ++ a :: l2 →
      Lts.Run (Table.Step fun _ _ => none) (Table.init fun _ _ => none) l1 t1 → t1.Fits a := by
  obtain ⟨t, t', hr, hs, hl, hl'⟩ := lateResize_run
  refine ⟨t, t', hr.snoc hs, hl, fun hf => ?_⟩
  have := ((contexts_stable (hr.snoc hs)).2 hf _ _ [] t t' (by simp) hr (.single hs)).slots.length_le
  omega

end ServerFrame.Events
