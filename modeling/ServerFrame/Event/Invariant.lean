/-
The bookkeeping invariant of the event side: the table holds exactly the contexts `0, 1, …` in order,
`m_pendingEventCount` is the total number of event bits set in all contexts, and the kernel's
interest in a descriptor is its event mask, absent when the mask is empty. Every locked section is
one of three things: nothing, a failed `epoll_ctl` that changes nothing, or a `commit` of one context.
-/
import ServerFrame.Event.Basic
import ServerFrame.Lib.Run
import Mathlib.Tactic

namespace ServerFrame.Events

universe u v

variable {F : Type u} {C : Type v}

/-! ## Masks -/

namespace Mask

/-- Every bit of `a` is a bit of `b`. -/
def Sub (a b : Mask) : Prop := ∀ e, a.has e = true → b.has e = true

instance (a b : Mask) : Decidable (a.Sub b) :=
  decidable_of_iff ((a.read = true → b.read = true) ∧ (a.write = true → b.write = true))
    ⟨fun h e => by cases e; exacts [h.1, h.2], fun h => ⟨h .read, h .write⟩⟩

theorem has_single (e e' : Event) : (single e).has e' = decide (e' = e) := by cases e <;> cases e' <;> rfl

@[simp] theorem has_or (a b : Mask) (e : Event) : (a.or b).has e = (a.has e || b.has e) := by cases e <;> rfl
@[simp] theorem has_diff (a b : Mask) (e : Event) : (a.diff b).has e = (a.has e && !b.has e) := by cases e <;> rfl
@[simp] theorem has_and (a b : Mask) (e : Event) : (a.and b).has e = (a.has e && b.has e) := by cases e <;> rfl
@[simp] theorem has_none (e : Event) : Mask.none.has e = false := by cases e <;> rfl

theorem ext_has {a b : Mask} (h : ∀ e, a.has e = b.has e) : a = b := by
  obtain ⟨r, w⟩ := a
  obtain ⟨r', w'⟩ := b
  have h1 := h .read
  have h2 := h .write
  simp only [has] at h1 h2
  rw [h1, h2]

theorem ne_none_of_has {a : Mask} {e : Event} (h : a.has e = true) : a ≠ Mask.none := by
  rintro rfl; simp at h

theorem or_single_ne_none (a : Mask) (e : Event) : a.or (single e) ≠ Mask.none :=
  ne_none_of_has (e := e) (by simp [has_single])

theorem count_or_single {a : Mask} {e : Event} (h : a.has e = false) : (a.or (single e)).count = a.count + 1 := by
  obtain ⟨r, w⟩ := a
  cases e <;> cases r <;> cases w <;> simp_all [has, or, single, count]

theorem count_diff {a b : Mask} (h : b.Sub a) : (a.diff b).count + b.count = a.count := by
  obtain ⟨r, w⟩ := a
  obtain ⟨r', w'⟩ := b
  have h1 := h .read
  have h2 := h .write
  cases r <;> cases w <;> cases r' <;> cases w' <;> simp_all [has, diff, count]

theorem count_single (e : Event) : (single e).count = 1 := by cases e <;> rfl

theorem single_sub {a : Mask} {e : Event} (h : a.has e = true) : (single e).Sub a := fun e' he => by
  rw [has_single, decide_eq_true_eq] at he; rw [he]; exact h

theorem sub_refl (a : Mask) : a.Sub a := fun _ h => h

theorem diff_self (a : Mask) : a.diff a = Mask.none := ext_has fun e => by simp

end Mask

/-! ## Contexts -/

@[simp] theorem setContext_events (c : FdContext F C) (ctx : EventContext F C) (e : Event) :
    (c.setContext ctx e).events = c.events := by cases e <;> rfl

@[simp] theorem setContext_fd (c : FdContext F C) (ctx : EventContext F C) (e : Event) :
    (c.setContext ctx e).fd = c.fd := by cases e <;> rfl

theorem getContext_setContext (c : FdContext F C) (ctx : EventContext F C) (e e' : Event) :
    (c.setContext ctx e).getContext e' = if e' = e then ctx else c.getContext e' := by
  cases e <;> cases e' <;> rfl

@[simp] theorem getContext_events (c : FdContext F C) (m : Mask) (e : Event) :
    ({ c with events := m } : FdContext F C).getContext e = c.getContext e := by cases e <;> rfl

/-- The registrations a context holds for an event, as entries of the history. -/
def entriesOf (fate : Fate) (c : FdContext F C) (e : Event) : List (Entry F C) :=
  (FdContext.regOf (c.getContext e)).toList.map fun r => ⟨fate, c.fd, e, r⟩

theorem entriesOf_event {f : Fate} {c : FdContext F C} {e : Event} {x : Entry F C} (hx : x ∈ entriesOf f c e) :
    x.event = e ∧ x.fd = c.fd := by
  obtain ⟨r, -, rfl⟩ := List.mem_map.1 hx
  exact ⟨rfl, rfl⟩

theorem filter_entriesOf (fate : Fate) (c : FdContext F C) (e e' : Event) :
    (entriesOf fate c e).filter (fun x => decide (x.event = e')) = if e' = e then entriesOf fate c e else [] := by
  split
  · rename_i h
    exact List.filter_eq_self.2 fun x hx => by simp [(entriesOf_event hx).1, h]
  · rename_i h
    exact List.filter_eq_nil_iff.2 fun x hx => by simp [(entriesOf_event hx).1, Ne.symm h]

/-- The events of the mask `m` were triggered: each was set, exactly these are cleared, their
contexts are emptied and what they held is handed over, once each. -/
structure Triggered (c : FdContext F C) (m : Mask) (c' : FdContext F C) (l : List (Entry F C)) : Prop where
  sub : m.Sub c.events
  events : c'.events = c.events.diff m
  fd : c'.fd = c.fd
  kept : ∀ e, m.has e = false → c'.getContext e = c.getContext e
  emptied : ∀ e, m.has e = true →
    c'.getContext e = ⟨none, if (c.getContext e).cb.isSome then (c.getContext e).fiber else none, none⟩
  log : ∀ e, l.filter (fun x => decide (x.event = e)) = if m.has e then entriesOf .handed c e else []
  logFd : ∀ x ∈ l, x.fd = c.fd

theorem Triggered.nothing (c : FdContext F C) : Triggered c Mask.none c [] :=
  ⟨fun e h => by simp at h, Mask.ext_has fun e => by simp, rfl, fun _ _ => rfl, fun e h => by simp at h,
    fun e => by simp, by simp⟩

theorem Triggered.trans {c c' c'' : FdContext F C} {m m' : Mask} {l l' : List (Entry F C)} (h : Triggered c m c' l)
    (h' : Triggered c' m' c'' l') : Triggered c (m.or m') c'' (l ++ l') := by
  -- the second mask is within what the first left, so the two are disjoint
  have hdis : ∀ e, m'.has e = true → m.has e = false ∧ c.events.has e = true := fun e he => by
    have := h'.sub e he
    rw [h.events, Mask.has_diff] at this
    simpa [and_comm] using this
  refine ⟨fun e he => ?_, ?_, h'.fd.trans h.fd, fun e he => ?_, fun e he => ?_, fun e => ?_, fun x hx => ?_⟩
  · rw [Mask.has_or, Bool.or_eq_true] at he
    exact he.elim (h.sub e) fun he => (hdis e he).2
  · rw [h'.events, h.events]
    exact Mask.ext_has fun e => by simp [Bool.and_assoc]
  · rw [Mask.has_or, Bool.or_eq_false_iff] at he
    rw [h'.kept e he.2, h.kept e he.1]
  · rw [Mask.has_or, Bool.or_eq_true] at he
    rcases he with he | he
    · have : m'.has e = false := by
        cases hm : m'.has e
        · rfl
        · rw [(hdis e hm).1] at he; cases he
      rw [h'.kept e this, h.emptied e he]
    · rw [h'.emptied e he, h.kept e (hdis e he).1]
  · rw [List.filter_append, h.log, h'.log]
    cases hm' : m'.has e with
    | false => simp [hm']
    | true =>
      have hk := h.kept e (hdis e hm').1
      simp [hm', (hdis e hm').1, entriesOf, hk, h.fd]
  · rcases List.mem_append.1 hx with hx | hx
    · exact h.logFd x hx
    · rw [h'.logFd x hx, h.fd]

/-- A trigger that does not abort. -/
theorem triggerEvent_ok {c c' : FdContext F C} {e : Event} {l : List (Entry F C)} (h : c.triggerEvent e = .ok (c', l)) :
    Triggered c (.single e) c' l := by
  unfold FdContext.triggerEvent at h
  split at h
  · cases h
  · rename_i hb
    have hb : c.events.has e = true := by simpa using hb
    simp only at h
    split at h
    · cases h
    · cases h
      refine ⟨Mask.single_sub hb, by simp, by simp, fun e' he => ?_, fun e' he => ?_, fun e' => ?_,
        fun x hx => (entriesOf_event (f := .handed) (e := e) hx).2⟩
      · rw [Mask.has_single, decide_eq_false_iff_not] at he
        rw [getContext_setContext, if_neg he, getContext_events]
      · rw [Mask.has_single, decide_eq_true_eq] at he
        subst he
        rw [getContext_setContext, if_pos rfl]
        -- the callback goes first, and a fiber beside it would stay behind
        split
        · rfl
        · rename_i hcb
          rw [Option.not_isSome_iff_eq_none] at hcb
          simp [hcb]
      · refine (filter_entriesOf .handed c e e').trans ?_
        rw [Mask.has_single]
        by_cases he : e' = e
        · subst he; simp
        · simp [he]

theorem triggerIf_ok {c c' : FdContext F C} {b : Bool} {e : Event} {n : Int} {l : List (Entry F C)}
    (h : c.triggerIf b e = .ok (c', n, l)) : Triggered c (if b then .single e else Mask.none) c' l ∧ n = b.toNat := by
  unfold FdContext.triggerIf at h
  cases b with
  | false => cases h; exact ⟨Triggered.nothing c, rfl⟩
  | true =>
    simp only [if_true] at h
    split at h
    · cases h
    · rename_i c1 l1 ht
      cases h
      exact ⟨triggerEvent_ok ht, rfl⟩

/-- The two conditional triggers of a mask, when neither aborts. -/
theorem triggerBoth_ok {c c' : FdContext F C} {m : Mask} {n : Int} {l : List (Entry F C)}
    (h : c.triggerBoth m = .ok (c', n, l)) : Triggered c m c' l ∧ n = m.count := by
  unfold FdContext.triggerBoth at h
  split at h
  · cases h
  · rename_i c1 n1 l1 h1
    split at h
    · cases h
    · rename_i c2 n2 l2 h2
      cases h
      obtain ⟨t1, rfl⟩ := triggerIf_ok h1
      obtain ⟨t2, rfl⟩ := triggerIf_ok h2
      have ht := t1.trans t2
      have hm : (if m.read then Mask.single .read else Mask.none).or
          (if m.write then Mask.single .write else Mask.none) = m := by
        obtain ⟨r, w⟩ := m
        cases r <;> cases w <;> rfl
      rw [hm] at ht
      exact ⟨ht, by simp [Mask.count]⟩

/-! ## The invariant -/

/-- The kernel interest a context should have. -/
def interestOf (c : FdContext F C) (p : Nat) : Option (Mask × Nat) :=
  if c.events = Mask.none then none else some (c.events, p)

/-- The total number of event bits set. -/
def bits (heap : List (FdContext F C)) : Int := (heap.map fun c => (c.events.count : Int)).sum

/-- The bookkeeping invariant. -/
structure Inv (s : IOManager F C) : Prop where
  table : s.fdContexts = List.range s.heap.length
  size : 32 ≤ s.heap.length
  fds : ∀ (p : Nat) (c : FdContext F C), s.heap[p]? = some c → c.fd = p
  pending : s.pending = bits s.heap
  interest : ∀ fd, s.interest fd = s.heap[fd]?.bind fun c => interestOf c fd

/-- The context `c` at `p` becomes `c'`, with the kernel's interest and the counter to match. -/
def commit (s : IOManager F C) (p : Nat) (c c' : FdContext F C) : IOManager F C :=
  { s with
    heap := s.heap.set p c'
    interest := Function.update s.interest p (interestOf c' p)
    pending := s.pending + c'.events.count - c.events.count }

theorem bits_set {p : Nat} {c c' : FdContext F C} : ∀ {heap : List (FdContext F C)}, heap[p]? = some c →
    bits (heap.set p c') = bits heap + c'.events.count - c.events.count := by
  induction p with
  | zero =>
    intro heap h
    cases heap with
    | nil => cases h
    | cons x xs => cases h; simp [bits]; ring
  | succ p ih =>
    intro heap h
    cases heap with
    | nil => cases h
    | cons x xs =>
      have := ih (by simpa using h : xs[p]? = some c)
      simp only [bits, List.set_cons_succ, List.map_cons, List.sum_cons] at this ⊢
      rw [this]; ring

theorem commit_inv {s : IOManager F C} (hi : Inv s) {p : Nat} {c c' : FdContext F C} (hc : s.heap[p]? = some c)
    (hfd : c'.fd = c.fd) : Inv (commit s p c c') := by
  have hlt := (List.getElem?_eq_some_iff.1 hc).1
  have hget : ∀ k, (s.heap.set p c')[k]? = if k = p then some c' else s.heap[k]? := fun k => by
    rw [List.getElem?_set]
    by_cases hk : p = k
    · subst hk; simp [hlt]
    · simp [hk, Ne.symm hk]
  refine ⟨by simp [commit, hi.table], by simpa [commit] using hi.size, fun k d hd => ?_, ?_, fun fd => ?_⟩
  · simp only [commit, hget] at hd
    split at hd
    · rename_i hk
      cases hd
      rw [hfd, hi.fds p c hc, hk]
    · exact hi.fds k d hd
  · simp only [commit, bits_set hc, hi.pending]
  · simp only [commit, hget]
    by_cases hk : fd = p
    · subst hk; simp
    · rw [Function.update_of_ne hk, if_neg hk, hi.interest]

theorem contextResize_grow (memory : Nat → Event → Option Nat) {s : IOManager F C}
    (ht : s.fdContexts = List.range s.heap.length) {n : Nat} (hn : s.heap.length ≤ n) :
    s.contextResize memory n = { s with
      heap := s.heap ++ (List.range (n - s.heap.length)).map fun i =>
        FdContext.new (s.heap.length + i) (memory (s.heap.length + i))
      fdContexts := List.range n } := by
  have hlen : s.fdContexts.length = s.heap.length := by rw [ht, List.length_range]
  have hk : s.fdContexts.take n = s.fdContexts := List.take_of_length_le (by omega)
  have hr : s.fdContexts ++ (List.range (n - s.heap.length)).map (s.heap.length + ·) = List.range n := by
    rw [ht, ← List.range_add]
    congr 1; omega
  unfold IOManager.contextResize
  simp only [hk, hlen, hr]

end ServerFrame.Events
