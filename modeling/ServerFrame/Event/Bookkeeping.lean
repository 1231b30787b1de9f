/-
The bookkeeping of the event side over whole runs: the pending counter, the kernel's interest, the
validity of every `epoll_ctl` the code chooses and the harmlessness of one that fails.
-/
import ServerFrame.Event.Step

namespace ServerFrame.Events

universe u v

variable {F : Type u} {C : Type v}

/-- The context `m_fdContexts[fd]` points to. -/
def contextAt (s : IOManager F C) (fd : Nat) : Option (FdContext F C) := s.fdContexts[fd]?.bind fun p => s.heap[p]?

theorem contextAt_eq {s : IOManager F C} (hi : Inv s) (fd : Nat) : contextAt s fd = s.heap[fd]? := by
  unfold contextAt
  rw [hi.table]
  rcases Nat.lt_or_ge fd s.heap.length with hlt | hge
  · rw [List.getElem?_range hlt]; rfl
  · rw [List.getElem?_eq_none (by simpa using hge), List.getElem?_eq_none hge]; rfl

/-- The interest a descriptor should have: `EPOLLET | events` of its context, absent when that is 0. -/
def expectedInterest (s : IOManager F C) (fd : Nat) : Option Mask :=
  (contextAt s fd).bind fun c => if c.events = Mask.none then none else some c.events

theorem interest_eq {s : IOManager F C} (hi : Inv s) (fd : Nat) :
    (s.interest fd).map Prod.fst = expectedInterest s fd := by
  unfold expectedInterest
  rw [contextAt_eq hi, hi.interest]
  cases s.heap[fd]? with
  | none => rfl
  | some c =>
    simp only [Option.bind_some, interestOf]
    split <;> rfl

theorem interest_none_iff {s : IOManager F C} (hi : Inv s) {fd : Nat} {c : FdContext F C} (hc : s.heap[fd]? = some c) :
    s.interest fd = none ↔ c.events = Mask.none := by
  rw [hi.interest, hc, Option.bind_some, interestOf]
  split <;> simp_all

/-- A failed `epoll_ctl` leaves the counter, the kernel's interest and every context as they were; at
most the table has grown by contexts without events and without tasks. -/
structure Unchanged (s s' : IOManager F C) : Prop where
  pending : s'.pending = s.pending
  interest : s'.interest = s.interest
  heap : ∃ new, s'.heap = s.heap ++ new ∧ ∀ c ∈ new, c.events = Mask.none ∧
    ∀ e, (c.getContext e).fiber = none ∧ (c.getContext e).cb = none

theorem Grown.unchanged {s s' : IOManager F C} (h : Grown s s') : Unchanged s s' := ⟨h.pending, h.interest, h.heap⟩

/-- In every run of `addEvent`, `delEvent`, `cancelEvent`, `cancelAll` and report handling in which
nothing aborts, with `epoll_ctl` succeeding or failing at will: the pending counter is the number of
event bits set in all contexts; the interest of every descriptor is its event mask, absent when that
is empty; and every further operation chooses an `epoll_ctl` that is valid there (`ADD` exactly
without interest) and, when that fails, changes nothing. -/
theorem bookkeeping {memory : Nat → Event → Option Nat} {s : IOManager F C} {l : List (Op F C × Result F C)}
    (h : Lts.Run (Step memory) (IOManager.init memory) l s) :
    s.pending = bits s.heap ∧
    (∀ fd, (s.interest fd).map Prod.fst = expectedInterest s fd) ∧
    ∀ op r, exec memory s op = .ok r → ∀ o fd ok, r.ctl = some (o, fd, ok) →
      (o = .add ↔ s.interest fd = none) ∧ (ok = false → Unchanged s r.state) := by
  have hi := run_inv h
  refine ⟨hi.pending, interest_eq hi, fun op r he o fd ok hctl => ?_⟩
  obtain ⟨s', hg, sch, ho⟩ := exec_some_outcome hi he
  rw [← hg.interest]
  cases ho with
  | refused => cases hctl
  | failed hc hv =>
    cases hctl
    exact ⟨hv.trans (interest_none_iff hg.inv hc).symm, fun _ => hg.unchanged⟩
  | committed hc hv _ =>
    cases hctl
    exact ⟨hv.trans (interest_none_iff hg.inv hc).symm, fun h => by cases h⟩

/-- One fiber waits for descriptor 3 to become readable. -/
theorem bookkeeping_waiting : ∃ (s : IOManager Unit Unit) (l : List (Op Unit Unit × Result Unit Unit)),
    Lts.Run (Step fun _ _ => none) (IOManager.init fun _ _ => none) l s ∧ s.pending = 1 ∧ s.pending = bits s.heap := by
  have h : ∃ r, exec (fun _ _ => none) (IOManager.init fun _ _ => none)
      (.addEvent 3 .read ⟨some 0, (), true, none⟩ true : Op Unit Unit) = .ok r ∧ r.state.pending = 1 := ⟨_, rfl, rfl⟩
  obtain ⟨r, he, hp⟩ := h
  have hr : Lts.Run (Step fun _ _ => none) (IOManager.init fun _ _ => none) [(_, r)] r.state := .single ⟨he, rfl⟩
  exact ⟨_, _, hr, hp, (bookkeeping hr).1⟩

end ServerFrame.Events
