/-
Readiness reports as snapshots: `epoll_wait` returns a report under the interest of that moment, and
the thread that holds it takes the context's mutex later, after any number of other operations. The
handling filters on a non-empty intersection of the reported and the registered events and then
triggers every reported one, so a report of which a part is stale meets the assertion of
`triggerEvent`.
-/
import ServerFrame.Event.Bookkeeping

namespace ServerFrame.Events

universe u v

variable {F : Type u} {C : Type v}

/-! ## Reports in flight -/

/-- The event side with the reports that threads hold and have not handled: the context pointer the
kernel gave back and the readiness bits. -/
structure Watch (F : Type u) (C : Type v) where
  io : IOManager F C
  flight : List (Nat × Report)

/-- A step of some thread: an operation, `epoll_wait` returning a report for a descriptor, or the
handling of a held report, with the outcome of its `epoll_ctl`. -/
inductive Act (F : Type u) (C : Type v)
  | op (o : Op F C)
  | wait (fd : Nat) (r : Report)
  | handle (i : Nat) (ok : Bool)

/-- What `epoll_wait` may report under an interest; errors and hang-ups need none. -/
def Report.AllowedBy (r : Report) (m : Mask) : Prop := (r.epollin → m.read) ∧ (r.epollout → m.write)

namespace Watch

variable (memory : Nat → Event → Option Nat)

def init : Watch F C := ⟨.init memory, []⟩

variable (w : Watch F C)

/-- The steps a thread can take. -/
def Enabled : Act F C → Prop
  | .op o => ∀ p r ok, o ≠ .report p r ok
  | .wait fd r => ∃ m p, w.io.interest fd = some (m, p) ∧ r.AllowedBy m
  | .handle i _ => i < w.flight.length

def perform : Act F C → Except Abort (Watch F C)
  | .op o =>
    match exec memory w.io o with
    | .error a => .error a
    | .ok r => .ok { w with io := r.state }
  | .wait fd r =>
    match w.io.interest fd with
    | none => .ok w
    | some (_, p) => .ok { w with flight := w.flight ++ [(p, r)] }
  | .handle i ok =>
    match w.flight[i]? with
    | none => .ok w
    | some (p, rep) =>
      match exec memory w.io (.report p rep ok) with
      | .error a => .error a
      | .ok r => .ok ⟨r.state, w.flight.eraseIdx i⟩

/-- A step in which nothing aborts. -/
def Step (a : Act F C) (w' : Watch F C) : Prop := w.Enabled a ∧ w.perform memory a = .ok w'

/-- A report is handled while the events it stands for are all registered, or none of them is, or its
`epoll_ctl` fails. -/
def Covered : Act F C → Prop
  | .op _ | .wait _ _ => True
  | .handle i ok => ∀ p r c, w.flight[i]? = some (p, r) → w.io.heap[p]? = some c → ok = true →
      c.events.and (IOManager.realEvents r c.events) = Mask.none ∨ (IOManager.realEvents r c.events).Sub c.events

end Watch

/-! ## Which triggers assert -/

theorem triggerBoth_registered {c : FdContext F C} {m : Mask} (hm : m.Sub c.events) (e : Event) :
    c.triggerBoth m ≠ .error (.triggerEvent e) := by
  intro h
  obtain ⟨e', he', ⟨hb, -⟩ | ⟨-, -, ha⟩⟩ := triggerBoth_error h
  · rw [hm e' he'] at hb
    cases hb
  · cases ha

theorem triggerBoth_unregistered {c : FdContext F C} {m : Mask} (hm : ¬ m.Sub c.events) :
    ∃ a, c.triggerBoth m = .error a ∧ a.InTrigger := by
  cases h : c.triggerBoth m with
  | ok r =>
    obtain ⟨c', n, l⟩ := r
    exact absurd (triggerBoth_ok h).1.sub hm
  | error a =>
    obtain ⟨e, -, ⟨-, ha⟩ | ⟨-, -, ha⟩⟩ := triggerBoth_error h
    · exact ⟨a, rfl, .inr ⟨e, ha⟩⟩
    · exact ⟨a, rfl, .inl ha⟩

/-- The operations other than the handling of a report trigger registered events only. -/
theorem exec_registered {memory : Nat → Event → Option Nat} {s : IOManager F C} {o : Op F C}
    (ho : ∀ p r ok, o ≠ .report p r ok) (e : Event) : exec memory s o ≠ .error (.triggerEvent e) := by
  intro h
  obtain ⟨p, c, m, -, ht, hm | ⟨r, hop, -⟩⟩ := exec_error h (.inr ⟨e, rfl⟩)
  · exact triggerBoth_registered hm e ht
  · exact ho p r true hop

/-! ## Runs -/

theorem watch_step_inv {memory : Nat → Event → Option Nat} {w w' : Watch F C} {a : Act F C} (hi : Inv w.io)
    (h : w.Step memory a w') : Inv w'.io := by
  obtain ⟨-, h⟩ := h
  cases a with
  | op o =>
    simp only [Watch.perform] at h
    split at h
    · cases h
    · rename_i r he
      cases h
      exact step_inv (a := (o, r)) hi ⟨he, rfl⟩
  | wait fd r =>
    simp only [Watch.perform] at h
    split at h <;> (cases h; exact hi)
  | handle i ok =>
    simp only [Watch.perform] at h
    split at h
    · cases h; exact hi
    · rename_i p rep _
      split at h
      · cases h
      · rename_i r he
        cases h
        exact step_inv (a := (.report p rep ok, r)) hi ⟨he, rfl⟩

theorem watch_run_inv {memory : Nat → Event → Option Nat} {w : Watch F C} {l : List (Act F C)}
    (h : Lts.Run (Watch.Step memory) (Watch.init memory) l w) : Inv w.io :=
  h.invariant (P := fun w => Inv w.io) (init_inv memory) fun _ _ _ hi hs => watch_step_inv hi hs

theorem bits_nonneg (heap : List (FdContext F C)) : 0 ≤ bits heap :=
  List.sum_nonneg fun x hx => by
    obtain ⟨c, -, rfl⟩ := List.mem_map.1 hx
    exact Int.natCast_nonneg _

theorem handle_covered {memory : Nat → Event → Option Nat} {w : Watch F C} {i : Nat} {ok : Bool}
    (hc : w.Covered (.handle i ok : Act F C)) (e : Event) :
    w.perform memory (.handle i ok) ≠ .error (.triggerEvent e) := by
  intro h
  simp only [Watch.perform] at h
  split at h
  · cases h
  · rename_i p rep hf
    split at h
    · rename_i a ha
      cases h
      obtain ⟨q, c, m, hq, ht, hm | ⟨r, hop, rfl, hand⟩⟩ := exec_error ha (.inr ⟨e, rfl⟩)
      · exact triggerBoth_registered hm e ht
      · -- the report was not refused, so its events are all registered
        cases hop
        exact triggerBoth_registered ((hc p rep c hf hq rfl).resolve_left hand) e ht
    · cases h

theorem handle_uncovered {memory : Nat → Event → Option Nat} {w : Watch F C} {i : Nat} {ok : Bool}
    (hc : ¬ w.Covered (.handle i ok : Act F C)) : ∃ a, w.perform memory (.handle i ok) = .error a ∧ a.InTrigger := by
  simp only [Watch.Covered, not_forall, not_or] at hc
  obtain ⟨p, r, c, hf, hp, rfl, hand, hsub⟩ := hc
  obtain ⟨a, ha, hk⟩ := triggerBoth_unregistered hsub
  exact ⟨a, by simp [Watch.perform, hf, exec, IOManager.handleReport, hp, hand, ha], hk⟩

/-- Reports that are partly stale. In every state reached by a run of operations, reports taken under
the interest of their moment and reports handled later, in which nothing aborted: the pending
counter is not negative, and a further step meets no failing assertion of `triggerEvent` if every
report is handled while the events it stands for are all registered or none of them is (or its
`epoll_ctl` fails); when a report is handled otherwise, the process ends in one of its triggers. -/
theorem report_covered {memory : Nat → Event → Option Nat} {w : Watch F C} {l : List (Act F C)}
    (h : Lts.Run (Watch.Step memory) (Watch.init memory) l w) :
    0 ≤ w.io.pending ∧ ∀ a, w.Enabled a →
      (w.Covered a → ∀ e, w.perform memory a ≠ .error (.triggerEvent e)) ∧
      (¬ w.Covered a → ∃ x, w.perform memory a = .error x ∧ (x = .nullScheduler ∨ ∃ e, x = .triggerEvent e)) := by
  refine ⟨by rw [(watch_run_inv h).pending]; exact bits_nonneg _, fun a ha => ?_⟩
  cases a with
  | op o =>
    refine ⟨fun _ e => ?_, fun hc => absurd trivial hc⟩
    simp only [Watch.perform]
    split
    · rename_i x hx
      rintro h
      cases h
      exact exec_registered ha e hx
    · simp
  | wait fd r =>
    refine ⟨fun _ e => ?_, fun hc => absurd trivial hc⟩
    simp only [Watch.perform]
    split <;> simp
  | handle i ok => exact ⟨handle_covered, handle_uncovered⟩

/-- The steps of a stale report on descriptor 3: both events are registered and reported, and
`delEvent` removes `WRITE` before the report is handled. -/
def staleReport : List (Act Unit Unit) :=
  [.op (.addEvent 3 .read ⟨some 0, (), true, none⟩ true), .op (.addEvent 3 .write ⟨some 0, (), true, none⟩ true),
    .wait 3 ⟨true, true, false, false⟩, .op (.delEvent 3 .write true)]

theorem staleReport_run : ∃ w, Lts.Run (Watch.Step fun _ _ => none) (Watch.init fun _ _ => none) staleReport w ∧
    w.Enabled (.handle 0 true) ∧ w.perform (fun _ _ => none) (.handle 0 true) = .error (.triggerEvent .write) := by
  have h : ∃ w1 w2 w3 w4 : Watch Unit Unit,
      (Watch.init fun _ _ => none).Step (fun _ _ => none) (.op (.addEvent 3 .read ⟨some 0, (), true, none⟩ true)) w1 ∧
      w1.Step (fun _ _ => none) (.op (.addEvent 3 .write ⟨some 0, (), true, none⟩ true)) w2 ∧
      w2.Step (fun _ _ => none) (.wait 3 ⟨true, true, false, false⟩) w3 ∧
      w3.Step (fun _ _ => none) (.op (.delEvent 3 .write true)) w4 ∧
      w4.Enabled (.handle 0 true) ∧ w4.perform (fun _ _ => none) (.handle 0 true) = .error (.triggerEvent .write) :=
    ⟨_, _, _, _, ⟨nofun, rfl⟩, ⟨nofun, rfl⟩, ⟨⟨_, _, rfl, fun _ => rfl, fun _ => rfl⟩, rfl⟩, ⟨nofun, rfl⟩,
      Nat.one_pos, rfl⟩
  obtain ⟨w1, w2, w3, w4, h1, h2, h3, h4, he, hp⟩ := h
  exact ⟨w4, .cons h1 (.cons h2 (.cons h3 (.single h4))), he, hp⟩

/-- The handling of a stale report meets the assertion of `triggerEvent`. -/
theorem stale_report_asserts : ¬ ∀ (l : List (Act Unit Unit)) (w : Watch Unit Unit),
    Lts.Run (Watch.Step fun _ _ => none) (Watch.init fun _ _ => none) l w →
    ∀ a, w.Enabled a → ∀ e, w.perform (fun _ _ => none) a ≠ .error (.triggerEvent e) := by
  intro h
  obtain ⟨w, hr, he, hp⟩ := staleReport_run
  exact h _ w hr _ he .write hp

/-- On the stale report the theorem says that the process ends. -/
theorem report_covered_stale : ∃ w, Lts.Run (Watch.Step fun _ _ => none) (Watch.init fun _ _ => none) staleReport w ∧
    0 ≤ w.io.pending ∧ ¬ w.Covered (.handle 0 true) := by
  obtain ⟨w, hr, he, hp⟩ := staleReport_run
  obtain ⟨h0, hc⟩ := report_covered hr
  exact ⟨w, hr, h0, fun h => (hc _ he).1 h .write hp⟩

end ServerFrame.Events
