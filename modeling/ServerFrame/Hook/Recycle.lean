/-
Calls suspended on a descriptor number while the number is closed. `close` wakes them as readiness
would, and a woken `do_io` call only looks at `tinfo->cancelled`: unless its timeout timer has fired it
goes back to `retry`, before `close_f` or after it, and calls the original function on the number, which the
kernel may have given to another file.
-/
import ServerFrame.Hook.Basic
import ServerFrame.Lib.Run

namespace ServerFrame.Hooks

open ServerFrame.Events (Event)

/-- A call that was suspended during the `close` of its number and had not returned at its end has been woken and not
run yet, or has returned -1: it is neither about to call the original function, nor left suspended, nor back with
anything else. -/
def Call.Rests (c : Call) : Prop := c.orphan = true → c.phase = .queued ∨ c.phase = .returned (-1)

namespace Net

variable (s : Net)

def Safe : Prop := ∀ c ∈ s.calls, c.Rests

/-- No number is closed while a call that was suspended on it since its `close` began still is, or has been resumed and
has not returned; and a call that lost its file is resumed with its timeout timer fired. -/
def Spared : Act → Prop
  | .closeFile k => ∀ fd, s.closes[k]? = some (fd, .close) → s.files fd ≠ none → ∀ c ∈ s.calls, c.fd = fd →
      c.closing = true → c.phase = .queued ∨ c.phase.isReturned = true
  | .resume i => ∀ c, s.calls[i]? = some c → c.phase = .queued → c.orphan = true → c.cancelled = true
  | _ => True

end Net

/-! ## One step -/

section Step

variable {memory : Nat → Event → Option Nat} {s s' : Net}

theorem Call.Rests.kept {c : Call} (h : c.Rests) (h1 : c.phase ≠ .queued) (h2 : c.phase ≠ .returned (-1)) :
    c.orphan = false := by
  cases ho : c.orphan with
  | false => rfl
  | true => exact ((h ho).elim h1 h2).elim

theorem Call.Rests.of_kept {c : Call} (h : c.orphan = false) : c.Rests := fun ho => by rw [h] at ho; cases ho

theorem Net.Safe.setCall (h : s.Safe) {i : Nat} {c : Call} (hc : c.Rests) : (s.setCall i c).Safe := fun d hd => by
  rcases List.mem_or_eq_of_mem_set hd with hd | rfl
  · exact h d hd
  · exact hc

theorem mem_modify {l : List Call} {i : Nat} {f : Call → Call} {c : Call} (h : c ∈ l.modify i f) :
    c ∈ l ∨ ∃ d ∈ l, c = f d := by
  obtain ⟨j, hj⟩ := List.mem_iff_getElem?.1 h
  rw [List.getElem?_modify] at hj
  cases hd : l[j]? with
  | none => rw [hd] at hj; cases hj
  | some d =>
    rw [hd] at hj
    have hm := List.mem_of_getElem? hd
    simp only [Option.map_eq_map, Option.map_some, Option.some.injEq] at hj
    by_cases hij : i = j
    · rw [if_pos hij] at hj
      exact .inr ⟨d, hm, hj.symm⟩
    · rw [if_neg hij] at hj
      exact .inl (hj ▸ hm)

/-- A hand-over queues calls and does nothing else to them. -/
theorem handOver_rests : ∀ {l : List (Events.Entry Nat Unit)} {calls : List Call}, (∀ c ∈ calls, c.Rests) →
    ∀ c ∈ handOver calls l, c.Rests
  | [], _, h => h
  | x :: l, calls, h => by
    rw [handOver, List.foldl_cons]
    refine handOver_rests (l := l) fun c hc => ?_
    split at hc
    · rcases mem_modify hc with hc | ⟨d, hd, rfl⟩
      · exact h c hc
      · split
        · exact fun _ => .inl rfl
        · exact h d hd
    · exact h c hc

theorem event_safe (h : s.Safe) {op : Events.Op Nat Unit} {b : Bool} (he : s.event memory op = some (s', b)) :
    s'.Safe := by
  unfold Net.event at he
  split at he
  · cases he
  · cases he
    exact handOver_rests h

theorem event_map_safe (h : s.Safe) {op : Events.Op Nat Unit} (he : (s.event memory op).map Prod.fst = some s') :
    s'.Safe := by
  obtain ⟨⟨t, b⟩, ht, rfl⟩ := Option.map_eq_some_iff.1 he
  exact event_safe h ht

theorem resume_safe (h : s.Safe) {i : Nat} (hs : s.Step memory (.resume i) s') : s'.Safe ↔ s.Spared (.resume i) := by
  simp only [Net.Step, Net.next] at hs
  split at hs
  · cases hs
  · rename_i c hc
    split at hs
    · rename_i hq
      cases hs
      constructor
      · intro hsafe d hd _ ho
        rw [hc] at hd
        cases hd
        have hlt := (List.getElem?_eq_some_iff.1 hc).1
        have hr := hsafe _ (List.mem_of_getElem? (List.getElem?_set_self hlt)) ho
        cases hx : c.cancelled with
        | true => rfl
        | false => simp [hx] at hr
      · intro hk
        refine h.setCall fun ho => ?_
        -- `cancelled` is all that `do_io` looks at after the resumption
        rw [hk c hc hq ho]
        exact .inr rfl
    · cases hs

theorem closeFile_safe (h : s.Safe) {k : Nat} (hs : s.Step memory (.closeFile k) s') :
    s'.Safe ↔ s.Spared (.closeFile k) := by
  simp only [Net.Step, Net.next] at hs
  split at hs
  · rename_i fd hk
    split at hs
    · rename_i hf
      cases hs
      refine iff_of_true h fun fd' hk' hne => ?_
      rw [hk] at hk'
      cases hk'
      exact absurd hf hne
    · rename_i hf
      cases hs
      constructor
      · intro hsafe fd' hk' _ c hc hfd hclosing
        rw [hk] at hk'
        cases hk'
        rw [or_iff_not_imp_right, Bool.not_eq_true]
        intro hreturned
        have hlose : Call.lose fd c = { c with orphan := true } := if_pos ⟨hfd, hclosing, hreturned⟩
        have hr := hsafe _ (List.mem_map_of_mem hc)
        rw [hlose] at hr
        refine (hr rfl).resolve_right fun hback => ?_
        have hphase : c.phase = .returned (-1) := hback
        rw [hphase] at hreturned
        cases hreturned
      · intro hspared c hc
        obtain ⟨d, hd, rfl⟩ := List.mem_map.1 hc
        unfold Call.lose
        split
        · -- every call that loses its file has been woken and not run
          rename_i hl
          refine fun _ => .inl ((hspared fd hk hf d hd hl.1 hl.2.1).resolve_right ?_)
          rw [hl.2.2]
          exact Bool.false_ne_true
        · exact h d hd
  · cases hs

theorem call_safe (h : s.Safe) {fd : Nat} {e : Event} (hs : s.Step memory (.call fd e) s') : s'.Safe := by
  cases hs
  intro c hc
  rcases List.mem_append.1 hc with hc | hc
  · exact h c hc
  · rw [List.mem_singleton.1 hc]
    refine .of_kept ?_
    unfold Net.enter
    simp only
    repeat' split
    all_goals rfl

theorem invoke_safe (h : s.Safe) {i : Nat} {r : IoResult} (hs : s.Step memory (.invoke i r) s') : s'.Safe := by
  simp only [Net.Step, Net.next] at hs
  split at hs
  · cases hs
  · rename_i c hc
    have hr := h c (List.mem_of_getElem? hc)
    split at hs
    · rename_i hp
      cases hs
      exact h.setCall (.of_kept (hr.kept (by simp [hp]) (by simp [hp])))
    · rename_i hp
      have hk := hr.kept (by simp [hp]) (by simp [hp])
      split at hs <;> cases hs
      · exact h
      · exact h.setCall (.of_kept hk)
      · exact h.setCall (.of_kept hk)
      · exact h.setCall (.of_kept hk)
    · cases hs

theorem register_safe (h : s.Safe) {i : Nat} {ok : Bool} (hs : s.Step memory (.register i ok) s') : s'.Safe := by
  simp only [Net.Step, Net.next] at hs
  split at hs
  · cases hs
  · rename_i c hc
    split at hs
    · rename_i hp
      have hk := (h c (List.mem_of_getElem? hc)).kept (by simp [hp]) (by simp [hp])
      split at hs
      · cases hs
      · cases hs
        exact (event_safe h ‹_›).setCall (.of_kept hk)
      · cases hs
        exact (event_safe h ‹_›).setCall (.of_kept hk)
    · cases hs

theorem fire_safe (h : s.Safe) {i : Nat} {ok : Bool} (hs : s.Step memory (.fire i ok) s') : s'.Safe := by
  simp only [Net.Step, Net.next] at hs
  split at hs
  · cases hs
  · rename_i c hc
    have hr : ∀ b b', ({ c with timer := b, cancelled := b' } : Call).Rests := fun _ _ =>
      h c (List.mem_of_getElem? hc)
    split at hs
    · split at hs
      · cases hs
        exact h.setCall (hr false c.cancelled)
      · exact event_map_safe (h.setCall (hr false true)) hs
    · cases hs

/-- A step that is neither the end of a `close` nor a resumption lets every call rest that does. -/
theorem quiet_safe (h : s.Safe) {a : Act} (hs : s.Step memory a s') (hc : ∀ k, a ≠ .closeFile k)
    (hr : ∀ i, a ≠ .resume i) : s'.Safe := by
  cases a with
  | closeFile k => exact absurd rfl (hc k)
  | resume i => exact absurd rfl (hr i)
  | openFile fd =>
    simp only [Net.Step, Net.next] at hs
    split at hs <;> cases hs
    exact h
  | adopt fd isSocket =>
    simp only [Net.Step, Net.next] at hs
    split at hs <;> (cases hs; exact h)
  | configure => cases hs; exact h
  | call fd e => exact call_safe h hs
  | invoke i r => exact invoke_safe h hs
  | register i ok => exact register_safe h hs
  | report p r ok => exact event_map_safe h hs
  | fire i ok => exact fire_safe h hs
  | close fd iom =>
    cases hs
    intro c hc
    obtain ⟨d, hd, rfl⟩ := List.mem_map.1 hc
    unfold Call.mark
    split
    · exact fun ho => h d hd ho
    · exact h d hd
  | cancelAll k ok =>
    simp only [Net.Step, Net.next] at hs
    split at hs
    · split at hs
      · cases hs
      · rename_i t b he
        cases hs
        exact (event_safe h he : t.Safe)
    · cases hs
  | del k =>
    simp only [Net.Step, Net.next] at hs
    split at hs <;> cases hs
    exact h

/-- A step keeps the calls without a file at rest exactly when it spares them. -/
theorem step_safe (h : s.Safe) {a : Act} (hs : s.Step memory a s') : s'.Safe ↔ s.Spared a := by
  cases a with
  | closeFile k => exact closeFile_safe h hs
  | resume i => exact resume_safe h hs
  | _ => exact iff_of_true (quiet_safe h hs nofun nofun) trivial

theorem net_step_unique (s : Net) (a : Act) (t u : Net) (h : s.Step memory a t) (h' : s.Step memory a u) : t = u := by
  unfold Net.Step at h h'
  rw [h] at h'
  exact Option.some.inj h'

end Step

/-! ## Runs -/

/-- Closed descriptor numbers. In every interleaving of hooked `do_io` calls, hooked `close` calls, readiness
reports, timeout timers and reuses of numbers: at every point every call that was suspended on a
number during its `close`, and had not returned when that was executed, has been woken or has returned -1 (so it does
not call the original function on that number again), if and only if no number is closed while a call that was
suspended on it since the `close` began is suspended or resumed, and every call that lost its file so is resumed with
its timeout timer fired. -/
theorem no_io_on_recycled {memory : Nat → Event → Option Nat} {s : Net} {l : List Act}
    (h : Lts.Run (Net.Step memory) (Net.init memory) l s) :
    (∀ l1 l2 t, l = l1 ++ l2 → Lts.Run (Net.Step memory) (Net.init memory) l1 t → t.Safe) ↔
    ∀ l1 a l2 t, l = l1 ++ a :: l2 → Lts.Run (Net.Step memory) (Net.init memory) l1 t → t.Spared a :=
  h.invariant_iff net_step_unique (fun _ hc => by cases hc) fun _ _ _ hsafe hs => step_safe hsafe hs

/-- A `read` without timeout waits on number 5, the number is closed and given to a new file, and the
`read` is resumed. -/
def recycled : List Act :=
  [.openFile 5, .adopt 5 true, .call 5 .read, .invoke 0 .eagain, .register 0 true, .close 5 true,
    .cancelAll 0 true, .del 0, .closeFile 0, .openFile 5, .resume 0]

theorem recycled_run : ∃ s, Lts.Run (Net.Step fun _ _ => none) (Net.init fun _ _ => none) recycled s ∧
    s.calls = [⟨5, .read, none, .retry, false, false, true, true⟩] ∧ s.files 5 = some 1 := by
  have h : ∃ s1 s2 s3 s4 s5 s6 s7 s8 s9 s10 s : Net,
      (Net.init fun _ _ => none).Step (fun _ _ => none) (.openFile 5) s1 ∧
      s1.Step (fun _ _ => none) (.adopt 5 true) s2 ∧ s2.Step (fun _ _ => none) (.call 5 .read) s3 ∧
      s3.Step (fun _ _ => none) (.invoke 0 .eagain) s4 ∧ s4.Step (fun _ _ => none) (.register 0 true) s5 ∧
      s5.Step (fun _ _ => none) (.close 5 true) s6 ∧ s6.Step (fun _ _ => none) (.cancelAll 0 true) s7 ∧
      s7.Step (fun _ _ => none) (.del 0) s8 ∧ s8.Step (fun _ _ => none) (.closeFile 0) s9 ∧
      s9.Step (fun _ _ => none) (.openFile 5) s10 ∧ s10.Step (fun _ _ => none) (.resume 0) s ∧
      s.calls = [⟨5, .read, none, .retry, false, false, true, true⟩] ∧ s.files 5 = some 1 :=
    ⟨_, _, _, _, _, _, _, _, _, _, _, rfl, rfl, rfl, rfl, rfl, rfl, rfl, rfl, rfl, rfl, rfl, rfl, rfl⟩
  obtain ⟨s1, s2, s3, s4, s5, s6, s7, s8, s9, s10, s, h1, h2, h3, h4, h5, h6, h7, h8, h9, h10, h11, hc⟩ := h
  exact ⟨s, .cons h1 (.cons h2 (.cons h3 (.cons h4 (.cons h5 (.cons h6 (.cons h7 (.cons h8 (.cons h9 (.cons h10
    (.single h11)))))))))), hc⟩

/-- The resumed `read` is about to call the original function on the number of the new file. -/
theorem recycled_retries :
    ¬ ∀ (l : List Act) (s : Net), Lts.Run (Net.Step fun _ _ => none) (Net.init fun _ _ => none) l s → s.Safe := by
  intro h
  obtain ⟨s, hr, hc, -⟩ := recycled_run
  have := h _ s hr ⟨5, .read, none, .retry, false, false, true, true⟩ (by simp [hc]) rfl
  simp at this

/-- On this run some step does not spare the suspended call. -/
theorem no_io_on_recycled_read : ∃ s, Lts.Run (Net.Step fun _ _ => none) (Net.init fun _ _ => none) recycled s ∧
    ¬ ∀ l1 a l2 t, recycled = l1 ++ a :: l2 →
      Lts.Run (Net.Step fun _ _ => none) (Net.init fun _ _ => none) l1 t → t.Spared a := by
  obtain ⟨s, hr, hc, -⟩ := recycled_run
  refine ⟨s, hr, fun hk => ?_⟩
  have := (no_io_on_recycled hr).2 hk recycled [] s (by simp) hr ⟨5, .read, none, .retry, false, false, true, true⟩
    (by simp [hc]) rfl
  simp at this

end ServerFrame.Hooks
