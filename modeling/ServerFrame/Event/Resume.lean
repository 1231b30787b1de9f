/-
Exactly-once resumption: the history of one descriptor and one event is a ledger in which every
registration is followed by its own hand-over to `schedule()` or its own drop, and by nothing else,
before the next one; the registration still open at the end, if any, is the one the context holds
with its bit set.
-/
import ServerFrame.Event.Cause

namespace ServerFrame.Events

universe u v

variable {F : Type u} {C : Type v}

/-- A ledger with the registration that is open at its end. -/
inductive Ledger : List (Entry F C) → Option (Reg F C) → Prop
  | nil : Ledger [] none
  | added {l : List (Entry F C)} {fd : Nat} {e : Event} {r : Reg F C} : Ledger l none →
      Ledger (l ++ [⟨.added, fd, e, r⟩]) (some r)
  | handed {l : List (Entry F C)} {fd : Nat} {e : Event} {r : Reg F C} : Ledger l (some r) →
      Ledger (l ++ [⟨.handed, fd, e, r⟩]) none
  | dropped {l : List (Entry F C)} {fd : Nat} {e : Event} {r : Reg F C} : Ledger l (some r) →
      Ledger (l ++ [⟨.dropped, fd, e, r⟩]) none

/-- A context whose set bits have a scheduler and one task, and whose clear bits have no task. -/
structure Sound (c : FdContext F C) : Prop where
  set : ∀ e, c.events.has e = true → (c.getContext e).scheduler.isSome ∧ (FdContext.regOf (c.getContext e)).isSome ∧
    ((c.getContext e).fiber = none ∨ (c.getContext e).cb = none)
  clear : ∀ e, c.events.has e = false → (c.getContext e).fiber = none ∧ (c.getContext e).cb = none

/-- What a change does to the ledger of one event. -/
inductive Moves : Option (Reg F C) → List (Entry F C) → Option (Reg F C) → Prop
  | stay {h : Option (Reg F C)} : Moves h [] h
  | added {fd : Nat} {e : Event} {r : Reg F C} : Moves none [⟨.added, fd, e, r⟩] (some r)
  | handed {fd : Nat} {e : Event} {r : Reg F C} : Moves (some r) [⟨.handed, fd, e, r⟩] none
  | dropped {fd : Nat} {e : Event} {r : Reg F C} : Moves (some r) [⟨.dropped, fd, e, r⟩] none

theorem Ledger.move {l m : List (Entry F C)} {h h' : Option (Reg F C)} (hl : Ledger l h) (hm : Moves h m h') :
    Ledger (l ++ m) h' := by
  cases hm with
  | stay => simpa using hl
  | added => exact hl.added
  | handed => exact hl.handed
  | dropped => exact hl.dropped

/-- The lines of one event. -/
def ofEvent (e : Event) (l : List (Entry F C)) : List (Entry F C) := l.filter fun x => decide (x.event = e)

theorem entriesOf_held {f : Fate} {c : FdContext F C} (hs : Sound c) {e : Event} (hb : c.events.has e = true) :
    ∃ r, held c e = some r ∧ entriesOf f c e = [⟨f, c.fd, e, r⟩] := by
  obtain ⟨r, hr⟩ := Option.isSome_iff_exists.1 (hs.set e hb).2.1
  exact ⟨r, by simp [held, hb, hr], by simp [entriesOf, hr]⟩

theorem regOf_empty (sch : Option Nat) : FdContext.regOf (⟨sch, none, none⟩ : EventContext F C) = none := rfl

/-- What a change of a sound context does: it stays sound, and the ledger of each event moves by one
line at most. -/
def Keeps (c c' : FdContext F C) (l : List (Entry F C)) : Prop :=
  Sound c' ∧ ∀ e, Moves (held c e) (ofEvent e l) (held c' e)

theorem keeps_add {c : FdContext F C} (hs : Sound c) {e : Event} {ctx : EventContext F C} {r : Reg F C}
    (hb : c.events.has e = false) (hsch : ctx.scheduler.isSome) (hr : FdContext.regOf ctx = some r)
    (hone : ctx.fiber = none ∨ ctx.cb = none) :
    Keeps c ({ c with events := c.events.or (.single e) }.setContext ctx e) [⟨.added, c.fd, e, r⟩] := by
  have hget : ∀ e', (({ c with events := c.events.or (.single e) } : FdContext F C).setContext ctx e).getContext e' =
      if e' = e then ctx else c.getContext e' := fun e' => by rw [getContext_setContext, getContext_events]
  refine ⟨⟨fun e' he' => ?_, fun e' he' => ?_⟩, fun e' => ?_⟩
  · rw [hget]
    split
    · exact ⟨hsch, by rw [hr]; rfl, hone⟩
    · rename_i hne
      refine hs.set e' ?_
      simpa [Mask.has_single, hne] using he'
  · rw [hget]
    simp only [setContext_events, Mask.has_or, Bool.or_eq_false_iff, Mask.has_single, decide_eq_false_iff_not] at he'
    rw [if_neg he'.2]
    exact hs.clear e' he'.1
  · unfold held ofEvent
    rw [hget]
    by_cases he : e' = e
    · subst he
      simp only [hb, setContext_events, Mask.has_or, Mask.has_single, decide_true, Bool.or_true, if_true, hr,
        Bool.false_eq_true, if_false, List.filter_cons, List.filter_nil]
      exact .added
    · have : (fun x : Entry F C => decide (x.event = e')) ⟨.added, c.fd, e, r⟩ = false := by simp [Ne.symm he]
      simp only [setContext_events, Mask.has_or, Mask.has_single, he, decide_false, Bool.or_false, if_false,
        List.filter_cons, List.filter_nil, this]
      exact .stay

theorem keeps_drop {c : FdContext F C} (hs : Sound c) {e : Event} (hb : c.events.has e = true) :
    Keeps c ({ c with events := c.events.diff (.single e) }.resetContext e) (entriesOf .dropped c e) := by
  have hget : ∀ e', (({ c with events := c.events.diff (.single e) } : FdContext F C).resetContext e).getContext e' =
      if e' = e then ⟨none, none, none⟩ else c.getContext e' := fun e' => by
    rw [FdContext.resetContext, getContext_setContext, getContext_events]
  have hev : (({ c with events := c.events.diff (.single e) } : FdContext F C).resetContext e).events =
      c.events.diff (.single e) := by simp [FdContext.resetContext]
  refine ⟨⟨fun e' he' => ?_, fun e' he' => ?_⟩, fun e' => ?_⟩
  · rw [hev, Mask.has_diff, Mask.has_single, Bool.and_eq_true, Bool.not_eq_true', decide_eq_false_iff_not] at he'
    rw [hget, if_neg he'.2]
    exact hs.set e' he'.1
  · rw [hget]
    split
    · exact ⟨rfl, rfl⟩
    · rename_i hne
      refine hs.clear e' ?_
      rw [hev] at he'
      simpa [Mask.has_single, hne] using he'
  · unfold ofEvent
    rw [filter_entriesOf]
    by_cases he : e' = e
    · subst he
      obtain ⟨r, h1, h2⟩ := entriesOf_held (f := .dropped) hs hb
      rw [if_pos rfl, h1, h2]
      have : held (({ c with events := c.events.diff (.single e') } : FdContext F C).resetContext e') e' = none := by
        simp [held, hev, Mask.has_single]
      rw [this]; exact .dropped
    · rw [if_neg he]
      have : held (({ c with events := c.events.diff (.single e) } : FdContext F C).resetContext e) e' = held c e' := by
        simp [held, hev, hget, he, Mask.has_single]
      rw [this]; exact .stay

theorem keeps_trigger {c c' : FdContext F C} {m : Mask} {l : List (Entry F C)} (hs : Sound c)
    (ht : Triggered c m c' l) : Keeps c c' l := by
  -- a sound context has one task for a set bit, so taking the callback or else the fiber empties it
  have hclear : ∀ e, m.has e = true → c'.getContext e = ⟨none, none, none⟩ := fun e he => by
    rw [ht.emptied e he]
    obtain ⟨-, -, hf | hcb⟩ := hs.set e (ht.sub e he)
    · simp [hf]
    · simp [hcb]
  refine ⟨⟨fun e he => ?_, fun e he => ?_⟩, fun e => ?_⟩
  · rw [ht.events, Mask.has_diff, Bool.and_eq_true, Bool.not_eq_true'] at he
    rw [ht.kept e he.2]
    exact hs.set e he.1
  · cases hm : m.has e with
    | true => rw [hclear e hm]; exact ⟨rfl, rfl⟩
    | false =>
      rw [ht.kept e hm]
      refine hs.clear e ?_
      rw [ht.events] at he
      simpa [hm] using he
  · unfold ofEvent
    rw [ht.log]
    cases hm : m.has e with
    | true =>
      obtain ⟨r, h1, h2⟩ := entriesOf_held (f := .handed) hs (ht.sub e hm)
      rw [if_pos rfl, h1, h2]
      have : held c' e = none := by simp [held, hclear e hm, regOf_empty]
      rw [this]; exact .handed
    | false =>
      have : held c' e = held c e := by simp [held, ht.events, ht.kept e hm, hm]
      rw [this]; exact .stay

theorem Change.keeps {sch : Option Nat} {c c' : FdContext F C} {l : List (Entry F C)} (h : Change sch c c' l)
    (hs : Sound c) (hsch : sch.isSome) : Keeps c c' l := by
  cases h with
  | add e ctx r hb _ hctx hr hone => exact keeps_add hs hb (hctx ▸ hsch) hr hone
  | drop e hb => exact keeps_drop hs hb
  | trigger m _ _ _ ht => exact keeps_trigger hs ht

/-- Every history line is about the context's own descriptor. -/
theorem Change.logFd {sch : Option Nat} {c c' : FdContext F C} {l : List (Entry F C)} (h : Change sch c c' l) :
    ∀ x ∈ l, x.fd = c.fd := by
  cases h with
  | add => intro x hx; rw [List.mem_singleton.1 hx]
  | drop e => intro x hx; exact (entriesOf_event hx).2
  | trigger m _ _ _ ht => exact ht.logFd

/-! ## Runs -/

/-- The history of a run. -/
def history (l : List (Op F C × Result F C)) : List (Entry F C) := l.flatMap fun a => a.2.log

/-- The lines of one descriptor and one event. -/
def linesOf (fd : Nat) (e : Event) (l : List (Entry F C)) : List (Entry F C) :=
  l.filter fun x => decide (x.fd = fd) && decide (x.event = e)

/-- A step whose `addEvent` is called on a thread that has a scheduler. -/
def SchedStep (memory : Nat → Event → Option Nat) (s : IOManager F C) (a : Op F C × Result F C)
    (s' : IOManager F C) : Prop :=
  Step memory s a s' ∧ ∀ fd e caller ok, a.1 = .addEvent fd e caller ok → caller.scheduler.isSome

/-- The books of registrations. -/
structure Books (l : List (Entry F C)) (s : IOManager F C) : Prop where
  inv : Inv s
  sound : ∀ c ∈ s.heap, Sound c
  ledger : ∀ fd e, Ledger (linesOf fd e l) (s.heap[fd]?.bind fun c => held c e)

theorem linesOf_append (fd : Nat) (e : Event) (l m : List (Entry F C)) :
    linesOf fd e (l ++ m) = linesOf fd e l ++ linesOf fd e m := List.filter_append ..

theorem Grown.books {l : List (Entry F C)} {s s' : IOManager F C} (hb : Books l s) (hg : Grown s s') : Books l s' := by
  obtain ⟨new, hh, hnew⟩ := hg.heap
  refine ⟨hg.inv, fun c hc => ?_, fun fd e => ?_⟩
  · rw [hh] at hc
    rcases List.mem_append.1 hc with hc | hc
    · exact hb.sound c hc
    · obtain ⟨h1, h2⟩ := hnew c hc
      exact ⟨fun e he => by rw [h1] at he; simp at he, fun e _ => h2 e⟩
  · have := hb.ledger fd e
    rcases Nat.lt_or_ge fd s.heap.length with hlt | hge
    · rwa [hh, List.getElem?_append_left hlt]
    · rw [List.getElem?_eq_none hge] at this
      rw [hh, List.getElem?_append_right hge]
      cases hc : new[fd - s.heap.length]? with
      | none => exact this
      | some c =>
        have h1 := (hnew c (List.mem_of_getElem? hc)).1
        simpa [held, h1] using this

theorem outcome_books {sch : Option Nat} {l : List (Entry F C)} {s : IOManager F C} {r : Result F C} (hb : Books l s)
    (ho : Outcome sch s r) (hsch : sch.isSome) : Books (l ++ r.log) r.state := by
  cases ho with
  | refused => simpa [IOManager.refused] using hb
  | failed => simpa [IOManager.failed] using hb
  | @committed p c c' op m hc hv hch =>
    have hlt := (List.getElem?_eq_some_iff.1 hc).1
    obtain ⟨hs, hm⟩ := hch.keeps (hb.sound c (List.mem_of_getElem? hc)) hsch
    refine ⟨commit_inv hb.inv hc hch.fd, fun d hd => ?_, fun fd e => ?_⟩
    · rcases List.mem_or_eq_of_mem_set hd with hd | rfl
      · exact hb.sound d hd
      · exact hs
    · rw [linesOf_append]
      have hold := hb.ledger fd e
      simp only [commit, List.getElem?_set]
      by_cases hk : p = fd
      · subst hk
        rw [hc] at hold
        have hlines : linesOf p e m = ofEvent e m := by
          refine List.filter_congr fun x hx => ?_
          rw [hch.logFd x hx, hb.inv.fds p c hc]; simp
        rw [hlines]
        simpa [hlt] using hold.move (hm e)
      · have hlines : linesOf fd e m = [] := by
          refine List.filter_eq_nil_iff.2 fun x hx => ?_
          rw [hch.logFd x hx, hb.inv.fds p c hc]; simp [hk]
        simpa [hlines, hk] using hold

theorem step_books {memory : Nat → Event → Option Nat} {l : List (Entry F C)} {s s' : IOManager F C}
    {a : Op F C × Result F C} (hb : Books l s) (h : SchedStep memory s a s') : Books (l ++ a.2.log) s' := by
  obtain ⟨⟨he, rfl⟩, hsch⟩ := h
  have : ∃ sch : Option Nat, sch.isSome ∧ ∀ fd e caller ok, a.1 = .addEvent fd e caller ok →
      caller.scheduler = sch := by
    cases hop : a.1 with
    | addEvent fd e caller ok => exact ⟨caller.scheduler, hsch fd e caller ok hop, fun _ _ _ _ h => by cases h; rfl⟩
    | _ => exact ⟨some 0, rfl, fun _ _ _ _ h => by cases h⟩
  obtain ⟨sch, hs, hc⟩ := this
  obtain ⟨t, hg, ho⟩ := exec_outcome hb.inv he sch hc
  exact outcome_books (hg.books hb) ho hs

theorem init_books (memory : Nat → Event → Option Nat) : Books [] (IOManager.init memory : IOManager F C) := by
  obtain ⟨hg, -⟩ := contextResize_grown memory (s := (⟨[], [], fun _ => none, 0⟩ : IOManager F C)) rfl
    (fun p c h => by cases h) rfl (fun _ => rfl) (Nat.zero_le _) (le_refl 32)
  obtain ⟨new, hh, hnew⟩ := hg.heap
  have hnone : ∀ c ∈ (IOManager.init memory : IOManager F C).heap, c.events = Mask.none ∧
      ∀ e, (c.getContext e).fiber = none ∧ (c.getContext e).cb = none := fun c hc =>
    hnew c (by rw [IOManager.init, hh] at hc; simpa using hc)
  refine ⟨init_inv memory, fun c hc => ⟨fun e he => ?_, fun e _ => (hnone c hc).2 e⟩, fun fd e => ?_⟩
  · rw [(hnone c hc).1] at he; simp at he
  · cases hc : (IOManager.init memory : IOManager F C).heap[fd]? with
    | none => exact .nil
    | some c =>
      have := (hnone c (List.mem_of_getElem? hc)).1
      simp only [Option.bind_some, held, this, Mask.has_none, Bool.false_eq_true, if_false]
      exact .nil

theorem history_snoc (l : List (Op F C × Result F C)) (a : Op F C × Result F C) :
    history (l ++ [a]) = history l ++ a.2.log := by simp [history]

theorem run_books {memory : Nat → Event → Option Nat} {l : List (Op F C × Result F C)} {s : IOManager F C}
    (h : Lts.Run (SchedStep memory) (IOManager.init memory) l s) : Books (history l) s :=
  h.history (P := fun l s => Books (history l) s) (init_books memory) fun l t a u _ hb hs => by
    rw [history_snoc]; exact step_books hb hs

/-! ## No null scheduler -/

theorem triggerBoth_scheduler {c : FdContext F C} (hs : Sound c) (m : Mask) :
    c.triggerBoth m ≠ .error .nullScheduler := by
  intro h
  obtain ⟨e, -, ⟨-, ha⟩ | ⟨hb, hsch, -⟩⟩ := triggerBoth_error h
  · cases ha
  · have := (hs.set e hb).1
    rw [hsch] at this
    cases this

/-- No operation on sound contexts dereferences a null scheduler. -/
theorem exec_scheduler {memory : Nat → Event → Option Nat} {s : IOManager F C} (hs : ∀ c ∈ s.heap, Sound c)
    (op : Op F C) : exec memory s op ≠ .error .nullScheduler := by
  intro h
  obtain ⟨p, c, m, hc, ht, -⟩ := exec_error h (.inl rfl)
  exact triggerBoth_scheduler (hs c (List.mem_of_getElem? hc)) m ht

/-! ## Exactly once -/

theorem getElem?_snoc {l : List (Entry F C)} {z x : Entry F C} {i : Nat} (h : (l ++ [z])[i]? = some x) :
    l[i]? = some x ∨ (i = l.length ∧ x = z) := by
  rcases Nat.lt_or_ge i l.length with hlt | hge
  · rw [List.getElem?_append_left hlt] at h
    exact .inl h
  · rw [List.getElem?_append_right hge] at h
    obtain ⟨h0, hz⟩ := List.getElem?_eq_some_iff.1 h
    have hi : i = l.length := by simp at h0; omega
    subst hi
    exact .inr ⟨rfl, by simpa using hz.symm⟩

theorem getElem?_of_left {l : List (Entry F C)} {z x : Entry F C} {i : Nat} (h : l[i]? = some x) :
    (l ++ [z])[i]? = some x := by
  rw [List.getElem?_append_left (List.getElem?_eq_some_iff.1 h).1]
  exact h

/-- The registration on line `i` is the open one, or the next line resolves it. -/
def Resolved (l : List (Entry F C)) (h : Option (Reg F C)) : Prop :=
  ∀ i x, l[i]? = some x → x.fate = .added →
    (i + 1 = l.length ∧ h = some x.reg) ∨ ∃ y, l[i + 1]? = some y ∧ y.fate ≠ .added ∧ y.reg = x.reg

theorem Resolved.open_snoc {l : List (Entry F C)} {z : Entry F C} (h : Resolved l none) :
    Resolved (l ++ [z]) (some z.reg) := by
  intro i x hx hf
  rcases getElem?_snoc hx with hx | ⟨rfl, rfl⟩
  · obtain ⟨-, he⟩ | ⟨y, hy, h1, h2⟩ := h i x hx hf
    · cases he
    · exact .inr ⟨y, getElem?_of_left hy, h1, h2⟩
  · exact .inl ⟨by simp, rfl⟩

theorem Resolved.close_snoc {l : List (Entry F C)} {z : Entry F C} (hz : z.fate ≠ .added)
    (h : Resolved l (some z.reg)) : Resolved (l ++ [z]) none := by
  intro i x hx hf
  rcases getElem?_snoc hx with hx | ⟨rfl, rfl⟩
  · obtain ⟨hi, he⟩ | ⟨y, hy, h1, h2⟩ := h i x hx hf
    · -- the open registration is the last line, and `z` resolves it
      exact .inr ⟨z, by rw [hi]; simp, hz, Option.some.inj he⟩
    · exact .inr ⟨y, getElem?_of_left hy, h1, h2⟩
  · exact absurd hf hz

/-- Every registration of a ledger but the open one is resolved by the next line. -/
theorem Ledger.resolved {l : List (Entry F C)} {h : Option (Reg F C)} (hl : Ledger l h) : Resolved l h := by
  induction hl with
  | nil => intro i x hx; simp at hx
  | added _ ih => exact ih.open_snoc
  | handed _ ih => exact ih.close_snoc (by simp)
  | dropped _ ih => exact ih.close_snoc (by simp)

/-- The line before every hand-over or drop registers what it resolves. -/
def Justified (l : List (Entry F C)) : Prop :=
  ∀ j y, l[j]? = some y → y.fate ≠ .added → ∃ i x, j = i + 1 ∧ l[i]? = some x ∧ x.fate = .added ∧ x.reg = y.reg

theorem Ledger.open_last {l : List (Entry F C)} {r : Reg F C} (h : Ledger l (some r)) :
    ∃ l' fd e, l = l' ++ [⟨.added, fd, e, r⟩] := by
  cases h with
  | added => exact ⟨_, _, _, rfl⟩

theorem Justified.snoc {l : List (Entry F C)} {z : Entry F C} (h : Justified l)
    (hz : z.fate ≠ .added → Ledger l (some z.reg)) : Justified (l ++ [z]) := by
  intro j y hy hf
  rcases getElem?_snoc hy with hy | ⟨rfl, rfl⟩
  · obtain ⟨i, x, hi, hx, h1, h2⟩ := h j y hy hf
    exact ⟨i, x, hi, getElem?_of_left hx, h1, h2⟩
  · obtain ⟨l', fd, e, rfl⟩ := (hz hf).open_last
    exact ⟨l'.length, ⟨.added, fd, e, y.reg⟩, by simp, by simp, rfl, rfl⟩

/-- Every hand-over or drop of a ledger resolves the registration on the line before it. -/
theorem Ledger.justified {l : List (Entry F C)} {h : Option (Reg F C)} (hl : Ledger l h) : Justified l := by
  induction hl with
  | nil => intro j y hy; simp at hy
  | added _ ih => exact ih.snoc fun h => absurd rfl h
  | handed hl ih => exact ih.snoc fun _ => hl
  | dropped hl ih => exact ih.snoc fun _ => hl

/-- Exactly-once resumption. In every run of `addEvent` (on threads that have a scheduler), `delEvent`,
`cancelEvent`, `cancelAll` and report handling in which nothing aborts, for every descriptor and
event: a registration is still held by the event's context with its bit set, or the next line about
this descriptor and event hands it to `schedule()` or drops it; every hand-over or drop is of the
registration on the line before it; a set bit means a registration is held, and with a clear bit
the context has neither callback nor fiber; no operation meets a null scheduler; and every operation of the run
does what it is for: a successful `addEvent` registers, `delEvent` drops, `cancelEvent`, `cancelAll` and the handling
of a report hand over. -/
theorem resumed_exactly_once {memory : Nat → Event → Option Nat} {l : List (Op F C × Result F C)} {s : IOManager F C}
    (h : Lts.Run (SchedStep memory) (IOManager.init memory) l s) (fd : Nat) (e : Event) :
    (∀ i x, (linesOf fd e (history l))[i]? = some x → x.fate = .added →
      (i + 1 = (linesOf fd e (history l)).length ∧ heldAt s fd e = some x.reg) ∨
      ∃ y, (linesOf fd e (history l))[i + 1]? = some y ∧ y.fate ≠ .added ∧ y.reg = x.reg) ∧
    (∀ j y, (linesOf fd e (history l))[j]? = some y → y.fate ≠ .added →
      ∃ i x, j = i + 1 ∧ (linesOf fd e (history l))[i]? = some x ∧ x.fate = .added ∧ x.reg = y.reg) ∧
    (∀ r, heldAt s fd e = some r → (linesOf fd e (history l)).getLast? = some ⟨.added, fd, e, r⟩) ∧
    (∀ c, contextAt s fd = some c → (c.events.has e = true → (heldAt s fd e).isSome) ∧
      (c.events.has e = false → (c.getContext e).cb = none ∧ (c.getContext e).fiber = none)) ∧
    (∀ op, exec memory s op ≠ .error .nullScheduler) ∧
    ∀ l1 op r l2 t, l = l1 ++ (op, r) :: l2 → Lts.Run (SchedStep memory) (IOManager.init memory) l1 t →
      Does t op r := by
  have hb := run_books h
  have hheld : heldAt s fd e = s.heap[fd]?.bind fun c => held c e := by
    unfold heldAt; rw [contextAt_eq hb.inv]
  have hl := hb.ledger fd e
  rw [← hheld] at hl
  refine ⟨hl.resolved, hl.justified, fun r hr => ?_, fun c hc => ⟨fun he => ?_, fun he => ?_⟩, exec_scheduler hb.sound,
    fun l1 op r l2 t hl ht => ?_⟩
  · -- a ledger with an open registration ends with the line that made it
    rw [hr] at hl
    generalize hm : linesOf fd e (history l) = m at hl
    cases hl with
    | @added m' fd' e' _ _ =>
      have hx : (⟨.added, fd', e', r⟩ : Entry F C) ∈ linesOf fd e (history l) := by rw [hm]; simp
      have := (List.mem_filter.1 hx).2
      simp only [Bool.and_eq_true, decide_eq_true_eq] at this
      rw [List.getLast?_append_of_ne_nil _ (by simp)]
      simp [this.1, this.2]
  · rw [heldAt, hc, Option.bind_some, held, if_pos he]
    rw [contextAt_eq hb.inv] at hc
    exact ((hb.sound c (List.mem_of_getElem? hc)).set e he).2.1
  · rw [contextAt_eq hb.inv] at hc
    exact ((hb.sound c (List.mem_of_getElem? hc)).clear e he).symm
  · -- the states before an operation of the run are those of the same steps
    subst hl
    obtain ⟨u, v, hu, hstep, -⟩ := h.split_step
    obtain rfl := hu.unique (fun _ _ _ _ h h' => h.1.2.trans h'.1.2.symm) ht
    exact exec_does (run_books hu).inv hstep.1.1

/-- A callback registered for descriptor 3 is handed to its scheduler by a report. -/
theorem resumed_exactly_once_callback : ∃ (l : List (Op Unit Nat × Result Unit Nat)) (s : IOManager Unit Nat),
    Lts.Run (SchedStep fun _ _ => none) (IOManager.init fun _ _ => none) l s ∧
    linesOf 3 .read (history l) =
      [⟨.added, 3, .read, ⟨some 0, .cb 7⟩⟩, ⟨.handed, 3, .read, ⟨some 0, .cb 7⟩⟩] ∧ heldAt s 3 .read = none ∧
    ∀ op, exec (fun _ _ => none) s op ≠ .error .nullScheduler := by
  have h1 : ∃ r, exec (fun _ _ => none) (IOManager.init fun _ _ => none)
      (.addEvent 3 .read ⟨some 0, (), true, some 7⟩ true : Op Unit Nat) = .ok r ∧
      r.log = [⟨.added, 3, .read, ⟨some 0, .cb 7⟩⟩] ∧
      ∃ r', exec (fun _ _ => none) r.state (.report 3 ⟨true, false, false, false⟩ true : Op Unit Nat) = .ok r' ∧
      r'.log = [⟨.handed, 3, .read, ⟨some 0, .cb 7⟩⟩] ∧ heldAt r'.state 3 .read = none :=
    ⟨_, rfl, rfl, _, rfl, rfl, rfl⟩
  obtain ⟨r, he, hlog, r', he', hlog', hheld⟩ := h1
  have hr : Lts.Run (SchedStep fun _ _ => none) (IOManager.init fun _ _ => none) [(_, r), (_, r')] r'.state :=
    .cons ⟨⟨he, rfl⟩, fun _ _ _ _ h => by cases h; rfl⟩ (.single ⟨⟨he', rfl⟩, fun _ _ _ _ h => by cases h⟩)
  refine ⟨_, _, hr, ?_, hheld, (resumed_exactly_once hr 3 .read).2.2.2.2.1⟩
  simp [history, hlog, hlog', linesOf]

end ServerFrame.Events
