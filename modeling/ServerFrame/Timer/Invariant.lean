/-
The representation invariant of the timer manager: `m_timers` is strictly ordered by deadline and
address under the current deadlines of its members, its members are exactly the timers that still
have a callback, and no two of them share an address. `Loose m out` is the same invariant in the
middle of an operation, when the live timers `out` are outside the set; the operations take timers
out, change them there and put them back.
-/
import ServerFrame.Timer.Basic

namespace ServerFrame.Timers

universe u

variable {C : Type u}

/-! ## The comparator -/

/-- What the comparator looks at. -/
def rank (t : Option (Timer C)) : Option (UInt64 × Nat) := t.map fun t => (t.next, t.addr)

theorem before_some (a b : Timer C) :
    Before (some a) (some b) ↔ a.next < b.next ∨ (a.next = b.next ∧ a.addr < b.addr) := by
  unfold Before Comparator
  by_cases h1 : a.next < b.next
  · simp [h1]
  · by_cases h2 : a.next > b.next
    · have hne : a.next ≠ b.next := fun h => h1 (by rw [h] at h2; exact absurd h2 (UInt64.lt_irrefl _))
      simp [h1, h2, hne]
    · have he : a.next = b.next := UInt64.le_antisymm (UInt64.not_lt.1 h2) (UInt64.not_lt.1 h1)
      simp [he, UInt64.lt_irrefl]

theorem before_congr {a a' b b' : Option (Timer C)} (ha : rank a' = rank a) (hb : rank b' = rank b)
    (h : Before a b) : Before a' b' := by
  cases a <;> cases a' <;> cases b <;> cases b' <;> simp only [rank, Option.map_none, Option.map_some,
    reduceCtorEq, Option.some.injEq, Prod.mk.injEq] at ha hb
  · exact h
  · exact h
  · exact h
  · rw [before_some] at h ⊢; rw [ha.1, ha.2, hb.1, hb.2]; exact h

instance : Std.Irrefl (Before (C := C)) where
  irrefl a h := by
    cases a with
    | none => simp [Before, Comparator] at h
    | some a =>
      rcases (before_some a a).1 h with h | ⟨-, h⟩
      · exact UInt64.lt_irrefl _ h
      · exact Nat.lt_irrefl _ h

instance : IsTrans (Option (Timer C)) Before where
  trans a b c h1 h2 := by
    cases a with
    | none =>
      cases b with
      | none => exact h2
      | some b =>
        cases c with
        | none => simp [Before, Comparator] at h2
        | some c => rfl
    | some a =>
      cases b with
      | none => simp [Before, Comparator] at h1
      | some b =>
        cases c with
        | none => simp [Before, Comparator] at h2
        | some c =>
          rw [before_some] at h1 h2 ⊢
          rcases h1 with h1 | ⟨e1, h1⟩ <;> rcases h2 with h2 | ⟨e2, h2⟩
          · exact .inl (UInt64.lt_trans h1 h2)
          · exact .inl (e2 ▸ h1)
          · exact .inl (e1 ▸ h2)
          · exact .inr ⟨e1.trans e2, Nat.lt_trans h1 h2⟩

/-- Timers at different addresses are comparable. -/
theorem before_total {a b : Timer C} (h : a.addr ≠ b.addr) : Before (some a) (some b) ∨ Before (some b) (some a) := by
  rw [before_some, before_some]
  by_cases he : a.next = b.next
  · rcases Nat.lt_or_gt_of_ne h with h2 | h2
    · exact .inl (.inr ⟨he, h2⟩)
    · exact .inr (.inr ⟨he.symm, h2⟩)
  · rcases UInt64.lt_or_lt_of_ne he with h1 | h1
    · exact .inl (.inl h1)
    · exact .inr (.inl h1)

/-! ## The invariant -/

namespace TimerManager

/-- The callback of a timer, if it still has one. -/
def cbOf (m : TimerManager C) (h : Nat) : Option C := m.heap[h]?.bind (·.cb)

/-- The address of a timer. -/
def addrOf (m : TimerManager C) (h : Nat) : Option Nat := m.heap[h]?.map (·.addr)

/-- Whether a timer recurs. -/
def recurringOf (m : TimerManager C) (h : Nat) : Option Bool := m.heap[h]?.map (·.recurring)

end TimerManager

/-- The invariant with the live timers `out` outside the set. -/
structure Loose (m : TimerManager C) (out : List Nat) : Prop where
  ordered : OrderedSet.Ordered Before m.key m.timers
  nodup : (out ++ m.timers).Nodup
  live : ∀ h, h ∈ out ++ m.timers ↔ (m.cbOf h).isSome
  addr : ∀ a ∈ out ++ m.timers, ∀ b ∈ out ++ m.timers, a ≠ b → m.addrOf a ≠ m.addrOf b

/-- The representation invariant. -/
def WF (m : TimerManager C) : Prop := Loose m []

theorem init_wf (now : UInt64) : WF (TimerManager.init now : TimerManager C) :=
  ⟨.nil, .nil, by simp [TimerManager.init, TimerManager.cbOf], by simp [TimerManager.init]⟩

theorem WF.mem_iff {m : TimerManager C} (hw : WF m) (h : Nat) : h ∈ m.timers ↔ (m.cbOf h).isSome := by
  simpa using hw.live h

theorem Loose.exists_timer {m : TimerManager C} {out : List Nat} (hl : Loose m out) {h : Nat}
    (hm : h ∈ out ++ m.timers) : ∃ t c, m.heap[h]? = some t ∧ t.cb = some c := by
  have := (hl.live h).1 hm
  unfold TimerManager.cbOf at this
  cases ht : m.heap[h]? with
  | none => rw [ht] at this; simp at this
  | some t =>
    rw [ht] at this
    obtain ⟨c, hc⟩ := Option.isSome_iff_exists.1 this
    exact ⟨t, c, rfl, hc⟩

theorem Loose.comparable {m : TimerManager C} {out : List Nat} (hl : Loose m out) {a b : Nat}
    (ha : a ∈ out ++ m.timers) (hb : b ∈ out ++ m.timers) (hne : a ≠ b) :
    Before (m.key a) (m.key b) ∨ Before (m.key b) (m.key a) := by
  obtain ⟨ta, ca, hta, -⟩ := hl.exists_timer ha
  obtain ⟨tb, cb, htb, -⟩ := hl.exists_timer hb
  have := hl.addr a ha b hb hne
  unfold TimerManager.addrOf at this
  rw [hta, htb] at this
  unfold TimerManager.key
  rw [hta, htb]
  exact before_total (fun h => this (by simp [h]))

/-! ## Changing a timer outside the set -/

section Modify

variable {m : TimerManager C} {h : Nat} {f : Timer C → Timer C}

theorem heap_modify (m : TimerManager C) (h : Nat) (f : Timer C → Timer C) (k : Nat) :
    (m.modify h f).heap[k]? = if k = h then m.heap[k]?.map f else m.heap[k]? := by
  unfold TimerManager.modify
  rw [List.getElem?_modify]
  by_cases hk : k = h
  · subst hk; simp
  · simp [hk, Ne.symm hk]

@[simp] theorem modify_timers (m : TimerManager C) (h : Nat) (f : Timer C → Timer C) :
    (m.modify h f).timers = m.timers := rfl

theorem modify_length (m : TimerManager C) (h : Nat) (f : Timer C → Timer C) :
    (m.modify h f).heap.length = m.heap.length := List.length_modify ..

theorem addrOf_modify (hf : ∀ t, (f t).addr = t.addr) (k : Nat) : (m.modify h f).addrOf k = m.addrOf k := by
  unfold TimerManager.addrOf
  rw [heap_modify]
  split
  · rw [Option.map_map]; congr 1; funext t; exact hf t
  · rfl

theorem recurringOf_modify (hf : ∀ t, (f t).recurring = t.recurring) (k : Nat) :
    (m.modify h f).recurringOf k = m.recurringOf k := by
  unfold TimerManager.recurringOf
  rw [heap_modify]
  split
  · rw [Option.map_map]; congr 1; funext t; exact hf t
  · rfl

theorem cbOf_modify (hf : ∀ t, (f t).cb = t.cb) (k : Nat) : (m.modify h f).cbOf k = m.cbOf k := by
  unfold TimerManager.cbOf
  rw [heap_modify]
  split
  · cases m.heap[k]? with
    | none => rfl
    | some t => exact hf t
  · rfl

theorem cbOf_modify_other {k : Nat} (hk : k ≠ h) : (m.modify h f).cbOf k = m.cbOf k := by
  unfold TimerManager.cbOf; rw [heap_modify, if_neg hk]

theorem key_modify_other {k : Nat} (hk : k ≠ h) : (m.modify h f).key k = m.key k := by
  unfold TimerManager.key; rw [heap_modify, if_neg hk]

/-- Re-arming a timer that is outside the set. -/
theorem Loose.modify {out : List Nat} (hl : Loose m out) (hm : h ∈ out) (hc : ∀ t, (f t).cb = t.cb)
    (ha : ∀ t, (f t).addr = t.addr) : Loose (m.modify h f) out := by
  have hnot : ∀ k ∈ m.timers, k ≠ h := fun k hk e =>
    (List.nodup_append.1 hl.nodup).2.2 h hm k hk e.symm
  refine ⟨hl.ordered.imp fun x hx y hy hxy => ?_, hl.nodup, fun k => ?_, fun a ha' b hb' hne => ?_⟩
  · rw [key_modify_other (hnot x hx), key_modify_other (hnot y hy)]; exact hxy
  · rw [cbOf_modify hc]; exact hl.live k
  · rw [addrOf_modify ha, addrOf_modify ha]; exact hl.addr a ha' b hb' hne

/-- A timer outside the set that loses its callback is no longer live. -/
theorem Loose.kill {out : List Nat} (hl : Loose m (h :: out)) (hc : ∀ t, (f t).cb = none)
    (ha : ∀ t, (f t).addr = t.addr) : Loose (m.modify h f) out := by
  have hnd := hl.nodup
  rw [List.cons_append, List.nodup_cons] at hnd
  have hnot : ∀ k ∈ out ++ m.timers, k ≠ h := fun k hk e => hnd.1 (e ▸ hk)
  refine ⟨hl.ordered.imp fun x hx y hy hxy => ?_, hnd.2, fun k => ?_, fun a ha' b hb' hne => ?_⟩
  · rw [key_modify_other (hnot x (List.mem_append_right _ hx)), key_modify_other (hnot y (List.mem_append_right _ hy))]
    exact hxy
  · by_cases hk : k = h
    · subst hk
      have : (m.modify k f).cbOf k = none := by
        unfold TimerManager.cbOf
        rw [heap_modify, if_pos rfl]
        cases m.heap[k]? with
        | none => rfl
        | some t => exact hc t
      rw [this]
      simpa using hnd.1
    · rw [cbOf_modify_other hk, ← hl.live k]
      simp [hk]
  · rw [addrOf_modify ha, addrOf_modify ha]
    exact hl.addr a (List.mem_cons_of_mem _ ha') b (List.mem_cons_of_mem _ hb') hne

end Modify

/-! ## Taking timers out and putting them back -/

/-- A member taken out of the sequence is outside. -/
theorem Loose.remove {m : TimerManager C} {out pre post : List Nat} {h : Nat} (hl : Loose m out)
    (hs : m.timers = pre ++ h :: post) : Loose { m with timers := pre ++ post } (h :: out) := by
  have hp : (h :: out ++ (pre ++ post)).Perm (out ++ m.timers) := by
    rw [hs, List.cons_append]
    exact (List.perm_middle.symm.trans (List.Perm.append_left _ List.perm_middle.symm))
  refine ⟨?_, hp.nodup_iff.2 hl.nodup, fun k => hp.mem_iff.trans (hl.live k),
    fun a ha b hb => hl.addr a (hp.mem_iff.1 ha) b (hp.mem_iff.1 hb)⟩
  have ho := hl.ordered
  rw [hs] at ho
  exact List.Pairwise.sublist (List.Sublist.append_left (List.sublist_cons_self _ _) _) ho

/-- A leading part of the sequence taken out of it. -/
theorem Loose.removePrefix {m : TimerManager C} {out rest : List Nat} (hl : Loose m []) (hs : m.timers = out ++ rest) :
    Loose { m with timers := rest } out := by
  refine ⟨?_, by simpa [← hs] using hl.nodup, fun k => ?_, fun a ha b hb => ?_⟩
  · have ho := hl.ordered
    rw [hs] at ho
    exact List.Pairwise.sublist (List.sublist_append_right _ _) ho
  · show k ∈ out ++ rest ↔ (m.cbOf k).isSome
    rw [← hs]; simpa using hl.live k
  · rw [← hs] at ha hb
    exact hl.addr a ha b hb

/-- A member can be erased, also after changes that the comparator does not see. -/
theorem Loose.setErase {m : TimerManager C} {out : List Nat} (hl : Loose m out) (m' : TimerManager C) {h : Nat}
    (hm : h ∈ m.timers)
    (ht : m'.timers = m.timers) (hk : ∀ k, rank (m'.key k) = rank (m.key k)) :
    ∃ pre post, m.timers = pre ++ h :: post ∧ m'.setErase h = some { m' with timers := pre ++ post } := by
  have ho : OrderedSet.Ordered Before m'.key m'.timers := by
    rw [ht]; exact hl.ordered.imp fun x _ y _ hxy => before_congr (hk x) (hk y) hxy
  obtain ⟨pre, post, hs, he⟩ := OrderedSet.erase_mem ho (ht ▸ hm)
  exact ⟨pre, post, ht ▸ hs, by unfold TimerManager.setErase; rw [he]; rfl⟩

/-- A live timer outside the set can be inserted. -/
theorem Loose.setInsert {m : TimerManager C} {out : List Nat} {h : Nat} (hl : Loose m (h :: out)) :
    Loose (m.setInsert h) out ∧ ∃ pre post, m.timers = pre ++ post ∧ (m.setInsert h).timers = pre ++ h :: post := by
  have hnd := hl.nodup
  rw [List.cons_append, List.nodup_cons] at hnd
  have hx : ∀ y ∈ m.timers, Before (m.key h) (m.key y) ∨ Before (m.key y) (m.key h) := fun y hy =>
    hl.comparable (by simp) (by simp [hy]) (fun e => hnd.1 (by rw [e]; exact List.mem_append_right _ hy))
  obtain ⟨pre, post, hs, hi, ho⟩ := OrderedSet.insert_spec hl.ordered hx
  have hp : (out ++ (m.setInsert h).timers).Perm (h :: out ++ m.timers) := by
    show (out ++ OrderedSet.insert Before m.key h m.timers).Perm _
    rw [hi, hs, List.cons_append]
    exact (List.Perm.append_left _ List.perm_middle).trans List.perm_middle
  exact ⟨⟨ho, hp.nodup_iff.2 hl.nodup, fun k => hp.mem_iff.trans (hl.live k),
    fun a ha b hb => hl.addr a (hp.mem_iff.1 ha) b (hp.mem_iff.1 hb)⟩, pre, post, hs, hi⟩

theorem setInsert_heap (m : TimerManager C) (h : Nat) : (m.setInsert h).heap = m.heap := rfl

end ServerFrame.Timers
