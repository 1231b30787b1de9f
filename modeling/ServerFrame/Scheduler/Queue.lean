/-
The queue and the activity counter of `Scheduler::run`. Here `schedule()` may be called for any fiber at
any time, also for one that is queued already, is running or has ended; an assertion that fails still
leaves no step. A ledger beside the scheduler gives every entry of the queue a ticket and notes which
thread removes it, executes it or passes over it; it observes the scheduler and never restrains it.
-/
import ServerFrame.Scheduler.Basic
import ServerFrame.Lib.Run
import Mathlib.Algebra.BigOperators.Ring.Finset
import Mathlib.Data.Fintype.BigOperators

namespace ServerFrame.Schedulers

universe u v

variable {T : Type u} {C : Type v}

/-! ## The ledger -/

/-- One atomic action, with `schedule()` open to every fiber there is. (A task need not announce its
wake-up with `arm`, so it may finish or yield whatever it has scheduled.) -/
def Sched.nextAny [DecidableEq T] (s : Sched T C) : Act T C → Option (Sched T C)
  | .schedule (.fiber f) thread => if (s.fibers f).isSome then some (s.push ⟨.fiber f, thread⟩) else none
  | a => s.next a

theorem Sched.nextAny_schedule [DecidableEq T] {s s' : Sched T C} {task : Task C} {thread : Option T}
    (hs : s.nextAny (.schedule task thread) = some s') : s' = s.push ⟨task, thread⟩ := by
  cases task with
  | fiber f =>
    simp only [nextAny] at hs
    split at hs <;> cases hs
    rfl
  | cb c =>
    cases hs
    rfl

/-- The ticket of an entry: its number, and the thread its task was pinned to by the call of `schedule()` it
comes from, which is not the call that `run()` makes for a fiber that yields to `READY`. -/
structure Ticket (T : Type u) where
  id : Nat
  pin : Option T
  deriving DecidableEq

/-- A round of a thread's loop: the ticket and the task of the entry it took, and whether it has swapped
the task in. -/
structure Round (T : Type u) (C : Type v) where
  ticket : Ticket T
  task : Task C
  ran : Bool

/-- The scheduler and what is noted about it: the tickets of the queue, in its order, the round of every
thread, the number of tickets issued, and who removed, executed and passed over which ticket, the
last with the state its fiber had. -/
structure Ledger (T : Type u) (C : Type v) where
  sched : Sched T C
  tickets : List (Ticket T)
  round : T → Option (Round T C)
  issued : Nat
  removed : List (Ticket T × T)
  executed : List (Ticket T × T)
  dropped : List (Ticket T × T × Option FiberState)

/-- At the top of the loop. -/
def Pc.top : Pc C → Bool
  | .scan => true
  | _ => false

/-- The entries the thread `t` may run: not pinned to another thread, and the fiber not in state `EXEC`. -/
def allowed [DecidableEq T] (fibers : Nat → Option FiberState) (t : T) (e : Entry T C) : Bool :=
  (e.thread = none || e.thread = some t) && e.task.fiber?.bind fibers ≠ some .exec

namespace Ledger

variable [DecidableEq T]

def init : Ledger T C :=
  { sched := .init, tickets := [], round := fun _ => none, issued := 0, removed := [], executed := [], dropped := [] }

variable (l : Ledger T C)

/-- A ticket for an entry at the back of the queue. -/
def enqueue (pin : Option T) : Ledger T C :=
  { l with tickets := l.tickets ++ [⟨l.issued, pin⟩], issued := l.issued + 1 }

/-- The first entry the thread may run leaves the queue. -/
def take (t : T) : Ledger T C :=
  let i := l.sched.queue.findIdx (allowed l.sched.fibers t)
  match l.sched.queue[i]?, l.tickets[i]? with
  | some e, some k =>
    { l with
      tickets := l.tickets.eraseIdx i
      round := Function.update l.round t (some ⟨k, e.task, false⟩)
      removed := l.removed ++ [(k, t)] }
  | _, _ => l

/-- The task is swapped in. -/
def execute (t : T) : Ledger T C :=
  match l.round t with
  | none => l
  | some r =>
    { l with
      round := Function.update l.round t (some { r with ran := true })
      executed := l.executed ++ [(r.ticket, t)] }

/-- The thread is back at the top of its loop. -/
def endRound (t : T) : Ledger T C :=
  match l.round t with
  | none => l
  | some r =>
    { l with
      round := Function.update l.round t none
      dropped := if r.ran then l.dropped else l.dropped ++ [(r.ticket, t, r.task.fiber?.bind l.sched.fibers)] }

/-- What is noted about an action that leads to the scheduler `s`. -/
def note (s : Sched T C) : Act T C → Ledger T C
  | .schedule _ thread => l.enqueue thread
  | .scan t => l.take t
  | .swapIn t => l.execute t
  | .requeue t => (l.enqueue ((l.round t).bind (·.ticket.pin))).endRound t
  | .dispatch t _ | .inspect t | .assign t => if (s.pc t).top then l.endRound t else l
  | _ => l

/-- One atomic action and its note. -/
def next (a : Act T C) : Option (Ledger T C) :=
  (l.sched.nextAny a).map fun s => { l.note s a with sched := s }

def Step (a : Act T C) (l' : Ledger T C) : Prop := l.next a = some l'

end Ledger

/-! ## The counter -/

/-- Between the removal of an entry and the decrement for it. -/
def Pc.holding : Pc C → Bool
  | .scanned (some _) | .tickling (some _) | .chosen (some _) => true
  | .task _ _ .entering | .task _ _ .running | .task _ _ .armed | .task _ _ .yielding | .task _ _ .returned => true
  | _ => false

/-- The number of threads between the removal of an entry and the decrement for it. -/
def Sched.load [Fintype T] (s : Sched T C) : Int := ∑ t, if (s.pc t).holding then 1 else 0

section Load

variable [Fintype T] [DecidableEq T] {s s' : Sched T C}

theorem load_update {t : T} {p : Pc C} (h : s'.pc = Function.update s.pc t p) :
    s'.load + (if (s.pc t).holding then 1 else 0) = s.load + if p.holding then 1 else 0 := by
  unfold Sched.load
  -- the other threads stay where they are
  rw [← Finset.add_sum_erase _ _ (Finset.mem_univ t), ← Finset.add_sum_erase (Finset.univ) (fun u => if (s.pc u).holding
    then (1 : Int) else 0) (Finset.mem_univ t)]
  have hrest : ∑ u ∈ Finset.univ.erase t, (if (s'.pc u).holding then (1 : Int) else 0) =
      ∑ u ∈ Finset.univ.erase t, if (s.pc u).holding then 1 else 0 := by
    refine Finset.sum_congr rfl fun u hu => ?_
    rw [h, Function.update_of_ne (Finset.ne_of_mem_erase hu)]
  rw [hrest, h, Function.update_self]
  omega

/-- A thread moves and changes the counter by what the move takes or gives back. -/
theorem active_of_move {t : T} {p q : Pc C} (h : s.active = s.load) (hq : s.pc t = q)
    (hp : s'.pc = Function.update s.pc t p)
    (ha : s'.active + (if q.holding then 1 else 0) = s.active + if p.holding then 1 else 0) : s'.active = s'.load := by
  have hl := load_update hp
  rw [hq] at hl
  omega

omit [DecidableEq T] in
theorem active_of_same (h : s.active = s.load) (hp : s'.pc = s.pc) (ha : s'.active = s.active) :
    s'.active = s'.load := by
  unfold Sched.load at h ⊢
  rw [ha, hp, h]

omit [Fintype T] in
theorem dropCb_pc (s : Sched T C) (t : T) (cb : Bool) :
    (s.dropCb t cb).pc = s.pc ∧ (s.dropCb t cb).active = s.active ∧ (s.dropCb t cb).queue = s.queue := by
  unfold Sched.dropCb
  split <;> exact ⟨rfl, rfl, rfl⟩

/-- After a scan a thread holds what it has found. -/
theorem holding_found (b : Bool) (ft : Option (Task C)) :
    (if b then Pc.scanned ft else .chosen ft).holding = ft.isSome := by
  cases b <;> cases ft <;> rfl

theorem scan_active (h : s.active = s.load) {t : T} (hs : s.next (.scan t) = some s') : s'.active = s'.load := by
  obtain ⟨hpt, rfl⟩ := Sched.next_scan hs
  refine active_of_move h hpt rfl ?_
  rw [holding_found]
  simp only [Sched.goto, Pc.holding]
  split <;> simp

theorem dispatch_active (h : s.active = s.load) {t : T} {g : Nat} (hs : s.next (.dispatch t g) = some s') :
    s'.active = s'.load := by
  rcases Sched.next_dispatch hs with ⟨f, hpt, ⟨-, rfl⟩ | ⟨-, rfl⟩⟩ | ⟨c, hpt, ⟨f, -, -, rfl⟩ | ⟨-, -, rfl⟩⟩ | ⟨hpt, rfl⟩
  · exact active_of_move h hpt rfl (by simp [Sched.goto, Pc.holding])
  · exact active_of_move h hpt rfl (by simp [Sched.goto, Pc.holding])
  · exact active_of_move h hpt rfl (by simp [Sched.goto, Sched.setState, Pc.holding])
  · exact active_of_move h hpt rfl (by simp [Sched.goto, Sched.setState, Pc.holding])
  · exact active_of_move h hpt rfl (by simp [Sched.goto, Pc.holding])

/-- Every action changes the counter as it moves its thread. -/
theorem active_step (h : s.active = s.load) {a : Act T C} (hs : s.nextAny a = some s') : s'.active = s'.load := by
  cases a with
  | create f =>
    obtain ⟨-, rfl⟩ := Sched.next_create hs
    exact active_of_same h rfl rfl
  | schedule task thread =>
    obtain rfl := Sched.nextAny_schedule hs
    exact active_of_same h rfl rfl
  | test =>
    obtain ⟨-, ⟨-, rfl⟩ | ⟨-, rfl⟩⟩ := Sched.next_test hs
    · exact active_of_same h rfl rfl
    · exact active_of_same h rfl rfl
  | write =>
    obtain ⟨-, rfl⟩ := Sched.next_write hs
    exact active_of_same h rfl rfl
  | scan t => exact scan_active h hs
  | dispatch t g => exact dispatch_active h hs
  | scanTest t =>
    obtain ⟨ft, hpt, rfl⟩ := Sched.next_scanTest hs
    refine active_of_move h hpt rfl ?_
    cases ft <;> by_cases hi : s.idle = 0 <;> simp [Sched.goto, Pc.holding, hi]
  | scanWrite t =>
    obtain ⟨ft, hpt, rfl⟩ := Sched.next_scanWrite hs
    refine active_of_move h hpt rfl ?_
    cases ft <;> rfl
  | swapIn t =>
    obtain ⟨f, cb, hpt, -, rfl⟩ := Sched.next_swapIn hs
    exact active_of_move h hpt rfl rfl
  | inspect t =>
    obtain ⟨f, cb, hpt, ⟨-, rfl⟩ | ⟨-, -, rfl⟩ | ⟨-, -, rfl⟩⟩ := Sched.next_inspect hs
    · exact active_of_move h hpt rfl rfl
    · cases cb <;> exact active_of_move h hpt rfl rfl
    · exact active_of_move h hpt rfl rfl
  | requeue t =>
    obtain ⟨f, cb, hpt, rfl⟩ := Sched.next_requeue hs
    refine active_of_move h hpt (by simp only [Sched.goto, dropCb_pc]; rfl) ?_
    simp only [Sched.goto, dropCb_pc]
    rfl
  | assign t =>
    obtain ⟨f, cb, hpt, rfl⟩ := Sched.next_assign hs
    refine active_of_move h hpt (by simp only [Sched.goto, dropCb_pc]; rfl) ?_
    simp only [Sched.goto, dropCb_pc]
    rfl
  | decrement t =>
    obtain ⟨f, cb, hpt, rfl⟩ := Sched.next_decrement hs
    exact active_of_move h hpt rfl (by simp [Sched.goto, Pc.holding])
  | drain t =>
    obtain ⟨-, rfl⟩ := Sched.next_drain hs
    exact active_of_same h rfl rfl
  | yieldToHold t =>
    obtain ⟨f, cb, ⟨hpt, rfl⟩ | ⟨hpt, rfl⟩⟩ := Sched.next_yieldToHold hs
    · exact active_of_move h hpt rfl rfl
    · exact active_of_move h hpt rfl rfl
  | arm t | yieldToReady t | finish t _ | save t | block t | wake t | leave t =>
    -- a move between positions of which both hold a task or neither does
    simp only [Sched.nextAny, Sched.next] at hs
    split at hs
    · rename_i hpt
      cases hs
      exact active_of_move h hpt rfl rfl
    · cases hs

end Load

/-! ## The books -/

/-- The books of a ledger: every ticket issued is in the queue or was removed once, by one thread; a ticket
is executed at most once, by the thread that removed it; and a ticket that was removed has been
executed, passed over, or is in the hands of that thread on the way to its execution. -/
structure Ledger.Books (l : Ledger T C) : Prop where
  once : (l.tickets.map (·.id) ++ l.removed.map (·.1.id)).Perm (List.range l.issued)
  underway : ∀ t r, l.round t = some r → (r.ticket, t) ∈ l.removed ∧
    (r.ran = false → r.ticket.id ∉ l.executed.map (·.1.id))
  single : (l.executed.map (·.1.id)).Nodup
  remover : ∀ p ∈ l.executed, p ∈ l.removed
  fate : ∀ k t, (k, t) ∈ l.removed → (k, t) ∈ l.executed ∨ (∃ st, (k, t, st) ∈ l.dropped) ∨
    ∃ r, l.round t = some r ∧ r.ticket = k ∧ r.ran = false

section Books

variable [DecidableEq T] {l : Ledger T C} {t : T}

omit [DecidableEq T] in
theorem Ledger.Books.of_eq {l' : Ledger T C} (h : l.Books) (ht : l'.tickets = l.tickets) (hr : l'.round = l.round)
    (hi : l'.issued = l.issued) (hm : l'.removed = l.removed) (he : l'.executed = l.executed)
    (hd : l'.dropped = l.dropped) : l'.Books :=
  ⟨by rw [ht, hm, hi]; exact h.once, by rw [hr, hm, he]; exact h.underway, by rw [he]; exact h.single,
    by rw [he, hm]; exact h.remover, by rw [hm, he, hd, hr]; exact h.fate⟩

omit [DecidableEq T] in
theorem Ledger.Books.nodup (h : l.Books) : (l.tickets.map (·.id) ++ l.removed.map (·.1.id)).Nodup :=
  h.once.nodup_iff.2 List.nodup_range

omit [DecidableEq T] in
/-- A number stands for one removal. -/
theorem Ledger.Books.removed_inj (h : l.Books) {p q : Ticket T × T} (hp : p ∈ l.removed) (hq : q ∈ l.removed)
    (he : p.1.id = q.1.id) : p = q :=
  List.inj_on_of_nodup_map (List.nodup_append.1 h.nodup).2.1 hp hq he

omit [DecidableEq T] in
theorem Ledger.Books.enqueue (h : l.Books) (pin : Option T) : (l.enqueue pin).Books := by
  refine ⟨?_, h.underway, h.single, h.remover, h.fate⟩
  show ((l.tickets ++ [(⟨l.issued, pin⟩ : Ticket T)]).map Ticket.id ++ l.removed.map (·.1.id)).Perm
    (List.range (l.issued + 1))
  rw [List.map_append, List.range_succ, List.append_assoc]
  exact (List.perm_append_comm_assoc ..).trans ((List.Perm.append_left _ h.once).trans List.perm_append_comm)

theorem Ledger.Books.take (h : l.Books) (hr : l.round t = none) : (l.take t).Books := by
  unfold Ledger.take
  simp only
  split
  · rename_i e k he hk
    set i := l.sched.queue.findIdx (allowed l.sched.fibers t)
    have hkm : k ∈ l.tickets := List.mem_of_getElem? hk
    have hlt : i < l.tickets.length := (List.getElem?_eq_some_iff.1 hk).1
    -- the number of a queued ticket is not among those removed
    have hnew : k.id ∉ l.removed.map (·.1.id) := fun hm =>
      (List.nodup_append.1 h.nodup).2.2 _ (List.mem_map_of_mem hkm) _ hm rfl
    have hother : ∀ {u r}, l.round u = some r → u ≠ t := by
      rintro u r hu rfl
      rw [hr] at hu
      cases hu
    refine ⟨?_, fun u r hu => ?_, h.single, fun p hp => List.mem_append_left _ (h.remover p hp), fun k' u hm => ?_⟩
    · have hperm : l.tickets.Perm (k :: l.tickets.eraseIdx i) := by
        have hget : l.tickets.get ⟨i, hlt⟩ = k := (List.getElem?_eq_some_iff.1 hk).2
        rw [← hget]
        exact (List.getElem_cons_eraseIdx_perm hlt).symm
      have h1 := ((hperm.map (·.id)).append_right (l.removed.map (·.1.id))).symm.trans h.once
      refine List.Perm.trans ?_ h1
      show ((l.tickets.eraseIdx i).map (·.id) ++ (l.removed ++ [(k, t)]).map (·.1.id)).Perm _
      rw [List.map_append, ← List.append_assoc]
      exact List.perm_append_singleton _ _
    · by_cases hut : u = t
      · subst hut
        simp only [Function.update_self] at hu
        cases hu
        refine ⟨by simp, fun _ hx => hnew ?_⟩
        obtain ⟨p, hp, hpe⟩ := List.mem_map.1 hx
        exact List.mem_map.2 ⟨p, h.remover p hp, hpe⟩
      · simp only [Function.update_of_ne hut] at hu
        exact ⟨List.mem_append_left _ (h.underway u r hu).1, (h.underway u r hu).2⟩
    · rcases List.mem_append.1 hm with hm | hm
      · rcases h.fate k' u hm with h1 | h1 | ⟨r, h1, h2, h3⟩
        · exact .inl h1
        · exact .inr (.inl h1)
        · exact .inr (.inr ⟨r, (Function.update_of_ne (hother h1) ..).trans h1, h2, h3⟩)
      · rw [List.mem_singleton] at hm
        cases hm
        exact .inr (.inr ⟨_, Function.update_self .., rfl, rfl⟩)
  · exact h

theorem Ledger.Books.execute (h : l.Books) {r : Round T C} (hr : l.round t = some r) (hn : r.ran = false) :
    (l.execute t).Books := by
  unfold Ledger.execute
  simp only [hr]
  obtain ⟨hmem, hnot⟩ := h.underway t r hr
  refine ⟨h.once, fun u r' hu => ?_, ?_, fun p hp => ?_, fun k u hm => ?_⟩
  · by_cases hut : u = t
    · subst hut
      simp only [Function.update_self] at hu
      cases hu
      exact ⟨hmem, nofun⟩
    · simp only [Function.update_of_ne hut] at hu
      refine ⟨(h.underway u r' hu).1, fun hf hx => ?_⟩
      simp only [List.map_append, List.mem_append, List.map_cons, List.map_nil, List.mem_singleton] at hx
      rcases hx with hx | hx
      · exact (h.underway u r' hu).2 hf hx
      · exact hut (congrArg Prod.snd (h.removed_inj (h.underway u r' hu).1 hmem hx))
  · rw [List.map_append, List.nodup_append]
    refine ⟨h.single, List.nodup_singleton _, fun a ha b hb => ?_⟩
    rw [List.map_singleton, List.mem_singleton] at hb
    rintro rfl
    exact hnot hn (hb ▸ ha)
  · rcases List.mem_append.1 hp with hp | hp
    · exact h.remover p hp
    · rw [List.mem_singleton] at hp
      rw [hp]
      exact hmem
  · rcases h.fate k u hm with h1 | h1 | ⟨r', h1, h2, h3⟩
    · exact .inl (List.mem_append_left _ h1)
    · exact .inr (.inl h1)
    · by_cases hut : u = t
      · subst hut
        rw [hr] at h1
        cases h1
        exact .inl (by simp [← h2])
      · exact .inr (.inr ⟨r', (Function.update_of_ne hut ..).trans h1, h2, h3⟩)

theorem Ledger.Books.endRound (h : l.Books) (t : T) : (l.endRound t).Books := by
  unfold Ledger.endRound
  cases hr : l.round t with
  | none => exact h
  | some r =>
    have hmem : ∀ {x}, x ∈ l.dropped → x ∈ (if r.ran then l.dropped else
        l.dropped ++ [(r.ticket, t, r.task.fiber?.bind l.sched.fibers)]) := by
      intro x hx
      split
      · exact hx
      · exact List.mem_append_left _ hx
    refine ⟨h.once, fun u r' hu => ?_, h.single, h.remover, fun k u hm => ?_⟩
    · by_cases hut : u = t
      · subst hut
        simp only [Function.update_self] at hu
        cases hu
      · simp only [Function.update_of_ne hut] at hu
        exact h.underway u r' hu
    · rcases h.fate k u hm with h1 | ⟨st, h1⟩ | ⟨r', h1, h2, h3⟩
      · exact .inl h1
      · exact .inr (.inl ⟨st, hmem h1⟩)
      · by_cases hut : u = t
        · subst hut
          rw [hr] at h1
          cases h1
          exact .inr (.inl ⟨r.task.fiber?.bind l.sched.fibers, by simp [h3, h2]⟩)
        · exact .inr (.inr ⟨r', (Function.update_of_ne hut ..).trans h1, h2, h3⟩)

end Books

/-! ## One action -/

/-- What the position of a thread says about its round. -/
def Pc.Matches : Pc C → Option (Round T C) → Prop
  | .scanned (some k), some r | .tickling (some k), some r | .chosen (some k), some r => r.task = k ∧ r.ran = false
  | .task _ _ .entering, some r => r.ran = false
  | .task _ _ _, some r => r.ran = true
  | .scan, none | .scanned none, none | .tickling none, none | .chosen none, none => True
  | .idling, none | .blocked, none | .woken, none => True
  | _, _ => False

section Scan

variable [DecidableEq T]

theorem allowed_iff (fibers : Nat → Option FiberState) (t : T) (e : Entry T C) :
    allowed fibers t e = true ↔ ¬ Skipped fibers t e := by
  unfold allowed Skipped
  simp only [ne_eq, decide_not, Bool.and_eq_true, Bool.or_eq_true, decide_eq_true_eq, Bool.not_eq_eq_eq_not,
    Bool.not_true, decide_eq_false_iff_not, not_or, not_and, not_not]
  constructor
  · rintro ⟨h1, h2⟩
    exact ⟨h1.resolve_left, h2⟩
  · rintro ⟨h1, h2⟩
    refine ⟨?_, h2⟩
    by_cases hn : e.thread = none
    · exact .inl hn
    · exact .inr (h1 hn)

/-- A scan takes out the first entry the thread may run. -/
theorem pick_eq (fibers : Nat → Option FiberState) (t : T) : ∀ q : List (Entry T C),
    (pick fibers t q).1 = q[q.findIdx (allowed fibers t)]?.map (·.task) ∧
    (pick fibers t q).2.1 = q.eraseIdx (q.findIdx (allowed fibers t))
  | [] => ⟨rfl, rfl⟩
  | e :: q => by
    obtain ⟨h1, h2⟩ := pick_eq fibers t q
    have ha := allowed_iff fibers t e
    unfold pick
    rw [List.findIdx_cons]
    split
    · rename_i hp
      have hf : allowed fibers t e = false := Bool.eq_false_iff.2 fun h => ha.1 h (.inl hp)
      simp [hf, h1, h2]
    · rename_i hp
      split
      · rename_i hx
        have hf : allowed fibers t e = false := Bool.eq_false_iff.2 fun h => ha.1 h (.inr hx)
        simp [hf, h1, h2]
      · rename_i hx
        have hf : allowed fibers t e = true := ha.2 fun h => h.elim hp hx
        simp [hf]

end Scan

/-- The invariant of the ledger. -/
structure Ledger.Sound [Fintype T] (l : Ledger T C) : Prop where
  active : l.sched.active = l.sched.load
  length : l.tickets.length = l.sched.queue.length
  rounds : ∀ t, (l.sched.pc t).Matches (l.round t)
  books : l.Books
  ended : ∀ k t st, (k, t, st) ∈ l.dropped → st = some .term ∨ st = some .except

section Step

variable [Fintype T] [DecidableEq T] {l l' : Ledger T C} {s : Sched T C} {a : Act T C} {t : T}

/-- An action without a note whose threads are where their rounds say. -/
theorem Ledger.Sound.unnoted (h : l.Sound) (hs : l.sched.nextAny a = some s) (hn : l.note s a = l)
    (hlen : s.queue = l.sched.queue) (hrounds : ∀ u, (s.pc u).Matches (l.round u)) :
    ({ l.note s a with sched := s } : Ledger T C).Sound := by
  rw [hn]
  exact ⟨active_step h.active hs, by rw [h.length, ← hlen], hrounds, h.books.of_eq rfl rfl rfl rfl rfl rfl, h.ended⟩

/-- An action without a note moves a thread to a position that says the same about its round. -/
theorem Ledger.Sound.quiet (h : l.Sound) {p q : Pc C} (hs : l.sched.nextAny a = some s) (hn : l.note s a = l)
    (hq : l.sched.pc t = q) (hp : s.pc = Function.update l.sched.pc t p) (hlen : s.queue = l.sched.queue)
    (hpq : ∀ r : Option (Round T C), q.Matches r → p.Matches r) :
    ({ l.note s a with sched := s } : Ledger T C).Sound := by
  refine h.unnoted hs hn hlen fun u => ?_
  rw [hp]
  by_cases hu : u = t
  · subst hu
    rw [Function.update_self]
    exact hpq _ (hq ▸ h.rounds u)
  · rw [Function.update_of_ne hu]
    exact h.rounds u

/-- An action that moves no thread. -/
theorem Ledger.Sound.still (h : l.Sound) (hs : l.sched.nextAny a = some s) (hn : l.note s a = l)
    (hp : s.pc = l.sched.pc) (hlen : s.queue = l.sched.queue) :
    ({ l.note s a with sched := s } : Ledger T C).Sound := by
  refine h.unnoted hs hn hlen fun u => ?_
  rw [hp]
  exact h.rounds u

/-- A thread comes back to the top of its loop with a task that ran, or whose fiber has ended. -/
theorem Ledger.Sound.close (h : l.Sound) {l₀ : Ledger T C} (hs : l.sched.nextAny a = some s)
    (hp : s.pc = Function.update l.sched.pc t .scan) (hlen : l₀.tickets.length = s.queue.length)
    (hb : l₀.Books) (hr : l₀.round = l.round) (hd : l₀.dropped = l.dropped) (hf : l₀.sched = l.sched)
    (hran : ∀ r, l.round t = some r → r.ran = false → r.task.fiber?.bind l.sched.fibers = some .term ∨
      r.task.fiber?.bind l.sched.fibers = some .except) :
    ({ l₀.endRound t with sched := s } : Ledger T C).Sound := by
  refine ⟨active_step h.active hs, ?_, fun u => ?_, (hb.endRound t).of_eq rfl rfl rfl rfl rfl rfl, fun k u st hm => ?_⟩
  · rw [← hlen]
    unfold Ledger.endRound
    split <;> rfl
  · show (s.pc u).Matches ((l₀.endRound t).round u)
    rw [hp]
    by_cases hu : u = t
    · subst hu
      rw [Function.update_self]
      unfold Ledger.endRound
      split
      · rename_i hn
        rw [hn]
        trivial
      · simp only [Function.update_self]
        trivial
    · rw [Function.update_of_ne hu]
      have hsame : (l₀.endRound t).round u = l.round u := by
        unfold Ledger.endRound
        split
        · rw [hr]
        · simp only [Function.update_of_ne hu, hr]
      rw [hsame]
      exact h.rounds u
  · unfold Ledger.endRound at hm
    split at hm
    · exact h.ended k u st (hd ▸ hm)
    · rename_i r hrt
      rw [hr] at hrt
      simp only at hm
      split at hm
      · exact h.ended k u st (hd ▸ hm)
      · rename_i hn
        rcases List.mem_append.1 hm with hm | hm
        · exact h.ended k u st (hd ▸ hm)
        · rw [List.mem_singleton] at hm
          cases hm
          rw [hf]
          exact hran r hrt (by simpa using hn)

theorem Ledger.Sound.schedule (h : l.Sound) {task : Task C} {thread : Option T}
    (hs : l.sched.nextAny (.schedule task thread) = some s) :
    ({ l.note s (.schedule task thread) with sched := s } : Ledger T C).Sound := by
  have hs' := Sched.nextAny_schedule hs
  refine ⟨active_step h.active hs, ?_, fun u => ?_, (h.books.enqueue thread).of_eq rfl rfl rfl rfl rfl rfl, h.ended⟩
  · rw [hs']
    simp [Ledger.note, Ledger.enqueue, Sched.push, h.length]
  · show (s.pc u).Matches (l.round u)
    rw [hs']
    exact h.rounds u

theorem Ledger.Sound.scan (h : l.Sound) (hs : l.sched.nextAny (.scan t) = some s) :
    ({ l.note s (.scan t) with sched := s } : Ledger T C).Sound := by
  have hact := active_step h.active hs
  obtain ⟨hpt, rfl⟩ := Sched.next_scan hs
  have hround : l.round t = none := by
    have hm := h.rounds t
    rw [hpt] at hm
    cases hr : l.round t with
    | none => rfl
    | some r => rw [hr] at hm; exact hm.elim
  obtain ⟨hft, hrest⟩ := pick_eq l.sched.fibers t l.sched.queue
  set i := l.sched.queue.findIdx (allowed l.sched.fibers t) with hi
  refine ⟨hact, ?_, fun u => ?_, (h.books.take hround).of_eq rfl rfl rfl rfl rfl rfl, ?_⟩
  · show (l.take t).tickets.length = (pick l.sched.fibers t l.sched.queue).2.1.length
    rw [hrest]
    unfold Ledger.take
    simp only [← hi]
    rcases Nat.lt_or_ge i l.sched.queue.length with hlt | hge
    · rw [List.getElem?_eq_getElem hlt, List.getElem?_eq_getElem (h.length ▸ hlt)]
      simp [List.length_eraseIdx, h.length]
    · rw [List.getElem?_eq_none hge]
      simp [List.length_eraseIdx, h.length, Nat.not_lt.2 hge]
  · show (Function.update l.sched.pc t _ u).Matches ((l.take t).round u)
    unfold Ledger.take
    simp only [← hi]
    rw [hft]
    by_cases hu : u = t
    · subst hu
      rw [Function.update_self]
      rcases Nat.lt_or_ge i l.sched.queue.length with hlt | hge
      · rw [List.getElem?_eq_getElem hlt, List.getElem?_eq_getElem (h.length ▸ hlt)]
        simp only [Function.update_self, Option.map_some]
        split <;> exact ⟨rfl, rfl⟩
      · rw [List.getElem?_eq_none hge]
        simp only [hround, Option.map_none]
        split <;> trivial
    · rw [Function.update_of_ne hu]
      split
      · simp only [Function.update_of_ne hu]
        exact h.rounds u
      · exact h.rounds u
  · intro k u st hm
    have hd : (l.take t).dropped = l.dropped := by
      unfold Ledger.take
      simp only
      split <;> rfl
    exact h.ended k u st (hd ▸ hm)

theorem Ledger.Sound.swapIn (h : l.Sound) (hs : l.sched.nextAny (.swapIn t) = some s) :
    ({ l.note s (.swapIn t) with sched := s } : Ledger T C).Sound := by
  have hact := active_step h.active hs
  obtain ⟨f, cb, hpt, -, rfl⟩ := Sched.next_swapIn hs
  have hm := h.rounds t
  rw [hpt] at hm
  cases hr : l.round t with
  | none => rw [hr] at hm; exact hm.elim
  | some r =>
    rw [hr] at hm
    have hx : l.execute t = { l with
        round := Function.update l.round t (some { r with ran := true })
        executed := l.executed ++ [(r.ticket, t)] } := by
      unfold Ledger.execute
      rw [hr]
    refine ⟨hact, ?_, fun u => ?_, (h.books.execute hr hm).of_eq rfl rfl rfl rfl rfl rfl, ?_⟩
    · show (l.execute t).tickets.length = l.sched.queue.length
      rw [hx]
      exact h.length
    · show (Function.update l.sched.pc t _ u).Matches ((l.execute t).round u)
      rw [hx]
      by_cases hu : u = t
      · subst hu
        simp only [Function.update_self]
        rfl
      · simp only [Function.update_of_ne hu]
        exact h.rounds u
    · intro k u st hd
      replace hd : (k, u, st) ∈ (l.execute t).dropped := hd
      rw [hx] at hd
      exact h.ended k u st hd

omit [DecidableEq T] in
/-- A thread that works on a task after the swap has run it. -/
theorem Ledger.Sound.ran (h : l.Sound) {f : Nat} {cb : Bool} {st : Stage} (hpt : l.sched.pc t = .task f cb st)
    (hst : st ≠ .entering) : ∀ r, l.round t = some r → r.ran = true := by
  intro r hr
  have hm := h.rounds t
  rw [hpt, hr] at hm
  cases st <;> first | exact hm | exact absurd rfl hst

theorem Ledger.Sound.requeue (h : l.Sound) (hs : l.sched.nextAny (.requeue t) = some s) :
    ({ l.note s (.requeue t) with sched := s } : Ledger T C).Sound := by
  obtain ⟨f, cb, hpt, rfl⟩ := Sched.next_requeue hs
  refine h.close hs (by simp only [Sched.goto, dropCb_pc]; rfl) ?_ (h.books.enqueue _) rfl rfl rfl fun r hr hn => ?_
  · simp only [Sched.goto, dropCb_pc]
    simp [Ledger.enqueue, Sched.push, h.length]
  · rw [h.ran hpt (by decide) r hr] at hn
    cases hn

theorem Ledger.Sound.assign (h : l.Sound) (hs : l.sched.nextAny (.assign t) = some s) :
    ({ l.note s (.assign t) with sched := s } : Ledger T C).Sound := by
  obtain ⟨f, cb, hpt, rfl⟩ := Sched.next_assign hs
  have hpc : (((l.sched.setState f .hold).dropCb t cb).goto t .scan).pc = Function.update l.sched.pc t .scan := by
    simp only [Sched.goto, dropCb_pc]
    rfl
  have htop : ((((l.sched.setState f .hold).dropCb t cb).goto t .scan).pc t).top = true := by
    rw [hpc, Function.update_self]
    rfl
  simp only [Ledger.note, htop, if_true]
  refine h.close hs hpc ?_ h.books rfl rfl rfl fun r hr hn => ?_
  · simp only [Sched.goto, dropCb_pc]
    exact h.length
  · rw [h.ran hpt (by decide) r hr] at hn
    cases hn

theorem Ledger.Sound.inspect (h : l.Sound) (hs : l.sched.nextAny (.inspect t) = some s) :
    ({ l.note s (.inspect t) with sched := s } : Ledger T C).Sound := by
  have hsame : ∀ {f : Nat} {cb : Bool} {st : Stage}, st ≠ .entering → ∀ r : Option (Round T C),
      (Pc.task f cb .inspecting : Pc C).Matches r → (Pc.task f cb st : Pc C).Matches r := by
    intro f cb st hst r hm
    cases r with
    | none => exact hm.elim
    | some r => cases st <;> first | exact hm | exact absurd rfl hst
  obtain ⟨f, cb, hpt, ⟨-, rfl⟩ | ⟨-, -, rfl⟩ | ⟨-, -, rfl⟩⟩ := Sched.next_inspect hs
  · exact h.quiet hs (by simp [Ledger.note, Sched.goto, Pc.top]) hpt rfl rfl (hsame (by decide))
  · have htop : (((if cb then l.sched.setState f .init else l.sched).goto t .scan).pc t).top = true := by
      simp [Sched.goto, Pc.top]
    simp only [Ledger.note, htop, if_true]
    refine h.close hs ?_ ?_ h.books rfl rfl rfl fun r hr hn => ?_
    · cases cb <;> rfl
    · cases cb <;> exact h.length
    · rw [h.ran hpt (by decide) r hr] at hn
      cases hn
  · exact h.quiet hs (by simp [Ledger.note, Sched.goto, Pc.top]) hpt rfl rfl (hsame (by decide))

theorem Ledger.Sound.dispatch (h : l.Sound) {g : Nat} (hs : l.sched.nextAny (.dispatch t g) = some s) :
    ({ l.note s (.dispatch t g) with sched := s } : Ledger T C).Sound := by
  have hnew : ∀ {k : Task C} {f : Nat} {cb : Bool} (r : Option (Round T C)),
      (Pc.chosen (some k) : Pc C).Matches r → (Pc.task f cb .entering : Pc C).Matches r := by
    intro k f cb r hm
    cases r with
    | none => exact hm.elim
    | some r => exact hm.2
  rcases Sched.next_dispatch hs with ⟨f, hpt, ⟨hend, rfl⟩ | ⟨-, rfl⟩⟩ |
    ⟨c, hpt, ⟨f, -, -, rfl⟩ | ⟨-, -, rfl⟩⟩ | ⟨hpt, rfl⟩
  · have htop : ((({ l.sched with active := l.sched.active - 1 } : Sched T C).goto t .scan).pc t).top = true := by
      simp [Sched.goto, Pc.top]
    simp only [Ledger.note, htop, if_true]
    refine h.close hs rfl h.length h.books rfl rfl rfl fun r hr hn => ?_
    have hm := h.rounds t
    rw [hpt, hr] at hm
    rw [hm.1]
    unfold Sched.ended at hend
    simpa [Task.fiber?] using hend
  · exact h.quiet hs (by simp [Ledger.note, Sched.goto, Pc.top]) hpt rfl rfl hnew
  · exact h.quiet hs (by simp [Ledger.note, Sched.goto, Pc.top]) hpt rfl rfl hnew
  · exact h.quiet hs (by simp [Ledger.note, Sched.goto, Pc.top]) hpt rfl rfl hnew
  · refine h.quiet hs (by simp [Ledger.note, Sched.goto, Pc.top]) hpt rfl rfl fun r hm => ?_
    cases r with
    | none => trivial
    | some r => exact hm.elim

/-- Every action keeps the invariant. -/
theorem sound_step (h : l.Sound) (hst : l.Step a l') : l'.Sound := by
  unfold Ledger.Step Ledger.next at hst
  obtain ⟨s, hs, rfl⟩ := Option.map_eq_some_iff.1 hst
  cases a with
  | schedule task thread => exact h.schedule hs
  | scan t => exact h.scan hs
  | dispatch t g => exact h.dispatch hs
  | swapIn t => exact h.swapIn hs
  | inspect t => exact h.inspect hs
  | requeue t => exact h.requeue hs
  | assign t => exact h.assign hs
  | create f =>
    obtain ⟨-, rfl⟩ := Sched.next_create hs
    exact h.still hs rfl rfl rfl
  | write =>
    obtain ⟨-, rfl⟩ := Sched.next_write hs
    exact h.still hs rfl rfl rfl
  | drain t =>
    obtain ⟨-, rfl⟩ := Sched.next_drain hs
    exact h.still hs rfl rfl rfl
  | test =>
    obtain ⟨-, ⟨-, rfl⟩ | ⟨-, rfl⟩⟩ := Sched.next_test hs
    · exact h.still hs rfl rfl rfl
    · exact h.still hs rfl rfl rfl
  | scanTest t =>
    obtain ⟨ft, hpt, rfl⟩ := Sched.next_scanTest hs
    refine h.quiet hs rfl hpt rfl rfl fun r hm => ?_
    split <;> cases ft <;> cases r <;> exact hm
  | scanWrite t =>
    obtain ⟨ft, hpt, rfl⟩ := Sched.next_scanWrite hs
    refine h.quiet hs rfl hpt rfl rfl fun r hm => ?_
    cases ft <;> cases r <;> exact hm
  | yieldToHold t =>
    obtain ⟨f, cb, ⟨hpt, rfl⟩ | ⟨hpt, rfl⟩⟩ := Sched.next_yieldToHold hs
    · refine h.quiet hs rfl hpt rfl rfl fun r hm => ?_
      cases r <;> exact hm
    · refine h.quiet hs rfl hpt rfl rfl fun r hm => ?_
      cases r <;> exact hm
  | arm t | yieldToReady t | finish t _ | save t | decrement t | block t | wake t | leave t =>
    -- the round of the thread goes on, or there is none before and after
    have hs0 := hs
    simp only [Sched.nextAny, Sched.next] at hs
    split at hs
    · rename_i hpt
      cases hs
      refine h.quiet hs0 rfl hpt rfl rfl fun r hm => ?_
      cases r <;> exact hm
    · cases hs

end Step

/-! ## Runs -/

theorem init_sound [Fintype T] [DecidableEq T] : (Ledger.init : Ledger T C).Sound := by
  refine ⟨?_, rfl, fun _ => trivial, ⟨.refl _, nofun, .nil, nofun, nofun⟩, nofun⟩
  unfold Sched.load
  simp [Ledger.init, Sched.init, Pc.holding]

/-- A thread with a task that it has not swapped in is between the removal and the decrement. -/
theorem Ledger.Sound.holding [Fintype T] {l : Ledger T C} (h : l.Sound) {t : T} {r : Round T C}
    (hr : l.round t = some r) (hn : r.ran = false) : (l.sched.pc t).holding = true := by
  have hm := h.rounds t
  rw [hr] at hm
  revert hm
  unfold Pc.Matches Pc.holding
  split <;> simp_all

end ServerFrame.Schedulers
