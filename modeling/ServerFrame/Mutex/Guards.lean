/-
The mutexes of `mutex.h` and their guards: whatever threads do under a `ScopedLockImpl`, a `ReadScopedLockImpl` or a
`WriteScopedLockImpl`, step by step, they could have done at once.
-/
import ServerFrame.Lib.Sections
import Mathlib.Data.Finset.Card

namespace ServerFrame.Mutexes

open Sections

universe u v w x

/-! ## Mutexes -/

/-- A class of mutexes: its states, one attempt of `lock()` or `wrlock()` and of `rdlock()`, which says whether the
mutex has been acquired, and `unlock()`. -/
structure Mutex where
  State : Type
  init : State
  acquire : Mode → State → Bool × State
  release : State → State

/-- `Mutex` and `Spinlock`: `pthread_mutex_lock` and `pthread_spin_lock` wait while it is locked. -/
def mutex : Mutex where
  State := Bool
  init := false
  acquire _ locked := (!locked, true)
  release _ := false

/-- `std::atomic_flag_test_and_set_explicit`: what the flag was, and the flag. -/
def testAndSet (flag : Bool) : Bool × Bool := (flag, true)

/-- `CASLock`, with a turn of the loop in `lock()`. -/
def casLock : Mutex where
  State := Bool
  init := false
  acquire _ flag := (!(testAndSet flag).1, (testAndSet flag).2)
  release _ := false

/-- `RWMutex`: how many readers hold it, and whether a writer does. -/
def rwMutex : Mutex where
  State := Nat × Bool
  init := (0, false)
  acquire
    | .shared, (readers, writer) => if writer then (false, readers, writer) else (true, readers + 1, writer)
    | .exclusive, (readers, writer) =>
      if writer || readers != 0 then (false, readers, writer) else (true, readers, true)
  release := fun (readers, writer) => if writer then (readers, false) else (readers - 1, writer)

/-! ## Guards -/

/-- A guard in its `lock()`, with `m_locked`, and without. -/
inductive Status
  | waiting
  | locked
  | unlocked
deriving DecidableEq, Repr

/-- `lock()` of a guard, up to the `lock()` of its mutex. -/
def Status.lock : Status → Status
  | .waiting => .waiting
  | .locked => .locked
  | .unlocked => .waiting

/-- `unlock()` of a guard, which is also what its destructor does. -/
def Mutex.unlock (m : Mutex) : Status → m.State → Status × m.State
  | .waiting, k => (.waiting, k)
  | .locked, k => (.unlocked, m.release k)
  | .unlocked, k => (.unlocked, k)

/-- What a thread calls of its guards. -/
inductive Call (V : Type x)
  | construct (v : V) (mode : Mode)
  | lock (v : V)
  | unlock (v : V)
  | destroy (v : V)

/-- What a thread does, by its own state: a step that concerns nobody else, a call, and a look at the data or a
change of it. -/
structure Code (V : Type x) (L : Type v) (S : Type w) where
  go : L → L → Prop
  call : L → Call V → L → Prop
  read : L → S → L → Prop
  write : L → S → L → S → Prop

/-- The guards that a thread has, by their names. -/
abbrev Guards (V : Type x) := V → Option (Mode × Status)

/-- No guard is in its `lock()`. -/
def Guards.Running {V : Type x} (g : Guards V) : Prop := ∀ v n, g v ≠ some (n, .waiting)

/-- No guard is locked or in its `lock()`. -/
def Guards.Idle {V : Type x} (g : Guards V) : Prop := ∀ ⦃v n st⦄, g v = some (n, st) → st = .unlocked

/-- The mutex, the threads with their guards of it, and the data. -/
structure World (m : Mutex) (T : Type u) (V : Type x) (L : Type v) (S : Type w) where
  mutex : m.State
  locals : T → L
  guards : T → Guards V
  data : S

variable {m : Mutex} {T : Type u} {V : Type x} {L : Type v} {S : Type w}

/-- Before any guard. -/
def World.start (m : Mutex) (locals : T → L) (d : S) : World m T V L S := ⟨m.init, locals, fun _ _ => none, d⟩

variable [DecidableEq T] [DecidableEq V]

/-- The thread and its guards after a step. -/
def World.set (s : World m T V L S) (t : T) (l : L) (g : Guards V) : World m T V L S :=
  { s with locals := Function.update s.locals t l, guards := Function.update s.guards t g }

/-- The threads step by step. Under a guard that is locked for reading a thread may read the data, under one that is
locked for writing it may write them. A thread that has other guards of the mutex locks one where none of them is
locked: it would wait for itself. `modes` are those of the guards that the class has. -/
inductive World.Step (P : Code V L S) (modes : Mode → Prop) (s : World m T V L S) : World m T V L S → Prop
  | go {t : T} {l : L} (run : (s.guards t).Running) (h : P.go (s.locals t) l) :
      Step P modes s (s.set t l (s.guards t))
  | construct {t : T} {v : V} {n : Mode} {l : L} (new : s.guards t v = none) (alone : (s.guards t).Idle)
      (mode : modes n) (h : P.call (s.locals t) (.construct v n) l) :
      Step P modes s (s.set t l (Function.update (s.guards t) v (some (n, .waiting))))
  | attempt {t : T} {v : V} {n : Mode} (waiting : s.guards t v = some (n, .waiting)) :
      Step P modes s { s.set t (s.locals t) (Function.update (s.guards t) v
          (some (n, if (m.acquire n s.mutex).1 then .locked else .waiting))) with
        mutex := (m.acquire n s.mutex).2 }
  | lock {t : T} {v : V} {n : Mode} {st : Status} {l : L} (guard : s.guards t v = some (n, st))
      (run : (s.guards t).Running) (alone : st = .unlocked → (s.guards t).Idle) (h : P.call (s.locals t) (.lock v) l) :
      Step P modes s (s.set t l (Function.update (s.guards t) v (some (n, st.lock))))
  | unlock {t : T} {v : V} {n : Mode} {st : Status} {l : L} (guard : s.guards t v = some (n, st))
      (run : (s.guards t).Running) (h : P.call (s.locals t) (.unlock v) l) :
      Step P modes s { s.set t l (Function.update (s.guards t) v (some (n, (m.unlock st s.mutex).1))) with
        mutex := (m.unlock st s.mutex).2 }
  | destroy {t : T} {v : V} {n : Mode} {st : Status} {l : L} (guard : s.guards t v = some (n, st))
      (run : (s.guards t).Running) (h : P.call (s.locals t) (.destroy v) l) :
      Step P modes s { s.set t l (Function.update (s.guards t) v none) with mutex := (m.unlock st s.mutex).2 }
  | read {t : T} {v : V} {n : Mode} {l : L} (guard : s.guards t v = some (n, .locked))
      (h : P.read (s.locals t) s.data l) : Step P modes s (s.set t l (s.guards t))
  | write {t : T} {v : V} {l : L} {d : S} (guard : s.guards t v = some (.exclusive, .locked))
      (h : P.write (s.locals t) s.data l d) : Step P modes s { s.set t l (s.guards t) with data := d }

/-! ## What a mutex is -/

/-- A mutex can be acquired when there are so many readers, and maybe a writer. -/
def free : Mode → Nat × Bool → Prop
  | .shared, (_, writer) => writer = false
  | .exclusive, (readers, writer) => readers = 0 ∧ writer = false

/-- The readers and the writer after it has been acquired. -/
def taken : Mode → Nat × Bool → Nat × Bool
  | .shared, (readers, writer) => (readers + 1, writer)
  | .exclusive, (readers, _) => (readers, true)

/-- A mutex counts its holders, those for reading and the one for writing, and lets in whom it can. -/
structure Mutex.Counts (m : Mutex) (modes : Mode → Prop) (view : m.State → Nat × Bool) : Prop where
  init : view m.init = (0, false)
  acquires : ∀ {n k}, modes n → free n (view k) →
    (m.acquire n k).1 = true ∧ view (m.acquire n k).2 = taken n (view k)
  waits : ∀ {n k}, modes n → ¬ free n (view k) → (m.acquire n k).1 = false ∧ view (m.acquire n k).2 = view k
  release_shared : ∀ {k readers}, view k = (readers + 1, false) → view (m.release k) = (readers, false)
  release_exclusive : ∀ {k}, view k = (0, true) → view (m.release k) = (0, false)

/-- The guards of `Mutex`, `Spinlock` and `CASLock` are all for writing. -/
def onlyExclusive (n : Mode) : Prop := n = .exclusive

def anyMode (_ : Mode) : Prop := True

theorem mutex_counts : mutex.Counts onlyExclusive fun locked : Bool => (0, locked) where
  init := rfl
  acquires {n k} hn hfree := by
    cases hn
    obtain ⟨-, hk⟩ : 0 = 0 ∧ k = false := hfree
    subst hk
    exact ⟨rfl, rfl⟩
  waits {n k} hn hbusy := by
    cases hn
    have hk : k = true := Bool.eq_true_of_not_eq_false fun hfalse => hbusy ⟨rfl, hfalse⟩
    subst hk
    exact ⟨rfl, rfl⟩
  release_shared h := by cases h
  release_exclusive _ := rfl

theorem casLock_counts : casLock.Counts onlyExclusive fun flag : Bool => (0, flag) := mutex_counts

theorem rwMutex_counts : rwMutex.Counts anyMode id where
  init := rfl
  acquires {n k} _ hfree := by
    obtain ⟨readers, writer⟩ := k
    cases n with
    | shared =>
      obtain rfl : writer = false := hfree
      exact ⟨rfl, rfl⟩
    | exclusive =>
      obtain ⟨rfl, rfl⟩ : readers = 0 ∧ writer = false := hfree
      exact ⟨rfl, rfl⟩
  waits {n k} _ hbusy := by
    obtain ⟨readers, writer⟩ := k
    cases n with
    | shared =>
      obtain rfl : writer = true := Bool.eq_true_of_not_eq_false hbusy
      exact ⟨rfl, rfl⟩
    | exclusive =>
      have hbusy' : (writer || readers != 0) = true := by
        by_contra hidle
        simp only [Bool.or_eq_true, bne_iff_ne, not_or, Bool.not_eq_true, not_not] at hidle
        exact hbusy ⟨hidle.2, hidle.1⟩
      simp [rwMutex, hbusy']
  release_shared h := by
    cases h
    rfl
  release_exclusive h := by
    cases h
    rfl

/-! ## Guards are sections -/

open Classical in
/-- How the thread holds the mutex. -/
noncomputable def held (g : Guards V) : Option Mode :=
  if ∃ v, g v = some (.exclusive, .locked) then some .exclusive
  else if ∃ v, g v = some (.shared, .locked) then some .shared
  else none

/-- The steps of a thread and its guards that neither acquire nor release the mutex. -/
inductive Quiet (P : Code V L S) (modes : Mode → Prop) : L × Guards V → L × Guards V → Prop
  | go {l l' : L} {g : Guards V} (run : g.Running) (h : P.go l l') : Quiet P modes (l, g) (l', g)
  | construct {l l' : L} {g : Guards V} {v : V} {n : Mode} (new : g v = none) (alone : g.Idle) (mode : modes n)
      (h : P.call l (.construct v n) l') : Quiet P modes (l, g) (l', Function.update g v (some (n, .waiting)))
  | lock {l l' : L} {g : Guards V} {v : V} {n : Mode} {st : Status} (guard : g v = some (n, st)) (run : g.Running)
      (alone : st = .unlocked → g.Idle) (h : P.call l (.lock v) l') :
      Quiet P modes (l, g) (l', Function.update g v (some (n, st.lock)))
  | unlock {l l' : L} {g : Guards V} {v : V} {n : Mode} (guard : g v = some (n, .unlocked)) (run : g.Running)
      (h : P.call l (.unlock v) l') : Quiet P modes (l, g) (l', Function.update g v (some (n, .unlocked)))
  | destroy {l l' : L} {g : Guards V} {v : V} {n : Mode} (guard : g v = some (n, .unlocked)) (run : g.Running)
      (h : P.call l (.destroy v) l') : Quiet P modes (l, g) (l', Function.update g v none)

/-- The program of a thread with its guards: the mutex is acquired on the way from `waiting` to `locked`, and released
by `unlock()` or the destructor of a guard that is locked. -/
def guarded (P : Code V L S) (modes : Mode → Prop) : Program (L × Guards V) S where
  go := Quiet P modes
  enter x n y := ∃ v, x.2 v = some (n, .waiting) ∧ y = (x.1, Function.update x.2 v (some (n, .locked)))
  read x d y := ∃ v n, x.2 v = some (n, .locked) ∧ y.2 = x.2 ∧ P.read x.1 d y.1
  write x d y d' := ∃ v, x.2 v = some (.exclusive, .locked) ∧ y.2 = x.2 ∧ P.write x.1 d y.1 d'
  exit x y := ∃ v n, x.2 v = some (n, .locked) ∧
    (P.call x.1 (.unlock v) y.1 ∧ y.2 = Function.update x.2 v (some (n, .unlocked)) ∨
      P.call x.1 (.destroy v) y.1 ∧ y.2 = Function.update x.2 v none)

/-! ## The guards of a thread -/

/-- At most one guard is locked or in its `lock()`. -/
def Guards.Single (g : Guards V) : Prop :=
  ∀ ⦃v w n k st st'⦄, g v = some (n, st) → st ≠ .unlocked → g w = some (k, st') → st' ≠ .unlocked → v = w

section Guards

variable {g : Guards V} {v w : V} {n : Mode} {st : Status} {x : Option (Mode × Status)}

omit [DecidableEq V] in
theorem held_eq_none : held g = none ↔ ∀ v n, g v ≠ some (n, .locked) := by
  unfold held
  split
  · rename_i h
    obtain ⟨v, hv⟩ := h
    exact iff_of_false nofun fun hall => hall v _ hv
  · rename_i hexclusive
    split
    · rename_i h
      obtain ⟨v, hv⟩ := h
      exact iff_of_false nofun fun hall => hall v _ hv
    · rename_i hshared
      refine iff_of_true rfl fun v n hv => ?_
      cases n with
      | shared => exact hshared ⟨v, hv⟩
      | exclusive => exact hexclusive ⟨v, hv⟩

omit [DecidableEq V] in
theorem held_eq_some (hs : g.Single) : held g = some n ↔ ∃ v, g v = some (n, .locked) := by
  unfold held
  split
  · rename_i h
    obtain ⟨v, hv⟩ := h
    constructor
    · rintro ⟨⟩
      exact ⟨v, hv⟩
    · rintro ⟨w, hw⟩
      rw [hs hv nofun hw nofun, hw] at hv
      cases hv
      rfl
  · rename_i hexclusive
    split
    · rename_i h
      constructor
      · rintro ⟨⟩
        exact h
      · rintro ⟨w, hw⟩
        cases n with
        | shared => rfl
        | exclusive => exact absurd ⟨w, hw⟩ hexclusive
    · rename_i hshared
      refine iff_of_false nofun ?_
      rintro ⟨w, hw⟩
      cases n with
      | shared => exact hshared ⟨w, hw⟩
      | exclusive => exact hexclusive ⟨w, hw⟩

/-- A guard that is not locked before and after does not change what is held. -/
theorem held_update (hv : ∀ n, g v ≠ some (n, .locked)) (hx : ∀ n, x ≠ some (n, .locked)) :
    held (Function.update g v x) = held g := by
  have hsame : ∀ w n, Function.update g v x w = some (n, .locked) ↔ g w = some (n, .locked) := by
    intro w n
    obtain rfl | hne := eq_or_ne w v
    · rw [Function.update_self]
      exact iff_of_false (hx n) (hv n)
    · rw [Function.update_of_ne hne]
  unfold held
  rw [show (∃ w, Function.update g v x w = some (.exclusive, .locked)) = ∃ w, g w = some (.exclusive, .locked) from
      propext (exists_congr fun w => hsame w _),
    show (∃ w, Function.update g v x w = some (.shared, .locked)) = ∃ w, g w = some (.shared, .locked) from
      propext (exists_congr fun w => hsame w _)]

namespace Guards

theorem Idle.single_update (h : g.Idle) (v : V) (x : Option (Mode × Status)) : Single (Function.update g v x) := by
  have hself : ∀ {w n st}, Function.update g v x w = some (n, st) → st ≠ .unlocked → w = v := by
    intro w n st hw hst
    by_contra hne
    rw [Function.update_of_ne hne] at hw
    exact hst (h hw)
  intro w u n k st st' hw hst hu hst'
  rw [hself hw hst, hself hu hst']

/-- The guard that is locked or in its `lock()` goes on. -/
theorem Single.update (h : g.Single) (hv : g v = some (n, st)) (hst : st ≠ .unlocked) (x : Option (Mode × Status)) :
    Single (Function.update g v x) := by
  have hself : ∀ {w k st'}, Function.update g v x w = some (k, st') → st' ≠ .unlocked → w = v := by
    intro w k st' hw hst'
    by_contra hne
    rw [Function.update_of_ne hne] at hw
    exact hne (h hw hst' hv hst)
  intro w u k k' st₁ st₂ hw h₁ hu h₂
  rw [hself hw h₁, hself hu h₂]

/-- Another guard is unlocked, or destroyed. -/
theorem Single.drop (h : g.Single) (v : V) (hx : ∀ n st, x = some (n, st) → st = .unlocked) :
    Single (Function.update g v x) := by
  have hother : ∀ {w k st'}, Function.update g v x w = some (k, st') → st' ≠ .unlocked → g w = some (k, st') := by
    intro w k st' hw hst'
    obtain rfl | hne := eq_or_ne w v
    · rw [Function.update_self] at hw
      exact absurd (hx _ _ hw) hst'
    · rwa [Function.update_of_ne hne] at hw
  intro w u k k' st₁ st₂ hw h₁ hu h₂
  exact h (hother hw h₁) h₁ (hother hu h₂) h₂

omit [DecidableEq V] in
/-- While a guard is in its `lock()` the thread holds nothing. -/
theorem Single.held_waiting (h : g.Single) (hv : g v = some (n, .waiting)) : held g = none := by
  refine held_eq_none.2 fun w k hw => ?_
  rw [h hw nofun hv nofun, hv] at hw
  cases hw

/-- The mutex is acquired for a guard. -/
theorem Single.held_locked (h : g.Single) (hv : g v = some (n, .waiting)) :
    held (Function.update g v (some (n, .locked))) = some n :=
  (held_eq_some (h.update hv nofun _)).2 ⟨v, Function.update_self ..⟩

/-- The mutex is released by a guard. -/
theorem Single.held_dropped (h : g.Single) (hv : g v = some (n, .locked)) (hx : ∀ k, x ≠ some (k, .locked)) :
    held (Function.update g v x) = none := by
  refine held_eq_none.2 fun w k hw => ?_
  obtain rfl | hne := eq_or_ne w v
  · rw [Function.update_self] at hw
    exact hx k hw
  · rw [Function.update_of_ne hne] at hw
    exact hne (h hw nofun hv nofun)

end Guards

end Guards

/-- The threads with their guards, as threads with sections. -/
noncomputable def World.fine (s : World m T V L S) : Fine T (L × Guards V) S where
  locals t := (s.locals t, s.guards t)
  holds t := held (s.guards t)
  data := s.data

/-- The mutex counts the guards that are locked, of which a thread has one; a writer is alone. -/
structure World.Counted (s : World m T V L S) (modes : Mode → Prop) (view : m.State → Nat × Bool) : Prop where
  mode : ∀ {t v n st}, s.guards t v = some (n, st) → modes n
  single : ∀ t, (s.guards t).Single
  alone : ∀ {t u}, held (s.guards t) = some .exclusive → held (s.guards u) ≠ none → u = t
  readers : ∃ F : Finset T, (∀ t, t ∈ F ↔ held (s.guards t) = some .shared) ∧ (view s.mutex).1 = F.card
  writer : (view s.mutex).2 = true ↔ ∃ t, held (s.guards t) = some .exclusive

section Steps

variable {P : Code V L S} {modes : Mode → Prop} {view : m.State → Nat × Bool} {s s' : World m T V L S} {t : T} {l : L}
  {g : Guards V}

omit [DecidableEq V] in
theorem World.fine_set (s : World m T V L S) (t : T) (l : L) (g : Guards V) : (s.set t l g).fine =
    { s.fine with
      locals := Function.update s.fine.locals t (l, g), holds := Function.update s.fine.holds t (held g) } := by
  have hlocals : (s.set t l g).fine.locals = Function.update s.fine.locals t (l, g) := by
    funext u
    obtain rfl | hu := eq_or_ne u t
    · simp [World.fine, World.set]
    · simp [World.fine, World.set, hu]
  have hholds : (s.set t l g).fine.holds = Function.update s.fine.holds t (held g) := by
    funext u
    obtain rfl | hu := eq_or_ne u t
    · simp [World.fine, World.set]
    · simp [World.fine, World.set, hu]
  rw [← hlocals, ← hholds]
  rfl

namespace World.Counted

omit [DecidableEq V] in
theorem mode_update (h : s.Counted modes view) (hguards : s'.guards = Function.update s.guards t g)
    (hmode : ∀ v n st, g v = some (n, st) → modes n) {u : T} {v : V} {n : Mode} {st : Status}
    (hu : s'.guards u v = some (n, st)) : modes n := by
  rw [hguards] at hu
  obtain rfl | hne := eq_or_ne u t
  · rw [Function.update_self] at hu
    exact hmode v n st hu
  · rw [Function.update_of_ne hne] at hu
    exact h.mode hu

omit [DecidableEq V] in
theorem single_update (h : s.Counted modes view) (hguards : s'.guards = Function.update s.guards t g)
    (hsingle : g.Single) (u : T) : (s'.guards u).Single := by
  rw [hguards]
  obtain rfl | hne := eq_or_ne u t
  · rw [Function.update_self]
    exact hsingle
  · rw [Function.update_of_ne hne]
    exact h.single u

omit [DecidableEq V] in
/-- A step that keeps who holds the mutex. -/
theorem keep (h : s.Counted modes view) (hguards : s'.guards = Function.update s.guards t g)
    (hmutex : view s'.mutex = view s.mutex) (hheld : held g = held (s.guards t))
    (hmode : ∀ v n st, g v = some (n, st) → modes n) (hsingle : g.Single) : s'.Counted modes view := by
  have hall : ∀ u, held (s'.guards u) = held (s.guards u) := by
    intro u
    rw [hguards]
    obtain rfl | hu := eq_or_ne u t
    · rw [Function.update_self, hheld]
    · rw [Function.update_of_ne hu]
  obtain ⟨F, hF, hcard⟩ := h.readers
  refine ⟨h.mode_update hguards hmode, h.single_update hguards hsingle,
    fun {u v} hu hv => h.alone ((hall u).symm.trans hu) (hall v ▸ hv),
    ⟨F, fun u => (hF u).trans (by rw [hall]), by rw [hmutex, hcard]⟩, ?_⟩
  rw [hmutex, h.writer]
  simp only [hall]

omit [DecidableEq V] in
/-- The mutex is acquired. -/
theorem acquire {n : Mode} (h : s.Counted modes view) (hnone : held (s.guards t) = none)
    (hguards : s'.guards = Function.update s.guards t g) (hheld : held g = some n)
    (hmode : ∀ v n st, g v = some (n, st) → modes n) (hsingle : g.Single) (hfree : free n (view s.mutex))
    (hmutex : view s'.mutex = taken n (view s.mutex)) : s'.Counted modes view := by
  have hself : held (s'.guards t) = some n := by rw [hguards, Function.update_self, hheld]
  have hother : ∀ u, u ≠ t → s'.guards u = s.guards u := fun u hu => by rw [hguards, Function.update_of_ne hu]
  have hsingle' := h.single_update hguards hsingle
  obtain ⟨F, hF, hcard⟩ := h.readers
  cases n with
  | shared =>
    have hw : (view s.mutex).2 = false := hfree
    have hno : ∀ u, held (s'.guards u) ≠ some .exclusive := by
      intro u hu
      obtain rfl | hne := eq_or_ne u t
      · rw [hself] at hu
        cases hu
      · rw [hother u hne] at hu
        exact absurd (h.writer.2 ⟨u, hu⟩) (by rw [hw]; decide)
    have ht : t ∉ F := fun hmem => by
      have hshared := (hF t).1 hmem
      rw [hnone] at hshared
      cases hshared
    refine ⟨h.mode_update hguards hmode, hsingle', fun hu => absurd hu (hno _), ⟨insert t F, fun u => ?_, ?_⟩, ?_⟩
    · rw [Finset.mem_insert, hF]
      obtain rfl | hne := eq_or_ne u t
      · simp [hself]
      · simp [hne, hother u hne]
    · rw [hmutex, Finset.card_insert_of_notMem ht, ← hcard]
      rfl
    · rw [hmutex]
      exact ⟨fun hw' => absurd (hw.symm.trans hw') (by decide), fun ⟨u, hu⟩ => absurd hu (hno u)⟩
  | exclusive =>
    obtain ⟨hr, hw⟩ : (view s.mutex).1 = 0 ∧ (view s.mutex).2 = false := hfree
    have hempty : F = ∅ := Finset.card_eq_zero.1 (hcard.symm.trans hr)
    have hno : ∀ u, u ≠ t → held (s'.guards u) = none := by
      intro u hne
      rw [hother u hne]
      by_contra hsome
      obtain ⟨k, hk⟩ := Option.ne_none_iff_exists'.1 hsome
      cases k with
      | shared => exact absurd ((hF u).2 hk) (by rw [hempty]; exact Finset.notMem_empty u)
      | exclusive => exact absurd (h.writer.2 ⟨u, hk⟩) (by rw [hw]; decide)
    have honly : ∀ u, held (s'.guards u) ≠ none → u = t := fun u hu => by
      by_contra hne
      exact hu (hno u hne)
    refine ⟨h.mode_update hguards hmode, hsingle', fun {u v} hu hv => ?_, ⟨∅, fun u =>
      ⟨fun hmem => absurd hmem (Finset.notMem_empty u), fun hu => ?_⟩, ?_⟩, ?_⟩
    · rw [honly v hv, honly u (by rw [hu]; exact Option.some_ne_none _)]
    · rw [honly u (by rw [hu]; exact Option.some_ne_none _), hself] at hu
      cases hu
    · rw [hmutex, Finset.card_empty, ← hr]
      rfl
    · rw [hmutex]
      exact ⟨fun _ => ⟨t, hself⟩, fun _ => rfl⟩

omit [DecidableEq V] in
/-- The mutex is released. -/
theorem release {n : Mode} (h : s.Counted modes view) (hm : m.Counts modes view) (ht : held (s.guards t) = some n)
    (hguards : s'.guards = Function.update s.guards t g) (hheld : held g = none)
    (hmode : ∀ v n st, g v = some (n, st) → modes n) (hsingle : g.Single) (hmutex : s'.mutex = m.release s.mutex) :
    s'.Counted modes view := by
  have hself : held (s'.guards t) = none := by rw [hguards, Function.update_self, hheld]
  have hother : ∀ u, u ≠ t → s'.guards u = s.guards u := fun u hu => by rw [hguards, Function.update_of_ne hu]
  have hsingle' := h.single_update hguards hsingle
  obtain ⟨F, hF, hcard⟩ := h.readers
  cases n with
  | shared =>
    have hmem : t ∈ F := (hF t).2 ht
    have hno : ∀ u, held (s.guards u) ≠ some .exclusive := by
      intro u hu
      have heq := h.alone hu (by rw [ht]; exact Option.some_ne_none _)
      rw [← heq, ht] at hu
      cases hu
    have hw : (view s.mutex).2 = false := by
      by_contra htrue
      obtain ⟨u, hu⟩ := h.writer.1 (by simpa using htrue)
      exact hno u hu
    have hview : view s.mutex = ((F.erase t).card + 1, false) := by
      rw [Finset.card_erase_add_one hmem, ← hcard, ← hw]
    have hview' : view s'.mutex = ((F.erase t).card, false) := by
      rw [hmutex]
      exact hm.release_shared hview
    have hno' : ∀ u, held (s'.guards u) ≠ some .exclusive := by
      intro u hu
      obtain rfl | hne := eq_or_ne u t
      · rw [hself] at hu
        cases hu
      · exact hno u (by rwa [hother u hne] at hu)
    refine ⟨h.mode_update hguards hmode, hsingle', fun hu => absurd hu (hno' _),
      ⟨F.erase t, fun u => ?_, by rw [hview']⟩, ?_⟩
    · rw [Finset.mem_erase, hF]
      obtain rfl | hne := eq_or_ne u t
      · simp [hself]
      · simp [hne, hother u hne]
    · rw [hview']
      exact ⟨fun hfalse => absurd hfalse Bool.false_ne_true, fun ⟨u, hu⟩ => absurd hu (hno' u)⟩
  | exclusive =>
    have honly : ∀ u, held (s.guards u) ≠ none → u = t := fun u hu => h.alone ht hu
    have hempty : F = ∅ := Finset.eq_empty_of_forall_notMem fun u hu => by
      have hshared := (hF u).1 hu
      rw [honly u (by rw [hshared]; exact Option.some_ne_none _), ht] at hshared
      cases hshared
    have hview : view s.mutex = (0, true) := by
      rw [← h.writer.2 ⟨t, ht⟩, show 0 = (view s.mutex).1 by rw [hcard, hempty]; rfl]
    have hview' : view s'.mutex = (0, false) := by
      rw [hmutex]
      exact hm.release_exclusive hview
    have hnone : ∀ u, held (s'.guards u) = none := by
      intro u
      obtain rfl | hne := eq_or_ne u t
      · exact hself
      · rw [hother u hne]
        by_contra hsome
        exact hne (honly u hsome)
    refine ⟨h.mode_update hguards hmode, hsingle', fun hu => ?_, ⟨∅, fun u => ?_, by rw [hview']; rfl⟩, ?_⟩
    · rw [hnone] at hu
      cases hu
    · simp [hnone]
    · rw [hview']
      simp [hnone]

end World.Counted

omit [DecidableEq T] [DecidableEq V] in
/-- The mutex can be acquired where the sections can be entered. -/
theorem free_fine {n : Mode} (h : s.Counted modes view) : free n (view s.mutex) ↔ s.fine.Free n := by
  obtain ⟨F, hF, hcard⟩ := h.readers
  have hw : (view s.mutex).2 = false ↔ ∀ u, held (s.guards u) ≠ some .exclusive := by
    rw [← not_exists, ← h.writer, Bool.not_eq_true]
  cases n with
  | shared => exact hw
  | exclusive =>
    show ((view s.mutex).1 = 0 ∧ (view s.mutex).2 = false) ↔ ∀ u, held (s.guards u) = none
    rw [hw, hcard, Finset.card_eq_zero]
    constructor
    · rintro ⟨hempty, hno⟩ u
      by_contra hsome
      obtain ⟨k, hk⟩ := Option.ne_none_iff_exists'.1 hsome
      cases k with
      | shared => exact absurd ((hF u).2 hk) (by rw [hempty]; exact Finset.notMem_empty u)
      | exclusive => exact hno u hk
    · intro hall
      refine ⟨Finset.eq_empty_of_forall_notMem fun u hu => ?_, fun u hu => ?_⟩
      · rw [(hF u), hall] at hu
        cases hu
      · rw [hall] at hu
        cases hu

/-- A step that keeps who holds the mutex is one of the thread alone. -/
theorem fine_quiet (hheld : held g = held (s.guards t)) (hq : Quiet P modes (s.locals t, s.guards t) (l, g)) :
    Fine.Step (guarded P modes) s.fine (s.set t l g).fine := by
  have hholds : Function.update s.fine.holds t (held g) = s.fine.holds := by
    rw [hheld]
    exact Function.update_eq_self ..
  rw [World.fine_set, hholds]
  exact .go hq

omit [DecidableEq V] in
theorem fine_set_same (s : World m T V L S) (t : T) (l : L) : (s.set t l (s.guards t)).fine =
    { s.fine with locals := Function.update s.fine.locals t (l, s.guards t) } := by
  rw [World.fine_set, show held (s.guards t) = s.fine.holds t from rfl, Function.update_eq_self]

/-- A guard that is locked is left. -/
theorem fine_exit {v : V} {n : Mode} (hs : (s.guards t).Single) (hlocked : s.guards t v = some (n, .locked))
    (hheld : held g = none) (hcall : P.call (s.locals t) (.unlock v) l ∧
      g = Function.update (s.guards t) v (some (n, .unlocked)) ∨
      P.call (s.locals t) (.destroy v) l ∧ g = Function.update (s.guards t) v none) :
    Fine.Step (guarded P modes) s.fine (s.set t l g).fine := by
  rw [World.fine_set, hheld]
  refine .exit ?_ ⟨v, n, hlocked, hcall⟩
  show held (s.guards t) ≠ none
  rw [(held_eq_some hs).2 ⟨v, hlocked⟩]
  exact Option.some_ne_none n

omit [DecidableEq T] in
/-- The modes of the guards after one of them has changed. -/
theorem modes_update {v : V} {x : Option (Mode × Status)} (h : s.Counted modes view)
    (hx : ∀ n st, x = some (n, st) → modes n) (w : V) (n : Mode) (st : Status)
    (hw : Function.update (s.guards t) v x w = some (n, st)) : modes n := by
  obtain rfl | hne := eq_or_ne w v
  · rw [Function.update_self] at hw
    exact hx n st hw
  · rw [Function.update_of_ne hne] at hw
    exact h.mode hw

/-- A step of a thread or of its guards is a step of its section, or an attempt that does not acquire the mutex. -/
theorem step_fine (hm : m.Counts modes view) (h : s.Counted modes view) (hs : World.Step P modes s s') :
    s'.Counted modes view ∧ (Fine.Step (guarded P modes) s.fine s'.fine ∨ s'.fine = s.fine) := by
  cases hs with
  | @go t l run hgo =>
    exact ⟨h.keep rfl rfl rfl (fun v n st hg => h.mode hg) (h.single t), .inl (fine_quiet rfl (.go run hgo))⟩
  | @construct t v n l new alone mode hcall =>
    have hheld := held_update (g := s.guards t) (v := v) (x := some (n, .waiting)) (by rw [new]; nofun) nofun
    refine ⟨h.keep rfl rfl hheld (modes_update h ?_) (alone.single_update v _),
      .inl (fine_quiet hheld (.construct new alone mode hcall))⟩
    rintro k st ⟨⟩
    exact mode
  | @attempt t v n waiting =>
    by_cases hfree : free n (view s.mutex)
    · obtain ⟨hok, hview⟩ := hm.acquires (h.mode waiting) hfree
      rw [if_pos hok]
      have hnone := (h.single t).held_waiting waiting
      have hheld := (h.single t).held_locked waiting
      refine ⟨h.acquire hnone rfl hheld (modes_update h ?_) ((h.single t).update waiting nofun _) hfree hview, .inl ?_⟩
      · rintro k st ⟨⟩
        exact h.mode waiting
      show Fine.Step (guarded P modes) s.fine
        (s.set t (s.locals t) (Function.update (s.guards t) v (some (n, .locked)))).fine
      rw [World.fine_set, hheld]
      exact .enter hnone ((free_fine h).1 hfree) ⟨v, waiting, rfl⟩
    · obtain ⟨hbusy, hview⟩ := hm.waits (h.mode waiting) hfree
      rw [hbusy, if_neg Bool.false_ne_true]
      have hsame : Function.update (s.guards t) v (some (n, .waiting)) = s.guards t := by
        rw [← waiting, Function.update_eq_self]
      rw [hsame]
      refine ⟨h.keep rfl hview rfl (fun v n st hg => h.mode hg) (h.single t), .inr ?_⟩
      show (s.set t (s.locals t) (s.guards t)).fine = s.fine
      rw [World.set, Function.update_eq_self, Function.update_eq_self]
  | @lock t v n st l guard run alone hcall =>
    have hmodes := modes_update (v := v) (x := some (n, st.lock)) (t := t) h
      (by rintro k st' ⟨⟩; exact h.mode guard)
    cases st with
    | waiting => exact absurd guard (run v n)
    | locked =>
      have hsame : Function.update (s.guards t) v (some (n, .locked)) = s.guards t := by
        rw [← guard, Function.update_eq_self]
      refine ⟨h.keep rfl rfl (congrArg held hsame) hmodes ((h.single t).update guard nofun _),
        .inl (fine_quiet (congrArg held hsame) (.lock guard run alone hcall))⟩
    | unlocked =>
      have hheld := held_update (g := s.guards t) (v := v) (x := some (n, .waiting)) (by rw [guard]; nofun) nofun
      exact ⟨h.keep rfl rfl hheld hmodes ((alone rfl).single_update v _),
        .inl (fine_quiet hheld (.lock guard run alone hcall))⟩
  | @unlock t v n st l guard run hcall =>
    cases st with
    | waiting => exact absurd guard (run v n)
    | locked =>
      have hheld := (h.single t).held_dropped (x := some (n, .unlocked)) guard nofun
      refine ⟨h.release hm ((held_eq_some (h.single t)).2 ⟨v, guard⟩) rfl hheld (modes_update h ?_)
        ((h.single t).update guard nofun _) rfl, .inl (fine_exit (h.single t) guard hheld (.inl ⟨hcall, rfl⟩))⟩
      rintro k st' ⟨⟩
      exact h.mode guard
    | unlocked =>
      have hheld := held_update (g := s.guards t) (v := v) (x := some (n, .unlocked)) (by rw [guard]; nofun) nofun
      refine ⟨h.keep rfl rfl hheld (modes_update h ?_) ((h.single t).drop v ?_),
        .inl (fine_quiet hheld (.unlock guard run hcall))⟩
      · rintro k st' ⟨⟩
        exact h.mode guard
      · rintro k st' ⟨⟩
        rfl
  | @destroy t v n st l guard run hcall =>
    cases st with
    | waiting => exact absurd guard (run v n)
    | locked =>
      have hheld := (h.single t).held_dropped (x := none) guard nofun
      exact ⟨h.release hm ((held_eq_some (h.single t)).2 ⟨v, guard⟩) rfl hheld (modes_update h nofun)
        ((h.single t).update guard nofun _) rfl, .inl (fine_exit (h.single t) guard hheld (.inr ⟨hcall, rfl⟩))⟩
    | unlocked =>
      have hheld := held_update (g := s.guards t) (v := v) (x := none) (by rw [guard]; nofun) nofun
      exact ⟨h.keep rfl rfl hheld (modes_update h nofun) ((h.single t).drop v nofun),
        .inl (fine_quiet hheld (.destroy guard run hcall))⟩
  | @read t v n l guard hread =>
    refine ⟨h.keep rfl rfl rfl (fun v n st hg => h.mode hg) (h.single t), .inl ?_⟩
    rw [fine_set_same]
    refine .read ?_ ⟨v, n, guard, rfl, hread⟩
    show held (s.guards t) ≠ none
    rw [(held_eq_some (h.single t)).2 ⟨v, guard⟩]
    exact Option.some_ne_none _
  | @write t v l d guard hwrite =>
    refine ⟨h.keep rfl rfl rfl (fun v n st hg => h.mode hg) (h.single t), .inl ?_⟩
    have hfine : World.fine { s.set t l (s.guards t) with data := d } =
        { s.fine with locals := Function.update s.fine.locals t (l, s.guards t), data := d } := by
      rw [show World.fine { s.set t l (s.guards t) with data := d } =
        { (s.set t l (s.guards t)).fine with data := d } from rfl, fine_set_same]
    rw [hfine]
    exact .write ((held_eq_some (h.single t)).2 ⟨v, guard⟩) ⟨v, guard, rfl, hwrite⟩

end Steps

/-! ## Runs -/

section Runs

variable {P : Code V L S} {modes : Mode → Prop} {view : m.State → Nat × Bool} {s : World m T V L S} {locals : T → L}
  {d : S}

omit [DecidableEq T] [DecidableEq V] in
theorem counted_start (hm : m.Counts modes view) (locals : T → L) (d : S) :
    (World.start m locals d : World m T V L S).Counted modes view := by
  have hview : view (World.start m locals d : World m T V L S).mutex = (0, false) := hm.init
  have hheld : ∀ t, held ((World.start m locals d : World m T V L S).guards t) = none :=
    fun t => held_eq_none.2 nofun
  refine ⟨nofun, fun _ => nofun, fun {t u} ht => ?_, ⟨∅, fun t => ?_, by rw [hview]; rfl⟩, ?_⟩
  · rw [hheld] at ht
    cases ht
  · simp [hheld]
  · rw [hview]
    simp [hheld]

omit [DecidableEq T] [DecidableEq V] in
theorem fine_start (locals : T → L) (d : S) :
    (World.start m locals d : World m T V L S).fine = ⟨fun t => (locals t, fun _ => none), fun _ => none, d⟩ := by
  have hholds : (World.start m locals d : World m T V L S).fine.holds = fun _ => none :=
    funext fun t => held_eq_none.2 nofun
  rw [← hholds]
  rfl

theorem fine_of_run (hm : m.Counts modes view)
    (hr : Relation.ReflTransGen (World.Step P modes) (World.start m locals d) s) : s.Counted modes view ∧
      Relation.ReflTransGen (Fine.Step (guarded P modes)) ⟨fun t => (locals t, fun _ => none), fun _ => none, d⟩
        s.fine := by
  induction hr with
  | refl => exact ⟨counted_start hm locals d, by rw [fine_start]⟩
  | tail _ hstep ih =>
    obtain ⟨hcounted, hrun⟩ := ih
    obtain ⟨hcounted', hfine | hsame⟩ := step_fine hm hcounted hstep
    · exact ⟨hcounted', hrun.tail hfine⟩
    · exact ⟨hcounted', hsame ▸ hrun⟩

end Runs

/-- The classes of mutexes. -/
inductive Kind
  | mutex
  | spinlock
  | rwMutex
  | casLock
deriving DecidableEq, Repr

namespace Kind

def type : Kind → Mutex
  | mutex | spinlock => Mutexes.mutex
  | rwMutex => Mutexes.rwMutex
  | casLock => Mutexes.casLock

/-- `Lock`, or `ReadLock` and `WriteLock`. -/
def modes : Kind → Mode → Prop
  | rwMutex => anyMode
  | _ => onlyExclusive

theorem counts (k : Kind) : ∃ view, k.type.Counts k.modes view := by
  cases k with
  | mutex => exact ⟨_, mutex_counts⟩
  | spinlock => exact ⟨_, mutex_counts⟩
  | rwMutex => exact ⟨_, rwMutex_counts⟩
  | casLock => exact ⟨_, casLock_counts⟩

end Kind

/-- The mutex can be acquired for a guard: none that is locked is in the way. -/
def World.Free (s : World m T V L S) : Mode → Prop
  | .shared => ∀ t v, s.guards t v ≠ some (.exclusive, .locked)
  | .exclusive => ∀ t v n, s.guards t v ≠ some (n, .locked)

omit [DecidableEq T] [DecidableEq V] in
theorem fine_free_iff {s : World m T V L S} (hs : ∀ t, (s.guards t).Single) {n : Mode} : s.fine.Free n ↔ s.Free n := by
  cases n with
  | shared =>
    show (∀ t, held (s.guards t) ≠ some .exclusive) ↔ ∀ t v, s.guards t v ≠ some (.exclusive, .locked)
    simp only [ne_eq, held_eq_some (hs _), not_exists]
  | exclusive =>
    show (∀ t, held (s.guards t) = none) ↔ ∀ t v n, s.guards t v ≠ some (n, .locked)
    simp only [held_eq_none]

/-- What threads do under their guards is atomic: any run in which the data are touched only under a guard, by any
number of threads that construct, lock, unlock and destroy any guards, is one in which each section, from the
acquisition of the mutex to its release, is executed at once. A writer is alone, and an attempt fails exactly where
another guard is in the way. -/
theorem sections_are_atomic (k : Kind) {P : Code V L S} {locals : T → L} {d : S} {s : World k.type T V L S}
    (hr : Relation.ReflTransGen (World.Step P k.modes) (World.start k.type locals d) s) :
    (∃ a, Relation.ReflTransGen (Coarse.Step (guarded P k.modes)) ⟨fun t => (locals t, fun _ => none), d⟩ a ∧
      (∀ t, (∀ v n, s.guards t v ≠ some (n, .locked)) → a.locals t = (s.locals t, s.guards t)) ∧
      ((∀ t v, s.guards t v ≠ some (.exclusive, .locked)) → a.data = s.data)) ∧
    (∀ t v u w n, s.guards t v = some (.exclusive, .locked) → s.guards u w = some (n, .locked) → u = t ∧ w = v) ∧
    ∀ t v n, s.guards t v = some (n, .waiting) → ((k.type.acquire n s.mutex).1 = true ↔ s.Free n) := by
  obtain ⟨view, hm⟩ := k.counts
  obtain ⟨hcounted, hfine⟩ := fine_of_run hm hr
  obtain ⟨a, ha, hlags⟩ := lags_of_run hfine
  refine ⟨⟨a, ha, fun t ht => hlags.outside (held_eq_none.2 ht), fun hnone => hlags.data fun t ht => ?_⟩,
    fun t v u w n hv hw => ?_, fun t v n hwait => ?_⟩
  · obtain ⟨v, hv⟩ := (held_eq_some (hcounted.single t)).1 ht
    exact hnone t v hv
  · have hut : u = t := by
      refine hcounted.alone ((held_eq_some (hcounted.single t)).2 ⟨v, hv⟩) ?_
      rw [(held_eq_some (hcounted.single u)).2 ⟨w, hw⟩]
      exact Option.some_ne_none n
    subst hut
    exact ⟨rfl, hcounted.single u hw nofun hv nofun⟩
  · rw [← fine_free_iff hcounted.single, ← free_fine hcounted]
    constructor
    · intro hok
      by_contra hbusy
      rw [(hm.waits (hcounted.mode hwait) hbusy).1] at hok
      cases hok
    · intro hfree
      exact (hm.acquires (hcounted.mode hwait) hfree).1

/-- Threads that count under their guards. -/
def counting : Code Bool Unit Nat where
  go _ _ := True
  call _ _ _ := True
  read _ _ _ := True
  write _ d _ d' := d' = d + 1

/-- A thread constructs a guard for reading, unlocks it and, while it is still there, counts under a guard for writing,
for which another thread waits. -/
theorem sections_are_atomic_counting : ∃ s : World rwMutex Bool Bool Unit Nat,
    s.guards false false = some (.shared, .unlocked) ∧ s.guards true false = some (.shared, .waiting) ∧ s.data = 1 ∧
    ∃ a : Coarse Bool (Unit × Guards Bool) Nat, Relation.ReflTransGen (Coarse.Step (guarded counting anyMode))
      ⟨fun _ => ((), fun _ => none), 0⟩ a ∧ a.data = 1 := by
  have h₁ : World.Step counting anyMode (World.start rwMutex (fun _ : Bool => ()) 0) _ :=
    .construct (t := false) (v := false) (n := .shared) (l := ()) rfl nofun trivial trivial
  have h₂ := (Relation.ReflTransGen.single h₁).tail (.attempt (t := false) (v := false) (n := .shared) rfl)
  have h₃ := h₂.tail (.unlock (t := false) (v := false) (n := .shared) (l := ()) rfl (by rintro (_ | _) n ⟨⟩) trivial)
  have h₄ := h₃.tail (.construct (t := false) (v := true) (n := .exclusive) (l := ()) rfl
    (by rintro (_ | _) n st ⟨⟩; rfl) trivial trivial)
  have h₅ := h₄.tail (.attempt (t := false) (v := true) (n := .exclusive) rfl)
  have h₆ := h₅.tail (.construct (t := true) (v := false) (n := .shared) (l := ()) rfl (by rintro (_ | _) n st ⟨⟩)
    trivial trivial)
  have h₇ := h₆.tail (.attempt (t := true) (v := false) (n := .shared) rfl)
  have h₈ := h₇.tail (.write (t := false) (v := true) (l := ()) rfl rfl)
  have h₉ := h₈.tail (.destroy (t := false) (v := true) (n := .exclusive) (l := ()) rfl (by rintro (_ | _) n ⟨⟩)
    trivial)
  obtain ⟨s, hs, hread, hwait, hother, hnone, hd⟩ : ∃ s : World rwMutex Bool Bool Unit Nat,
      Relation.ReflTransGen (World.Step counting anyMode) (World.start rwMutex (fun _ => ()) 0) s ∧
      s.guards false false = some (.shared, .unlocked) ∧ s.guards true false = some (.shared, .waiting) ∧
      s.guards false true = none ∧ s.guards true true = none ∧ s.data = 1 := ⟨_, h₉, rfl, rfl, rfl, rfl, rfl⟩
  obtain ⟨⟨a, ha, -, hdata⟩, -⟩ := sections_are_atomic .rwMutex hs
  refine ⟨s, hread, hwait, hd, a, ha, (hdata ?_).trans hd⟩
  rintro (_ | _) (_ | _) hv
  · rw [hread] at hv
    cases hv
  · rw [hother] at hv
    cases hv
  · rw [hwait] at hv
    cases hv
  · rw [hnone] at hv
    cases hv

end ServerFrame.Mutexes
