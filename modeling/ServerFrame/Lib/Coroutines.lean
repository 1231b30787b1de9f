/-
Coroutines: every thread has a stack of routines, of which the top one is executed. It enters another routine, which
comes on top, or leaves, which goes on with the routine below, where that one has stopped.
-/
import Mathlib.Logic.Function.Basic
import Mathlib.Data.List.Basic
import ServerFrame.Lib.Run

universe u v

/-- The routines of every thread, the one it executes first, and how many steps a routine has made. -/
structure Coroutines (T : Type u) (R : Type v) where
  stack : T → List R
  count : R → Nat

namespace Coroutines

variable {T : Type u} {R : Type v}

/-- What a step does with the stack of its thread. -/
inductive Move (R : Type v)
  | stay
  | enter (q : R)
  | leave
deriving DecidableEq, Repr

/-- A step: the thread that makes it, and the routine and the number of the step in it. -/
structure Event (T : Type u) (R : Type v) where
  thread : T
  move : Move R
  routine : R
  pos : Nat
deriving DecidableEq, Repr

variable [DecidableEq T] [DecidableEq R]

/-- The routine makes a step, after which the thread has a stack. -/
def set (c : Coroutines T R) (t : T) (r : R) (stack : List R) : Coroutines T R where
  stack := Function.update c.stack t stack
  count := Function.update c.count r (c.count r + 1)

/-- A routine that is entered is on no stack. -/
inductive Step (c : Coroutines T R) : Event T R → Coroutines T R → Prop
  | stay {t : T} {r : R} {rest : List R} (top : c.stack t = r :: rest) :
      Step c ⟨t, .stay, r, c.count r⟩ (c.set t r (r :: rest))
  | enter {t : T} {r q : R} {rest : List R} (top : c.stack t = r :: rest) (free : ∀ u, q ∉ c.stack u) :
      Step c ⟨t, .enter q, r, c.count r⟩ (c.set t r (q :: r :: rest))
  | leave {t : T} {r q : R} {rest : List R} (top : c.stack t = r :: q :: rest) :
      Step c ⟨t, .leave, r, c.count r⟩ (c.set t r (q :: rest))

/-- A routine is at most once on at most one stack. -/
structure Apart (c : Coroutines T R) : Prop where
  nodup : ∀ t, (c.stack t).Nodup
  thread : ∀ {t u r}, r ∈ c.stack t → r ∈ c.stack u → t = u

section Step

variable {c c' : Coroutines T R} {t : T} {r : R}

theorem stack_set_self (c : Coroutines T R) (t : T) (r : R) (l : List R) : (c.set t r l).stack t = l :=
  Function.update_self ..

theorem stack_set_of_ne {u : T} (h : u ≠ t) (r : R) (l : List R) : (c.set t r l).stack u = c.stack u :=
  Function.update_of_ne h ..

theorem count_set_self (c : Coroutines T R) (t : T) (r : R) (l : List R) : (c.set t r l).count r = c.count r + 1 :=
  Function.update_self ..

theorem count_set_of_ne {q : R} (h : q ≠ r) (t : T) (l : List R) : (c.set t r l).count q = c.count q :=
  Function.update_of_ne h ..

/-- A stack for `t` whose routines were on its stack or on none keeps the stacks apart. -/
theorem Apart.set (h : c.Apart) {l : List R} (hl : l.Nodup)
    (hmem : ∀ q ∈ l, q ∈ c.stack t ∨ ∀ u, q ∉ c.stack u) : (c.set t r l).Apart where
  nodup u := by
    obtain rfl | hu := eq_or_ne u t
    · rwa [stack_set_self]
    · rw [stack_set_of_ne hu]
      exact h.nodup u
  thread {u v q} hqu hqv := by
    have key : ∀ {w w' : T}, w ≠ t → w' = t → q ∈ (c.set t r l).stack w → q ∈ (c.set t r l).stack w' → w = w' := by
      rintro w w' hw rfl hq hq'
      rw [stack_set_of_ne hw] at hq
      rw [stack_set_self] at hq'
      obtain hmem' | hfree := hmem q hq'
      · exact h.thread hq hmem'
      · exact absurd hq (hfree w)
    by_cases hu : u = t <;> by_cases hv : v = t
    · rw [hu, hv]
    · exact (key hv hu hqv hqu).symm
    · exact key hu hv hqu hqv
    · rw [stack_set_of_ne hu] at hqu
      rw [stack_set_of_ne hv] at hqv
      exact h.thread hqu hqv

theorem Apart.step {e : Event T R} (h : c.Apart) (hs : Step c e c') : c'.Apart := by
  cases hs with
  | @stay t r rest top => exact h.set (top ▸ h.nodup t) fun q hq => .inl (top ▸ hq)
  | @enter t r q rest top free =>
    refine h.set (List.nodup_cons.2 ⟨top ▸ free t, top ▸ h.nodup t⟩) fun p hp => ?_
    obtain rfl | hp := List.mem_cons.1 hp
    · exact .inr free
    · exact .inl (top ▸ hp)
  | @leave t r q rest top =>
    have hnodup := h.nodup t
    rw [top] at hnodup
    exact h.set hnodup.of_cons fun p hp => .inl (top ▸ List.mem_cons_of_mem _ hp)

/-! ## No step is lost or made twice -/

/-- The numbers of the steps that a routine makes in a run. -/
def positions (r : R) (l : List (Event T R)) : List Nat := (l.filter (·.routine = r)).map Event.pos

theorem count_step {e : Event T R} (hs : Step c e c') :
    e.pos = c.count e.routine ∧ c'.count = Function.update c.count e.routine (e.pos + 1) := by
  cases hs <;> exact ⟨rfl, rfl⟩

/-- In a run every routine makes its steps one after the other, whichever threads execute them. -/
theorem positions_eq {l : List (Event T R)} (hr : Lts.Run Step c l c') (r : R) :
    c.count r + (positions r l).length = c'.count r ∧
      positions r l = List.range' (c.count r) (positions r l).length := by
  induction hr with
  | nil => exact ⟨rfl, rfl⟩
  | @snoc l c₁ c₂ e hr hs ih =>
    obtain ⟨hpos, hcount⟩ := count_step hs
    obtain ⟨hlen, hrange⟩ := ih
    by_cases he : e.routine = r
    · have hsnoc : positions r (l ++ [e]) = positions r l ++ [c₁.count r] := by
        rw [positions, List.filter_append, List.map_append, List.filter_cons_of_pos (by simpa using he)]
        simp [positions, hpos, he]
      rw [hsnoc, List.length_append, List.length_singleton, List.range'_concat, ← hrange, hcount, he, hpos, he,
        Function.update_self]
      refine ⟨by omega, ?_⟩
      rw [Nat.one_mul, hlen]
    · have hsnoc : positions r (l ++ [e]) = positions r l := by
        rw [positions, List.filter_append, List.map_append, List.filter_cons_of_neg (by simpa using he)]
        simp [positions]
      rw [hsnoc, hcount, Function.update_of_ne (Ne.symm he)]
      exact ⟨hlen, hrange⟩

end Step

end Coroutines
