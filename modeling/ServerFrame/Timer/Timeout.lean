/-
How long `IOManager::idle()` (`iomanager.cc`) waits in `epoll_wait`: the delay of `getNextTimer()`, which `stopping`
hands it, clamped after a conversion to `int` and converted once more for the call.
-/
import ServerFrame.Timer.Basic
import Mathlib.Algebra.Ring.Nat

namespace ServerFrame.Timers

universe u

/-- A `uint64_t` converted to `int`. -/
def int (t : UInt64) : Int := (t.toNat : Int).bmod (2 ^ 32)

/-- The body of the `do` loop up to `epoll_wait`. -/
def clamp (next_timeout : UInt64) : UInt64 :=
  if next_timeout ≠ ~~~0 then if int next_timeout > 3000 then 3000 else next_timeout
  else 3000

/-- The timeouts of the calls of `epoll_wait` in the `do` loop, of which all but the last end with `EINTR`. -/
def epollWaits : Nat → UInt64 → List Int
  | 0, next_timeout => [int (clamp next_timeout)]
  | interrupts + 1, next_timeout => int (clamp next_timeout) :: epollWaits interrupts (clamp next_timeout)

namespace TimerManager

variable {C : Type u} (m : TimerManager C) (now : UInt64)

/-- `IOManager::stopping(timeout)`: the answer and the timeout. -/
def stopping (pendingEventCount : Nat) (schedulerStopping : Bool) : Bool × UInt64 :=
  let timeout := (m.getNextTimer now).2
  (timeout == ~~~0 && pendingEventCount == 0 && schedulerStopping, timeout)

/-- The timeouts of the calls of `epoll_wait` in one turn of `idle()`. -/
def idleWaits (pendingEventCount : Nat) (schedulerStopping : Bool) (interrupts : Nat) : List Int :=
  let r := m.stopping now pendingEventCount schedulerStopping
  if r.1 then [] else epollWaits interrupts r.2

/-- The time to the earliest deadline, where a timer is pending. -/
def remaining : Option Nat :=
  m.timers.head?.map fun h => ((m.heap[h]?.map Timer.next).getD 0).toNat - now.toNat

/-- A call of `epoll_wait` with this timeout neither fails nor waits for longer than 3 seconds or past the earliest
timer, and polls only when that is due. -/
structure Timely (timeout : Int) : Prop where
  nonneg : 0 ≤ timeout
  le_max : timeout ≤ 3000
  le_next : m.timers ≠ [] → timeout ≤ (m.getNextTimer now).2.toNat
  zero : timeout = 0 → (m.getNextTimer now).2 = 0

end TimerManager

/-! ## The clamp -/

theorem clamp_eq (t : UInt64) : clamp t = 3000 ∨ clamp t = t := by
  unfold clamp
  split
  · split
    · exact .inl rfl
    · exact .inr rfl
  · exact .inl rfl

/-- A repeated call waits as long as the first. -/
theorem clamp_clamp (t : UInt64) : clamp (clamp t) = clamp t := by
  rcases clamp_eq t with h | h
  · rw [h]
    decide
  · rw [h, h]

theorem eq_of_mem_epollWaits {timeout : Int} {t : UInt64} :
    ∀ {interrupts : Nat}, timeout ∈ epollWaits interrupts t → timeout = int (clamp t)
  | 0, h => List.mem_singleton.1 h
  | n + 1, h => by
    rcases List.mem_cons.1 h with h | h
    · exact h
    · exact (eq_of_mem_epollWaits h).trans (by rw [clamp_clamp])

theorem int_clamp_mem (t : UInt64) (n : Nat) : int (clamp t) ∈ epollWaits n t := by
  cases n with
  | zero => exact List.mem_singleton_self _
  | succ n => exact List.mem_cons_self

/-- The value after both conversions. -/
theorem int_clamp (t : UInt64) :
    int (clamp t) = if t = ~~~0 ∨ int t > 3000 then 3000 else int t := by
  unfold clamp
  split
  · rename_i hne
    split
    · rename_i hgt
      rw [if_pos (.inr hgt)]
      decide
    · rename_i hle
      rw [if_neg (by rintro (h | h); exacts [hne h, hle h])]
  · rename_i heq
    rw [if_pos (.inl (not_not.1 heq))]
    decide

/-- An `int` is at most the number it was converted from. -/
theorem int_le (t : UInt64) : int t ≤ t.toNat := by
  unfold int
  rw [Int.bmod_def]
  split <;> omega

namespace TimerManager

variable {C : Type u} (m : TimerManager C) (now : UInt64)

theorem getNextTimer_remaining : (m.getNextTimer now).2.toNat = (m.remaining now).getD (2 ^ 64 - 1) := by
  unfold getNextTimer remaining
  dsimp only
  cases m.timers with
  | nil => rfl
  | cons h _ =>
    rw [List.head?_cons, Option.map_some, Option.getD_some]
    dsimp only
    generalize (m.heap[h]?.map Timer.next).getD 0 = next
    split
    · rename_i hle
      have hle := UInt64.le_iff_toNat_le.1 hle
      rw [Nat.sub_eq_zero_of_le hle]
      decide
    · rename_i hlt
      have hlt := UInt64.lt_iff_toNat_lt.1 (UInt64.not_le.1 hlt)
      exact UInt64.toNat_sub_of_le _ _ (UInt64.le_of_lt (UInt64.not_le.1 ‹_›))

/-- The two conversions lead to a timely call exactly where the delay is zero or that of no timer, or is positive as an
`int`. -/
theorem timely_clamp_iff : m.Timely now (int (clamp (m.getNextTimer now).2)) ↔
    (m.getNextTimer now).2 = 0 ∨ (m.getNextTimer now).2 = ~~~0 ∨ 0 < int (m.getNextTimer now).2 := by
  have hle := int_le (m.getNextTimer now).2
  constructor
  · rintro ⟨hnonneg, -, -, hzero⟩
    rw [int_clamp] at hnonneg hzero
    split at hnonneg
    · rename_i h
      rcases h with h | h
      · exact .inr (.inl h)
      · exact .inr (.inr (by omega))
    · rename_i h
      rw [if_neg h] at hzero
      rcases Int.lt_or_eq_of_le hnonneg with hpos | h0
      · exact .inr (.inr hpos)
      · exact .inl (hzero h0.symm)
  · rintro (h | h | h)
    · rw [h]
      exact ⟨by decide, by decide, fun _ => by rw [h]; decide, fun _ => h⟩
    · rw [h]
      exact ⟨by decide, by decide, fun _ => by rw [h]; decide, fun h0 => absurd h0 (by decide)⟩
    · rw [int_clamp]
      split
      · rename_i hbig
        refine ⟨by decide, Int.le_refl _, fun _ => ?_, fun h0 => absurd h0 (by decide)⟩
        rcases hbig with hmax | hbig
        · rw [hmax]
          decide
        · omega
      · rename_i hsmall
        rw [not_or] at hsmall
        exact ⟨Int.le_of_lt h, Int.not_lt.1 hsmall.2, fun _ => hle, fun h0 => absurd h0 (Int.ne_of_gt h)⟩

/-- The delay by the time that remains. -/
theorem getNextTimer_cases :
    ((m.getNextTimer now).2 = 0 ∨ (m.getNextTimer now).2 = ~~~0 ∨ 0 < int (m.getNextTimer now).2) ↔
      ∀ left ∈ m.remaining now, left = 0 ∨ left = 2 ^ 64 - 1 ∨ 0 < (left : Int).bmod (2 ^ 32) := by
  have hnext := m.getNextTimer_remaining now
  have hint : int (m.getNextTimer now).2 = ((m.getNextTimer now).2.toNat : Int).bmod (2 ^ 32) := rfl
  have hzero : (m.getNextTimer now).2 = 0 ↔ (m.getNextTimer now).2.toNat = 0 := UInt64.toNat_inj.symm
  have hones : (~~~0 : UInt64).toNat = 2 ^ 64 - 1 := by decide
  have hmax : (m.getNextTimer now).2 = ~~~0 ↔ (m.getNextTimer now).2.toNat = 2 ^ 64 - 1 := by
    rw [← hones, UInt64.toNat_inj]
  rw [hzero, hmax, hint, hnext]
  rcases m.remaining now with _ | left
  · rw [Option.getD_none]
    refine iff_of_true (.inr (.inl ?_)) fun _ h => (Option.not_mem_none _ h).elim
    rfl
  · rw [Option.getD_some]
    constructor
    · rintro h left' hleft
      obtain rfl := Option.mem_some_iff.1 hleft
      exact h
    · intro h
      exact h left rfl

/-- Every call of `epoll_wait` is timely exactly if no timer is pending, the earliest is due, or the milliseconds that
remain to it are positive when they are cut to an `int` (or are as many as stand for no timer). -/
theorem idle_timely_iff :
    (∀ pendingEventCount schedulerStopping interrupts,
      ∀ timeout ∈ m.idleWaits now pendingEventCount schedulerStopping interrupts, m.Timely now timeout) ↔
    ∀ left ∈ m.remaining now, left = 0 ∨ left = 2 ^ 64 - 1 ∨ 0 < (left : Int).bmod (2 ^ 32) := by
  rw [← getNextTimer_cases, ← timely_clamp_iff]
  constructor
  · intro h
    refine h 0 false 0 _ ?_
    unfold idleWaits stopping
    dsimp only
    rw [Bool.and_false, if_neg Bool.false_ne_true]
    exact int_clamp_mem _ 0
  · intro h pending stop n timeout hmem
    unfold idleWaits stopping at hmem
    dsimp only at hmem
    split at hmem
    · exact absurd hmem List.not_mem_nil
    · rw [eq_of_mem_epollWaits hmem]
      exact h

/-- A timer that is due in `2 ^ 31` milliseconds. -/
def distant : TimerManager Unit := ((init 0).addTimer 2147483648 () false 0 0).1

/-- With that timer `epoll_wait` is told to wait for ever. -/
theorem distant_not_timely : ¬ ∀ (m : TimerManager Unit) (now : UInt64) (pendingEventCount : Nat)
    (schedulerStopping : Bool) (interrupts : Nat),
    ∀ timeout ∈ m.idleWaits now pendingEventCount schedulerStopping interrupts, m.Timely now timeout := by
  intro h
  have hwaits : distant.idleWaits 0 0 false 0 = [-2 ^ 31] := by decide
  have htimely := h distant 0 0 false 0 (-2 ^ 31) (by rw [hwaits]; exact List.mem_singleton_self _)
  exact absurd htimely.nonneg (by decide)

end TimerManager

end ServerFrame.Timers
