/-
The deadlines of the hooked sleeps (`sleep`, `usleep` and `nanosleep` of `hook.cc` over `Timer::Timer`). The
operations of the sleeping programs are given their meaning on a `TimerManager` and a clock, and the requested time
is compared with the deadline in nanoseconds.
-/
import ServerFrame.Hook.Wrappers
import ServerFrame.Timer.Step
import Mathlib.Algebra.Ring.Nat
import Mathlib.Algebra.Ring.Int.Defs

namespace ServerFrame.Wrappers

open ServerFrame.Timers (TimerManager Timer)

/-- The thread on which a fiber sleeps: the timers of its `IOManager`, the running fiber, the clock, the address of the
next timer and what the memory holds. -/
structure Sleeper where
  timers : TimerManager Nat
  fiber : Nat
  now : UInt64
  addr : Nat
  memory : Ptr → Time

namespace Sleeper

/-- The operations of the sleeping programs; the callback of a timer is the fiber it schedules. The rest they do not
ask for. -/
def handle : (o : Op) → Sleeper → o.Answer × Sleeper
  | .getThis, s => (true, s)
  | .addTimer ms, s => ((), { s with timers := (s.timers.addTimer ms s.fiber false s.now s.addr).1 })
  | .time p, s => (s.memory p, s)
  | .original _, s | .errno, s | .cancelled, s | .addEvent .., s => ((0 : Int), s)
  | .get .., s => (none, s)
  | .soError _, s => (((0 : Int), (0 : Int)), s)
  | .del _, s | .setTimeout .., s | .setErrno _, s | .addConditionTimer .., s | .cancelTimer, s | .cancelAll _, s
  | .yieldToHold, s => ((), s)

/-- The program sleeps on one new timer, which schedules the running fiber, and the deadline of the timer is not before
`ns` nanoseconds from now. -/
def Lasts (s : Sleeper) (prog : Hooked Int) (ns : Nat) : Prop :=
  ∃ s' t, prog.run handle s = .ret 0 s' ∧ s'.timers.heap = s.timers.heap ++ [t] ∧ t.cb = some s.fiber ∧
    s.now.toNat * 10 ^ 6 + ns ≤ t.next.toNat * 10 ^ 6

variable (s : Sleeper)

/-- `sleepFor` adds a timer with its delay. -/
theorem lasts_sleepFor (ms : UInt64) (ns : Nat) :
    s.Lasts (sleepFor ms) ns ↔ s.now.toNat * 10 ^ 6 + ns ≤ (s.now + ms).toNat * 10 ^ 6 := by
  have hrun : (sleepFor ms).run handle s =
      .ret 0 { s with timers := (s.timers.addTimer ms s.fiber false s.now s.addr).1 } := rfl
  have hheap : (s.timers.addTimer ms s.fiber false s.now s.addr).1.heap =
      s.timers.heap ++ [Timer.new ms s.fiber false s.now s.addr] := (Timers.addTimerLocked_fst _ _).1
  unfold Lasts
  rw [hrun]
  constructor
  · rintro ⟨s', t, hret, ht, -, hle⟩
    cases hret
    rw [hheap, List.append_cancel_left_eq, List.singleton_inj] at ht
    subst ht
    exact hle
  · intro hle
    exact ⟨_, _, rfl, hheap, rfl, hle⟩

/-- A delay is long enough at every clock reading below `2 ^ 63` exactly if it does not wrap a clock around and is not
shorter than what was asked for. -/
theorem lasts_sleepFor_all (ms : UInt64) (ns : Nat) :
    (∀ now : UInt64, now.toNat < 2 ^ 63 → { s with now := now }.Lasts (sleepFor ms) ns) ↔
      ms.toNat ≤ 2 ^ 63 ∧ ns ≤ ms.toNat * 10 ^ 6 := by
  constructor
  · intro h
    have hnow : (9223372036854775807 : UInt64).toNat = 9223372036854775807 := rfl
    have hlast := (lasts_sleepFor _ ms ns).1 (h 9223372036854775807 (by decide))
    have hms := ms.toNat_lt
    dsimp only at hlast
    rw [UInt64.toNat_add, hnow] at hlast
    omega
  · rintro ⟨hms, hns⟩ now hnow
    rw [lasts_sleepFor]
    dsimp only
    rw [UInt64.toNat_add]
    omega

end Sleeper

/-! ## The three conversions -/

theorem toNat_sleep_ms (seconds : UInt32) :
    (seconds * 1000).toUInt64.toNat = seconds.toNat * 1000 % 2 ^ 32 := by
  rw [UInt32.toNat_toUInt64, UInt32.toNat_mul]
  rfl

theorem toNat_usleep_ms (usec : UInt32) : (usec / 1000).toUInt64.toNat = usec.toNat / 1000 := by
  rw [UInt32.toNat_toUInt64, UInt32.toNat_div]
  rfl

/-- The milliseconds of a `timespec` with fields that are not negative, as the `int` that `nanosleep` makes of them. -/
theorem toInt_nanosleep_ms {t : Time} (hfrac : 0 ≤ t.frac) :
    (t.sec * 1000 + t.frac / 1000 / 1000).toInt32.toInt =
      (t.sec.toInt * 1000 + t.frac.toInt / 10 ^ 6).bmod (2 ^ 32) := by
  have hfrac' : 0 ≤ t.frac.toInt := Int64.le_iff_toInt_le.1 hfrac
  have hk : (1000 : Int64).toInt = 1000 := by decide
  have hd1 : (t.frac / 1000).toInt = t.frac.toInt / 1000 := by
    rw [Int64.toInt_div_of_ne_right _ _ (by decide), hk, Int.tdiv_eq_ediv_of_nonneg hfrac']
  have hd2 : (t.frac / 1000 / 1000).toInt = t.frac.toInt / 10 ^ 6 := by
    rw [Int64.toInt_div_of_ne_right _ _ (by decide), hd1, hk, Int.tdiv_eq_ediv_of_nonneg (by omega)]
    omega
  rw [Int64.toInt_toInt32, Int64.toInt_add, Int64.toInt_mul, hd2, hk, Int.bmod_add_bmod]
  exact Int.bmod_bmod_of_dvd (by decide)

/-- An `int` as a `uint64_t`. -/
theorem toNat_toUInt64 (v : Int32) :
    (v.toInt64.toUInt64.toNat : Int) = if 0 ≤ v.toInt then v.toInt else v.toInt + 2 ^ 64 := by
  have hbits : v.toInt64.toInt = (v.toInt64.toUInt64.toNat : Int).bmod (2 ^ 64) := BitVec.toInt_eq_toNat_bmod _
  rw [Int32.toInt_toInt64, Int.bmod_eq_emod] at hbits
  have hlt := v.toInt64.toUInt64.toNat_lt
  have hge := Int32.le_toInt v
  split at hbits <;> split <;> omega

/-! ## Which sleeps last -/

section Sleeps

variable (s : Sleeper)

theorem sleep_lasts_iff (seconds : UInt32) :
    (∀ now : UInt64, now.toNat < 2 ^ 63 → { s with now := now }.Lasts (sleep true seconds) (seconds.toNat * 10 ^ 9)) ↔
      seconds.toNat * 1000 < 2 ^ 32 := by
  have hprog : sleep true seconds = sleepFor (seconds * 1000).toUInt64 := rfl
  rw [hprog, s.lasts_sleepFor_all, toNat_sleep_ms]
  omega

theorem usleep_lasts_iff (usec : UInt32) :
    (∀ now : UInt64, now.toNat < 2 ^ 63 → { s with now := now }.Lasts (usleep true usec) (usec.toNat * 10 ^ 3)) ↔
      usec.toNat % 1000 = 0 := by
  have hprog : usleep true usec = sleepFor (usec / 1000).toUInt64 := rfl
  have hlt := usec.toNat_lt
  rw [hprog, s.lasts_sleepFor_all, toNat_usleep_ms]
  omega

theorem nanosleep_lasts_iff (req rem : Ptr) (fuel : Nat) (hsec : 0 ≤ (s.memory req).sec)
    (hfrac : 0 ≤ (s.memory req).frac) :
    (∀ now : UInt64, now.toNat < 2 ^ 63 → { s with now := now }.Lasts (nanosleep true req rem (fuel + 1))
      ((s.memory req).sec.toInt.toNat * 10 ^ 9 + (s.memory req).frac.toInt.toNat)) ↔
      (s.memory req).frac.toInt.toNat % 10 ^ 6 = 0 ∧
        (s.memory req).sec.toInt.toNat * 1000 + (s.memory req).frac.toInt.toNat / 10 ^ 6 < 2 ^ 31 := by
  have hsec' : 0 ≤ (s.memory req).sec.toInt := Int64.le_iff_toInt_le.1 hsec
  have hfrac' : 0 ≤ (s.memory req).frac.toInt := Int64.le_iff_toInt_le.1 hfrac
  have hint := toInt_nanosleep_ms (t := s.memory req) hfrac
  generalize hv : ((s.memory req).sec * 1000 + (s.memory req).frac / 1000 / 1000).toInt32 = v at hint
  have hprog : ∀ now ns, { s with now := now }.Lasts (nanosleep true req rem (fuel + 1)) ns ↔
      { s with now := now }.Lasts (sleepFor v.toInt64.toUInt64) ns := fun _ _ => hv ▸ Iff.rfl
  have hms := toNat_toUInt64 v
  obtain ⟨sec, hsec⟩ := Int.eq_ofNat_of_zero_le hsec'
  obtain ⟨frac, hfrac⟩ := Int.eq_ofNat_of_zero_le hfrac'
  simp only [hprog]
  rw [s.lasts_sleepFor_all, hsec, hfrac, Int.toNat_natCast, Int.toNat_natCast]
  rw [hsec, hfrac, Int.bmod_eq_emod] at hint
  split at hms <;> split at hint <;> omega

/-- A sleep lasts as long as it was asked to, at every clock reading below `2 ^ 63`, exactly if the milliseconds fit the
type in which the function computes them and nothing below a millisecond was asked for. -/
theorem sleeps_last_iff :
    (∀ seconds : UInt32,
      (∀ now : UInt64, now.toNat < 2 ^ 63 → { s with now := now }.Lasts (sleep true seconds) (seconds.toNat * 10 ^ 9)) ↔
        seconds.toNat * 1000 < 2 ^ 32) ∧
    (∀ usec : UInt32,
      (∀ now : UInt64, now.toNat < 2 ^ 63 → { s with now := now }.Lasts (usleep true usec) (usec.toNat * 10 ^ 3)) ↔
        usec.toNat % 1000 = 0) ∧
    ∀ req rem fuel, 0 ≤ (s.memory req).sec → 0 ≤ (s.memory req).frac →
      ((∀ now : UInt64, now.toNat < 2 ^ 63 → { s with now := now }.Lasts (nanosleep true req rem (fuel + 1))
        ((s.memory req).sec.toInt.toNat * 10 ^ 9 + (s.memory req).frac.toInt.toNat)) ↔
        (s.memory req).frac.toInt.toNat % 10 ^ 6 = 0 ∧
          (s.memory req).sec.toInt.toNat * 1000 + (s.memory req).frac.toInt.toNat / 10 ^ 6 < 2 ^ 31) :=
  ⟨sleep_lasts_iff s, usleep_lasts_iff s, nanosleep_lasts_iff s⟩

/-- A thread without timers at the clock reading 0. -/
def sleepless : Sleeper := ⟨TimerManager.init 0, 0, 0, 0, fun _ => ⟨0, 0⟩⟩

/-- `sleeps_last_iff` for 5 milliseconds. -/
theorem sleeps_last_iff_five :
    (∀ now : UInt64, now.toNat < 2 ^ 63 → { sleepless with now := now, memory := fun _ => ⟨0, 5000000⟩ }.Lasts
      (nanosleep true 0 0 1) (0 * 10 ^ 9 + 5000000)) ↔ 5000000 % 10 ^ 6 = 0 ∧ 0 * 1000 + 5000000 / 10 ^ 6 < 2 ^ 31 :=
  (sleeps_last_iff { sleepless with memory := fun _ => ⟨0, 5000000⟩ }).2.2 0 0 0 (by decide) (by decide)

/-- `usleep(1)` sleeps on a timer that is due at once. -/
theorem usleep_one_not_lasts : ¬ ∀ (s : Sleeper) (usec : UInt32), s.now.toNat < 2 ^ 63 →
    s.Lasts (usleep true usec) (usec.toNat * 10 ^ 3) := by
  intro h
  have hprog : usleep true 1 = sleepFor 0 := rfl
  have hlasts := (sleepless.lasts_sleepFor 0 _).1 (hprog ▸ h sleepless 1 (by decide))
  exact absurd hlasts (by decide)

end Sleeps

end ServerFrame.Wrappers
