/-
The hooked functions on a thread whose hook is disabled. All eighteen reach the original function, two of them by
another way than the rest: `accept` looks at the descriptor it gets whether the hook is enabled or not, and
`nanosleep` calls itself.
-/
import ServerFrame.Hook.Wrappers

namespace ServerFrame.Wrappers

open ServerFrame.Fds (File FdCtx World)

/-- The process: the kernel's files and `FdManager`, `errno`, the calls of original functions so far, and the rest. -/
structure Proc (σ : Type) where
  rest : σ
  world : World
  errno : Int
  log : List Original

/-- What an original function leaves: its return value, `errno`, the rest of the process and the files. -/
structure Reply (σ : Type) where
  ret : Int
  errno : Int
  rest : σ
  files : Int → Option File

/-- The system under the hooks: the original functions, which know nothing of `FdManager`, and everything else. -/
structure Host (σ : Type) where
  original : Original → σ → (Int → Option File) → Int → Reply σ
  manager : (o : Op) → Proc σ → o.Answer × Proc σ

namespace Host

variable {σ : Type} (host : Host σ)

def reply (f : Original) (p : Proc σ) : Reply σ := host.original f p.rest p.world.files p.errno

/-- The process after one call of an original function. -/
def after (f : Original) (p : Proc σ) : Proc σ :=
  let r := host.reply f p
  { rest := r.rest, world := { p.world with files := r.files }, errno := r.errno, log := p.log ++ [f] }

def handle : (o : Op) → Proc σ → o.Answer × Proc σ
  | .original f, p => ((host.reply f p).ret, host.after f p)
  | .get fd auto_create, p => ((p.world.get fd auto_create).2, { p with world := (p.world.get fd auto_create).1 })
  | .del fd, p => ((), { p with world := p.world.del fd })
  | .setTimeout fd recv v, p => ((), { p with world := p.world.modifyCtx fd fun c => c.setTimeout recv v })
  | .errno, p => (p.errno, p)
  | .setErrno e, p => ((), { p with errno := e })
  | o, p => host.manager o p

end Host

/-- The hooked function of `f`, called with the hook disabled, returns what `f` returns and leaves the process as one
call of `f` with the same arguments does. -/
def Transparent {σ : Type} (host : Host σ) (connect_timeout : UInt64) (f : Original) (p : Proc σ) : Prop :=
  ∃ n, ∀ fuel ≥ n, (hooked false connect_timeout fuel f).run host.handle p = .ret (host.reply f p).ret (host.after f p)

/-! ## The ways to the original function -/

section Disabled

variable {σ : Type} (host : Host σ) (p : Proc σ)

theorem run_doIo (fd : Int) (fn : Original) (event : Events.Event) (fuel : Nat) :
    (doIo false fd fn event fuel).run host.handle p = .ret (host.reply fn p).ret (host.after fn p) := rfl

/-- The recursion of `nanosleep` has no end. -/
theorem run_nanosleep (req rem : Ptr) (fuel : Nat) : (nanosleep false req rem fuel).run host.handle p = .more p := by
  induction fuel with
  | zero => rfl
  | succ fuel ih => exact ih

/-- `accept` gives a descriptor it returns to `FdManager`. -/
theorem run_accept (s : Int) (addr addrlen : Ptr) (fuel : Nat) :
    let f := Original.accept s addr addrlen
    (accept false s addr addrlen fuel).run host.handle p =
      .ret (host.reply f p).ret (if 0 ≤ (host.reply f p).ret then
        { host.after f p with world := ((host.after f p).world.get (host.reply f p).ret true).1 }
          else host.after f p) := by
  intro f
  unfold accept
  rw [Effect.Prog.run_bind _ (run_doIo host p s f .read fuel)]
  split <;> rfl

/-- `FdManager::get(fd, true)` changes nothing exactly when there is a context. -/
theorem get_true_eq_self (w : World) {fd : Int} (h : 0 ≤ fd) : (w.get fd true).1 = w ↔ (w.datas fd).isSome := by
  have hfd : fd ≠ -1 := by omega
  cases hc : w.datas fd with
  | some c => simp [World.get, hfd, hc]
  | none =>
    simp only [Option.isSome_none, Bool.false_eq_true, iff_false]
    intro heq
    have hnew : (w.get fd true).1.datas fd = some (w.newCtx fd).2 := by simp [World.get, hfd, hc]
    rw [heq, hc] at hnew
    cases hnew

end Disabled

/-! ## Transparency -/

section Transparency

variable {σ : Type} (host : Host σ) (connect_timeout : UInt64) (p : Proc σ)

theorem not_transparent_nanosleep (req rem : Ptr) : ¬ Transparent host connect_timeout (.nanosleep req rem) p := by
  rintro ⟨n, hn⟩
  have := hn n (Nat.le_refl n)
  rw [hooked, run_nanosleep] at this
  cases this

theorem transparent_accept {f : Original} {s : Int} {addr addrlen : Ptr} (hf : f = .accept s addr addrlen) :
    Transparent host connect_timeout f p ↔
      ((host.reply f p).ret < 0 ∨ (p.world.datas (host.reply f p).ret).isSome) := by
  have hrun : ∀ fuel, (hooked false connect_timeout fuel f).run host.handle p =
      .ret (host.reply f p).ret (if 0 ≤ (host.reply f p).ret then
        { host.after f p with world := ((host.after f p).world.get (host.reply f p).ret true).1 }
          else host.after f p) := by
    intro fuel
    subst hf
    exact run_accept host p s addr addrlen fuel
  simp only [Transparent, hrun, Effect.End.ret.injEq, true_and]
  by_cases h0 : 0 ≤ (host.reply f p).ret
  · have hsome : (p.world.datas (host.reply f p).ret).isSome ↔
        ((host.after f p).world.get (host.reply f p).ret true).1 = (host.after f p).world :=
      (get_true_eq_self (host.after f p).world h0).symm
    rw [if_pos h0, or_iff_right (by omega), hsome]
    constructor
    · rintro ⟨n, hn⟩
      exact congrArg Proc.world (hn n (Nat.le_refl n))
    · intro h
      exact ⟨0, fun _ _ => by rw [h]⟩
  · rw [if_neg h0]
    exact iff_of_true ⟨0, fun _ _ => rfl⟩ (.inl (by omega))

/-- With the hook disabled, every call but that of `nanosleep` is transparent, with the exception of an `accept` that
returns a descriptor without a context. -/
theorem transparent_iff (f : Original) :
    Transparent host connect_timeout f p ↔
      (∀ req rem, f ≠ .nanosleep req rem) ∧
      ∀ s addr addrlen, f = .accept s addr addrlen →
        (host.reply f p).ret < 0 ∨ (p.world.datas (host.reply f p).ret).isSome := by
  cases f with
  | nanosleep req rem =>
    refine iff_of_false (not_transparent_nanosleep host connect_timeout p req rem) ?_
    intro h
    exact h.1 req rem rfl
  | accept s addr addrlen =>
    rw [transparent_accept host connect_timeout p rfl]
    constructor
    · intro h
      refine ⟨?_, ?_⟩
      · intro req rem hf
        cases hf
      · intro s' addr' addrlen' hf
        exact h
    · intro h
      exact h.2 s addr addrlen rfl
  | sleep | usleep | socket | connect | read | readv | recv | recvfrom | recvmsg | write | writev | send
    | sendto | sendmsg
  | close | setsockopt =>
    refine iff_of_true ⟨0, fun fuel _ => rfl⟩ ?_
    simp

/-- Every original function returns 0 and nothing is recorded. -/
def idleHost : Host Unit where
  original _ _ files errno := { ret := 0, errno, rest := (), files }
  manager o p := match o with
    | .original _ | .errno | .cancelled | .addEvent .. => ((0 : Int), p)
    | .get .. => (none, p)
    | .getThis => (false, p)
    | .soError _ => ((0, 0), p)
    | .time _ => (⟨0, 0⟩, p)
    | .del _ | .setTimeout .. | .setErrno _ | .addTimer _ | .addConditionTimer .. | .cancelTimer | .cancelAll _
    | .yieldToHold => ((), p)

/-- `nanosleep` with the hook disabled calls itself, where `sleep` and `usleep` call the original function. -/
theorem nanosleep_not_transparent :
    ¬ ∀ (host : Host Unit) (connect_timeout : UInt64) (f : Original) (p : Proc Unit),
      Transparent host connect_timeout f p := by
  intro h
  exact not_transparent_nanosleep idleHost 5000 ⟨(), ⟨fun _ => none, fun _ => none⟩, 0, []⟩ 4096 0
    (h idleHost 5000 (.nanosleep 4096 0) _)

end Transparency

end ServerFrame.Wrappers
