/-
Three views of one flag (`hook.cc`, `fd_manager.cc`): `O_NONBLOCK` in the kernel, `m_sysNonblock` and
`m_userNonblock`. The hooks of `socket`, `accept`, `close`, `fcntl` and `ioctl` keep them, some only when the
hook is enabled on the calling thread, some always; contexts are found by descriptor number, and the
kernel gives the number of a closed file to a new one.
-/
import ServerFrame.Hook.FdManager
import ServerFrame.Lib.Run

namespace ServerFrame.Fds

/-- The process, and for every open file the value of `O_NONBLOCK` that the user last set on it by `F_SETFL` or
`FIONBIO`, if any. -/
structure State where
  world : World
  user : Int → Option Bool

/-- The calls. `fd` of `socket` and `accept` is the number the kernel returns, `nonblock` whether the new file is
non-blocking already; `ok` is the success of the system call on an open file. -/
inductive Act
  | socket (hook : Bool) (fd : Int) (nonblock : Bool)
  | accept (hook : Bool) (fd : Int) (nonblock : Bool)
  | close (hook : Bool) (fd : Int)
  | setfl (fd : Int) (arg : Flags) (ok : Bool)
  | fionbio (fd : Int) (arg : Int) (ok : Bool)

namespace World

variable (w : World)

/-- The kernel's part of `socket` and `accept`. -/
def openSocket (fd : Int) (nonblock : Bool) : World :=
  { w with files := Function.update w.files fd (some ⟨true, ⟨nonblock, 0⟩⟩) }

/-- The context that `fcntl` and `ioctl` work with: that of a socket which is not closed. -/
def managed (fd : Int) : Option FdCtx :=
  (w.get fd false).2.bind fun c => if c.isClosed || !c.isSocket then none else some c

/-- `socket(domain, type, protocol)`. -/
def socket (hook : Bool) (fd : Int) (nonblock : Bool) : World :=
  let w := w.openSocket fd nonblock
  if !hook then w else (w.get fd true).1

/-- `accept(s, addr, addrlen)` once `do_io` has returned a descriptor, with the hook enabled or not. -/
def accept (fd : Int) (nonblock : Bool) : World := ((w.openSocket fd nonblock).get fd true).1

/-- `close(fd)`; the events it cancels are not looked at here. -/
def close (hook : Bool) (fd : Int) : World :=
  let w := if hook && (w.get fd false).2.isSome then w.del fd else w
  { w with files := Function.update w.files fd none }

/-- `fcntl_f(fd, F_SETFL, arg)`. -/
def fcntlSetfl_f (fd : Int) (arg : Flags) (ok : Bool) : World := if ok then w.setfl fd arg else w

/-- `fcntl(fd, F_SETFL, arg)`. -/
def fcntlSetfl (fd : Int) (arg : Flags) (ok : Bool) : World :=
  match w.managed fd with
  | none => w.fcntlSetfl_f fd arg ok
  | some ctx =>
    (w.modifyCtx fd fun c => { c with userNonblock := arg.nonblock }).fcntlSetfl_f fd
      { arg with nonblock := ctx.sysNonblock } ok

/-- `fcntl(fd, F_GETFL)`; `none` is the failure on a number that is not open. -/
def fcntlGetfl (fd : Int) : Option Flags :=
  (w.files fd).map fun f =>
    match w.managed fd with
    | none => f.flags
    | some ctx => { f.flags with nonblock := ctx.userNonblock }

/-- `ioctl_f(d, FIONBIO, &arg)`. -/
def ioctlFionbio_f (d : Int) (arg : Int) (ok : Bool) : World :=
  if ok then
    { w with
      files := Function.update w.files d ((w.files d).map fun f =>
        { f with flags := { f.flags with nonblock := decide (arg ≠ 0) } }) }
  else w

/-- `ioctl(d, FIONBIO, &arg)`. -/
def ioctlFionbio (d : Int) (arg : Int) (ok : Bool) : World :=
  match w.managed d with
  | none => w.ioctlFionbio_f d arg ok
  | some _ => (w.modifyCtx d fun c => { c with userNonblock := decide (arg ≠ 0) }).ioctlFionbio_f d arg ok

end World

namespace State

def init : State := { world := { files := fun _ => none, datas := fun _ => none }, user := fun _ => none }

variable (s : State)

/-- The user has set the flag on an open file. -/
def noteSet (fd : Int) (b ok : Bool) (world : World) : State :=
  { world, user := if ok && (s.world.files fd).isSome then Function.update s.user fd (some b) else s.user }

/-- One call. The kernel returns numbers that are not open. -/
def next : Act → Option State
  | .socket hook fd nonblock =>
    if 0 ≤ fd ∧ s.world.files fd = none then
      some { world := s.world.socket hook fd nonblock, user := Function.update s.user fd none }
    else none
  | .accept _ fd nonblock =>
    if 0 ≤ fd ∧ s.world.files fd = none then
      some { world := s.world.accept fd nonblock, user := Function.update s.user fd none }
    else none
  | .close hook fd => some { world := s.world.close hook fd, user := Function.update s.user fd none }
  | .setfl fd arg ok => some (s.noteSet fd arg.nonblock ok (s.world.fcntlSetfl fd arg ok))
  | .fionbio fd arg ok => some (s.noteSet fd (decide (arg ≠ 0)) ok (s.world.ioctlFionbio fd arg ok))

def Step (s : State) (a : Act) (s' : State) : Prop := s.next a = some s'

/-- Managed sockets do not block in the kernel, and `F_GETFL` reports what the user set. -/
structure Agreed (s : State) : Prop where
  nonblocking : ∀ fd f c, s.world.files fd = some f → s.world.datas fd = some c → c.isSocket = true →
    c.sysNonblock = true → f.flags.nonblock = true
  reported : ∀ fd b f, s.user fd = some b → s.world.fcntlGetfl fd = some f → f.nonblock = b

/-- What keeps them so: a new socket whose number still has the context of an earlier one is non-blocking
already; `FIONBIO` on a managed socket does not turn the flag off; and a call that fails on a managed socket
asked for what the user had set before. -/
def Keeps : Act → Prop
  | .socket _ fd nonblock | .accept _ fd nonblock => ∀ c, s.world.datas fd = some c → c.isSocket = true →
      nonblock = true
  | .close _ _ => True
  | .setfl fd arg ok => (s.world.managed fd).isSome → (s.world.files fd).isSome → ok = false →
      ∀ b, s.user fd = some b → arg.nonblock = b
  | .fionbio fd arg ok => (s.world.managed fd).isSome → (s.world.files fd).isSome →
      (ok = true → arg ≠ 0) ∧ (ok = false → ∀ b, s.user fd = some b → decide (arg ≠ 0) = b)

end State

/-! ## One descriptor -/

/-- What `FdCtx::init` leaves: no context is closed, and exactly the sockets were made non-blocking. -/
structure World.Made (w : World) : Prop where
  ctx : ∀ fd c, w.datas fd = some c → c.isClosed = false ∧ c.sysNonblock = c.isSocket
  null : w.datas (-1) = none

/-- The flag `F_GETFL` reports for a file and its context. -/
def shown (f : File) : Option FdCtx → Bool
  | some c => if c.isSocket then c.userNonblock else f.flags.nonblock
  | none => f.flags.nonblock

/-- `Agreed` for one descriptor. -/
def AgreedAt (f : File) (c : Option FdCtx) (u : Option Bool) : Prop :=
  (∀ c', c = some c' → c'.isSocket = true → f.flags.nonblock = true) ∧ ∀ b, u = some b → shown f c = b

theorem agreedAt_unmanaged {f : File} {c : Option FdCtx} {u : Option Bool}
    (hc : ∀ c', c = some c' → c'.isSocket = false) : AgreedAt f c u ↔ ∀ b, u = some b → f.flags.nonblock = b := by
  cases c with
  | none => simp [AgreedAt, shown]
  | some c' => simp [AgreedAt, shown, hc c' rfl]

theorem agreedAt_managed {f : File} {c : FdCtx} {u : Option Bool} (hc : c.isSocket = true) :
    AgreedAt f (some c) u ↔ f.flags.nonblock = true ∧ ∀ b, u = some b → c.userNonblock = b := by
  simp [AgreedAt, shown, hc]

theorem get_false (w : World) (hw : w.Made) (fd : Int) : w.get fd false = (w, w.datas fd) := by
  unfold World.get
  by_cases hfd : fd = -1
  · subst hfd
    simp [hw.null]
  · simp [hfd]

theorem managed_eq {w : World} (hw : w.Made) (fd : Int) :
    w.managed fd = (w.datas fd).bind fun c => if c.isSocket then some c else none := by
  unfold World.managed
  rw [get_false w hw]
  cases hc : w.datas fd with
  | none => rfl
  | some c =>
    simp only [Option.bind_some, (hw.ctx fd c hc).1, Bool.false_or]
    cases c.isSocket <;> rfl

theorem managed_some {w : World} (hw : w.Made) {fd : Int} {c : FdCtx} (h : w.managed fd = some c) :
    w.datas fd = some c ∧ c.isSocket = true := by
  rw [managed_eq hw] at h
  obtain ⟨c', hc', hs⟩ := Option.bind_eq_some_iff.1 h
  split at hs
  · cases hs
    exact ⟨hc', by assumption⟩
  · cases hs

theorem getfl_eq {w : World} (hw : w.Made) (fd : Int) :
    (w.fcntlGetfl fd).map (·.nonblock) = (w.files fd).map fun f => shown f (w.datas fd) := by
  unfold World.fcntlGetfl
  rw [managed_eq hw, Option.map_map]
  congr 1
  funext f
  cases hc : w.datas fd with
  | none => rfl
  | some c => cases h : c.isSocket <;> simp [shown, h]

theorem agreed_iff {s : State} (hw : s.world.Made) :
    s.Agreed ↔ ∀ fd f, s.world.files fd = some f → AgreedAt f (s.world.datas fd) (s.user fd) := by
  constructor
  · intro h fd f hf
    refine ⟨fun c hc hs => h.nonblocking fd f c hf hc hs ((hw.ctx fd c hc).2.trans hs), fun b hb => ?_⟩
    have hg := getfl_eq hw fd
    rw [hf] at hg
    obtain ⟨g, hg1, hg2⟩ := Option.map_eq_some_iff.1 hg
    exact hg2.symm.trans (h.reported fd b g hb hg1)
  · intro h
    refine ⟨fun fd f c hf hc hs _ => (h fd f hf).1 c hc hs, fun fd b g hb hg => ?_⟩
    have hgf := getfl_eq hw fd
    rw [hg, Option.map_some] at hgf
    obtain ⟨f, hf, hfs⟩ := Option.map_eq_some_iff.1 hgf.symm
    rw [← hfs]
    exact (h fd f hf).2 b hb

/-- A call that touches one descriptor. -/
theorem agreed_step {s s' : State} (fd : Int) (hw : s.world.Made) (hw' : s'.world.Made) (h : s.Agreed)
    (hf : ∀ k, k ≠ fd → s'.world.files k = s.world.files k) (hd : ∀ k, k ≠ fd → s'.world.datas k = s.world.datas k)
    (hu : ∀ k, k ≠ fd → s'.user k = s.user k) :
    s'.Agreed ↔ ∀ f, s'.world.files fd = some f → AgreedAt f (s'.world.datas fd) (s'.user fd) := by
  rw [agreed_iff hw'] at *
  rw [agreed_iff hw] at h
  constructor
  · intro h' f
    exact h' fd f
  · intro h' k f hk
    by_cases hkf : k = fd
    · subst hkf
      exact h' f hk
    · rw [hd k hkf, hu k hkf]
      exact h k f (hf k hkf ▸ hk)

/-! ## One call -/

/-- A new socket at a number that still has a context keeps that context, and its own flag. -/
theorem get_openSocket_old {w : World} {fd : Int} {c : FdCtx} (nonblock : Bool) (h0 : 0 ≤ fd)
    (hc : w.datas fd = some c) : ((w.openSocket fd nonblock).get fd true).1 = w.openSocket fd nonblock := by
  have hfd : fd ≠ -1 := by omega
  simp [World.get, hfd, World.openSocket, hc]

/-- Elsewhere it gets a context of its own and is made non-blocking. -/
theorem get_openSocket_new {w : World} {fd : Int} (nonblock : Bool) (h0 : 0 ≤ fd) (hc : w.datas fd = none) :
    ∃ c : FdCtx, c.isSocket = true ∧ c.sysNonblock = true ∧ c.isClosed = false ∧
      ((w.openSocket fd nonblock).get fd true).1 =
        { files := Function.update w.files fd (some ⟨true, ⟨true, 0⟩⟩)
          datas := Function.update w.datas fd (some c) } := by
  have hfd : fd ≠ -1 := by omega
  refine ⟨⟨true, true, true, false, false, ~~~0, ~~~0⟩, rfl, rfl, rfl, ?_⟩
  cases nonblock <;> simp [World.get, hfd, World.openSocket, hc, World.newCtx, World.setfl]

section Calls

variable {s : State} {fd : Int} (hw : s.world.Made) (h : s.Agreed)
include hw h

/-- A socket opened at a number, whose context (if any) stays as it is. -/
theorem open_old (nonblock : Bool) :
    (s.world.openSocket fd nonblock).Made ∧
    (State.Agreed ⟨s.world.openSocket fd nonblock, Function.update s.user fd none⟩ ↔
      ∀ c, s.world.datas fd = some c → c.isSocket = true → nonblock = true) := by
  have hw' : (s.world.openSocket fd nonblock).Made := ⟨hw.ctx, hw.null⟩
  refine ⟨hw', ?_⟩
  rw [agreed_step fd hw hw' h]
  · simp [World.openSocket, AgreedAt]
  · intro k hk
    simp [World.openSocket, Function.update_of_ne hk]
  · intro k _
    rfl
  · intro k hk
    exact Function.update_of_ne hk _ _

/-- A socket opened at a number without a context, by a call that makes one. -/
theorem open_new (nonblock : Bool) (h0 : 0 ≤ fd) (hc : s.world.datas fd = none) :
    (s.world.accept fd nonblock).Made ∧
    State.Agreed ⟨s.world.accept fd nonblock, Function.update s.user fd none⟩ := by
  obtain ⟨c, hs, hn, hcl, hacc⟩ := get_openSocket_new nonblock h0 hc
  unfold World.accept
  rw [hacc]
  have hw' : World.Made ⟨Function.update s.world.files fd (some ⟨true, ⟨true, 0⟩⟩),
      Function.update s.world.datas fd (some c)⟩ := by
    constructor
    · intro k c' hk
      by_cases hkf : k = fd
      · subst hkf
        simp only [Function.update_self, Option.some.injEq] at hk
        subst hk
        exact ⟨hcl, hn.trans hs.symm⟩
      · exact hw.ctx k c' ((Function.update_of_ne hkf _ _).symm.trans hk)
    · have hfd : (-1 : Int) ≠ fd := by omega
      exact (Function.update_of_ne hfd _ _).trans hw.null
  refine ⟨hw', ?_⟩
  rw [agreed_step fd hw hw' h]
  · simp [AgreedAt]
  · intro k hk
    exact Function.update_of_ne hk _ _
  · intro k hk
    exact Function.update_of_ne hk _ _
  · intro k hk
    exact Function.update_of_ne hk _ _

/-- What `accept` does with the descriptor it returns, and `socket` when the hook is enabled. -/
theorem accept_spec (nonblock : Bool) (h0 : 0 ≤ fd) :
    (s.world.accept fd nonblock).Made ∧
    (State.Agreed ⟨s.world.accept fd nonblock, Function.update s.user fd none⟩ ↔
      ∀ c, s.world.datas fd = some c → c.isSocket = true → nonblock = true) := by
  cases hc : s.world.datas fd with
  | none =>
    obtain ⟨h1, h2⟩ := open_new hw h nonblock h0 hc
    simp [h1, h2]
  | some c =>
    have hacc : s.world.accept fd nonblock = s.world.openSocket fd nonblock := get_openSocket_old nonblock h0 hc
    rw [hacc, ← hc]
    exact open_old hw h nonblock

variable (fd) in
theorem close_spec (hook : Bool) :
    (s.world.close hook fd).Made ∧ State.Agreed ⟨s.world.close hook fd, Function.update s.user fd none⟩ := by
  have hd : ∀ k, (s.world.close hook fd).datas k = s.world.datas k ∨ (s.world.close hook fd).datas k = none := by
    intro k
    unfold World.close
    split
    · by_cases hk : k = fd
      · subst hk
        simp [World.del]
      · simp [World.del, Function.update_of_ne hk]
    · exact .inl rfl
  have hw' : (s.world.close hook fd).Made := by
    constructor
    · intro k c hk
      rcases hd k with hd | hd
      · exact hw.ctx k c (hd ▸ hk)
      · simp [hd] at hk
    · rcases hd (-1) with hd | hd
      · exact hd.trans hw.null
      · exact hd
  refine ⟨hw', ?_⟩
  have hf : (s.world.close hook fd).files = Function.update s.world.files fd none := by
    unfold World.close
    split <;> rfl
  rw [agreed_step fd hw hw' h]
  · simp [hf]
  · intro k hk
    simp [hf, Function.update_of_ne hk]
  · intro k hk
    unfold World.close
    split <;> simp [World.del, Function.update_of_ne hk]
  · intro k hk
    exact Function.update_of_ne hk _ _

variable (fd) in
/-- What `F_SETFL` and `FIONBIO` share: the user's flag goes to the context of a managed socket whatever the system
call answers, and the call, where it succeeds, leaves `nb` in the file. -/
theorem set_spec (w' : World) (b ok nb : Bool) (g : Flags → Flags) (hg : ∀ f, (g f).nonblock = nb)
    (hnb : s.world.managed fd = none → nb = b)
    (hf : w'.files = Function.update s.world.files fd ((s.world.files fd).map fun f =>
      { f with flags := if ok then g f.flags else f.flags }))
    (hd : w'.datas = if (s.world.managed fd).isSome then
      (s.world.modifyCtx fd fun c => { c with userNonblock := b }).datas else s.world.datas) :
    w'.Made ∧ ((s.noteSet fd b ok w').Agreed ↔ ((s.world.managed fd).isSome → (s.world.files fd).isSome →
      (ok = true → nb = true) ∧ (ok = false → ∀ u, s.user fd = some u → b = u))) := by
  -- no context appears, and of the one of `fd` only the user's flag changes
  have hmod : ∀ k c, w'.datas k = some c → ∃ c', s.world.datas k = some c' ∧
      c.isClosed = c'.isClosed ∧ c.sysNonblock = c'.sysNonblock ∧ c.isSocket = c'.isSocket := by
    intro k c hk
    rw [hd] at hk
    split at hk
    · by_cases hkf : k = fd
      · subst hkf
        simp only [World.modifyCtx, Function.update_self, Option.map_eq_some_iff] at hk
        obtain ⟨c', hc', rfl⟩ := hk
        exact ⟨c', hc', rfl, rfl, rfl⟩
      · exact ⟨c, (Function.update_of_ne hkf _ _).symm.trans hk, rfl, rfl, rfl⟩
    · exact ⟨c, hk, rfl, rfl, rfl⟩
  have hw' : w'.Made := by
    constructor
    · intro k c hk
      obtain ⟨c', hc', h1, h2, h3⟩ := hmod k c hk
      rw [h1, h2, h3]
      exact hw.ctx k c' hc'
    · cases hk : w'.datas (-1) with
      | none => rfl
      | some c =>
        obtain ⟨c', hc', -⟩ := hmod _ _ hk
        simp [hw.null] at hc'
  refine ⟨hw', ?_⟩
  -- only at `fd` can the agreement change: no file, no managed socket, or a socket with its context
  have hat : (∀ f, w'.files fd = some f → AgreedAt f (w'.datas fd) ((s.noteSet fd b ok w').user fd)) ↔
      ((s.world.managed fd).isSome → (s.world.files fd).isSome →
        (ok = true → nb = true) ∧ (ok = false → ∀ u, s.user fd = some u → b = u)) := by
    cases hfile : s.world.files fd with
    | none => simp [hf, hfile]
    | some f =>
      have hold := (agreed_iff hw).1 h fd f hfile
      cases hm : s.world.managed fd with
      | none =>
        have hns : ∀ c, s.world.datas fd = some c → c.isSocket = false := by
          intro c hc
          rw [managed_eq hw] at hm
          simpa [hc] using hm
        rw [agreedAt_unmanaged hns] at hold
        have hd' : w'.datas = s.world.datas := by simp [hd, hm]
        rw [hd', hf, hfile, Function.update_self]
        cases ok with
        | false => simpa [State.noteSet, agreedAt_unmanaged hns] using hold
        | true => simp [State.noteSet, agreedAt_unmanaged hns, hfile, hg, hnb hm]
      | some c =>
        obtain ⟨hc, hs⟩ := managed_some hw hm
        rw [hc, agreedAt_managed hs] at hold
        have hd' : w'.datas fd = some { c with userNonblock := b } := by simp [hd, hm, World.modifyCtx, hc]
        rw [hd', hf, hfile, Function.update_self]
        cases ok with
        | false => simp [State.noteSet, agreedAt_managed, hs, hold.1]
        | true => simp [State.noteSet, agreedAt_managed, hs, hfile, hg]
  rw [← hat]
  refine agreed_step fd hw hw' h ?_ ?_ ?_
  · intro k hk
    simp [State.noteSet, hf, Function.update_of_ne hk]
  · intro k hk
    simp only [State.noteSet, hd]
    split
    · exact Function.update_of_ne hk _ _
    · rfl
  · intro k hk
    simp only [State.noteSet]
    split
    · exact Function.update_of_ne hk _ _
    · rfl

theorem setfl_spec (arg : Flags) (ok : Bool) :
    (s.world.fcntlSetfl fd arg ok).Made ∧
    ((s.noteSet fd arg.nonblock ok (s.world.fcntlSetfl fd arg ok)).Agreed ↔ s.Keeps (.setfl fd arg ok)) := by
  -- the flag that reaches the kernel: `m_sysNonblock` of a managed socket, else the user's
  let nb := ((s.world.managed fd).map (·.sysNonblock)).getD arg.nonblock
  have hspec := set_spec fd hw h (s.world.fcntlSetfl fd arg ok) arg.nonblock ok nb (fun _ =>
    { arg with nonblock := nb })
    (fun _ => rfl) (fun hm => by simp [nb, hm])
    (by cases hm : s.world.managed fd <;> cases ok <;>
      simp [World.fcntlSetfl, hm, World.fcntlSetfl_f, World.setfl, World.modifyCtx, nb])
    (by cases hm : s.world.managed fd <;> cases ok <;>
      simp [World.fcntlSetfl, hm, World.fcntlSetfl_f, World.setfl])
  refine ⟨hspec.1, hspec.2.trans ?_⟩
  have hnb : (s.world.managed fd).isSome → nb = true := by
    intro hm
    obtain ⟨c, hc⟩ := Option.isSome_iff_exists.1 hm
    obtain ⟨hc', hs⟩ := managed_some hw hc
    simp [nb, hc, (hw.ctx fd c hc').2, hs]
  constructor
  · intro hk hm hfile
    exact (hk hm hfile).2
  · intro hk hm hfile
    exact ⟨fun _ => hnb hm, hk hm hfile⟩

theorem fionbio_spec (arg : Int) (ok : Bool) :
    (s.world.ioctlFionbio fd arg ok).Made ∧
    ((s.noteSet fd (decide (arg ≠ 0)) ok (s.world.ioctlFionbio fd arg ok)).Agreed ↔ s.Keeps (.fionbio fd arg ok)) := by
  have hspec := set_spec fd hw h (s.world.ioctlFionbio fd arg ok) (decide (arg ≠ 0)) ok (decide (arg ≠ 0))
    (fun f => { f with nonblock := decide (arg ≠ 0) }) (fun _ => rfl) (fun _ => rfl)
    (by cases hm : s.world.managed fd <;> cases ok <;>
      simp [World.ioctlFionbio, hm, World.ioctlFionbio_f, World.modifyCtx])
    (by cases hm : s.world.managed fd <;> cases ok <;>
      simp [World.ioctlFionbio, hm, World.ioctlFionbio_f])
  refine ⟨hspec.1, hspec.2.trans ?_⟩
  simp only [State.Keeps, decide_eq_true_eq]

end Calls

/-- One call keeps the views together exactly when it meets the condition. -/
theorem next_spec {s s' : State} {a : Act} (hw : s.world.Made) (h : s.Agreed) (hs : s.Step a s') :
    s'.world.Made ∧ (s'.Agreed ↔ s.Keeps a) := by
  unfold State.Step at hs
  cases a with
  | socket hook fd nonblock =>
    simp only [State.next, Option.ite_none_right_eq_some, Option.some.injEq] at hs
    obtain ⟨⟨h0, -⟩, rfl⟩ := hs
    cases hook with
    | false => exact open_old hw h nonblock
    | true => exact accept_spec hw h nonblock h0
  | accept hook fd nonblock =>
    simp only [State.next, Option.ite_none_right_eq_some, Option.some.injEq] at hs
    obtain ⟨⟨h0, -⟩, rfl⟩ := hs
    exact accept_spec hw h nonblock h0
  | close hook fd =>
    cases hs
    obtain ⟨h1, h2⟩ := close_spec fd hw h hook
    exact ⟨h1, iff_of_true h2 trivial⟩
  | setfl fd arg ok =>
    cases hs
    exact setfl_spec hw h arg ok
  | fionbio fd arg ok =>
    cases hs
    exact fionbio_spec hw h arg ok

/-! ## Whole runs -/

theorem made_init : State.init.world.Made := ⟨by simp [State.init], rfl⟩

theorem agreed_init : State.init.Agreed :=
  ⟨by simp [State.init], by simp [State.init]⟩

/-- The three views agree all along a run exactly when all its calls meet the condition. -/
theorem views_agree {l : List Act} {s : State} (h : Lts.Run State.Step State.init l s) :
    (∀ l1 l2 t, l = l1 ++ l2 → Lts.Run State.Step State.init l1 t → t.Agreed) ↔
      ∀ l1 a l2 t, l = l1 ++ a :: l2 → Lts.Run State.Step State.init l1 t → t.Keeps a := by
  have hd : ∀ s a t u, State.Step s a t → State.Step s a u → t = u := by
    intro s a t u ht hu
    exact Option.some.inj (ht.symm.trans hu)
  rw [← h.invariant_iff (P := fun s => s.world.Made ∧ s.Agreed) hd ⟨made_init, agreed_init⟩]
  · constructor
    · intro hA l1 l2 t hl ht
      refine ⟨?_, hA l1 l2 t hl ht⟩
      clear h
      induction ht generalizing l2 with
      | nil => exact made_init
      | @snoc m v u a hm hst ih =>
        rw [List.append_assoc] at hl
        exact (next_spec (ih _ hl) (hA m _ v hl hm) hst).1
    · intro hP l1 l2 t hl ht
      exact (hP l1 l2 t hl ht).2
  · intro t a u ht hu
    obtain ⟨h1, h2⟩ := next_spec ht.1 ht.2 hu
    exact (and_iff_right h1).trans h2

theorem views_agree_setfl :
    let l := [.socket true 3 false, .setfl 3 ⟨true, 0⟩ true, .close true 3]
    ∃ s, Lts.Run State.Step State.init l s ∧
      ((∀ l1 l2 t, l = l1 ++ l2 → Lts.Run State.Step State.init l1 t → t.Agreed) ↔
        ∀ l1 a l2 t, l = l1 ++ a :: l2 → Lts.Run State.Step State.init l1 t → t.Keeps a) := by
  have h : Lts.Run State.Step State.init [.socket true 3 false, .setfl 3 ⟨true, 0⟩ true, .close true 3] _ :=
    .cons rfl (.cons rfl (.single rfl))
  exact ⟨_, h, views_agree h⟩

/-- `FIONBIO` with 0 on a socket that the hook manages: the flag is cleared in the kernel, where `F_SETFL` would
have kept it. -/
theorem fionbio_off_blocks :
    ¬ ∀ l s, Lts.Run State.Step State.init l s → s.Agreed := by
  intro h
  have hrun : Lts.Run State.Step State.init [.socket true 3 false, .fionbio 3 0 true] _ := .cons rfl (.single rfl)
  have := (h _ _ hrun).nonblocking 3 ⟨true, ⟨false, 0⟩⟩ ⟨true, true, true, false, false, ~~~0, ~~~0⟩ rfl rfl rfl rfl
  cases this

end ServerFrame.Fds
