/-
The tables indexed by descriptors, `m_datas` of `FdManager` (`fd_manager.cc`) and `m_fdContexts` of `IOManager`
(`iomanager.cc`), with the signed comparisons and indices of the source: a descriptor is any `int`, a size is cast to
`int` before it is compared, and an index is a descriptor as a `size_t`. An operation ends with `Except.error` where it
indexes a table at or beyond its size.
-/
import ServerFrame.Hook.FdManager
import ServerFrame.Event.Table
import ServerFrame.Lib.Run
import ServerFrame.Lib.Fallible

namespace ServerFrame.Descriptors

open ServerFrame.Fds (File FdCtx World)
open ServerFrame.Events (Abort Caller Event IOManager Result)

universe u v

/-- An access to a vector of `size` elements at an index that is not below it. -/
structure OutOfRange where
  index : Int
  size : Nat
  deriving DecidableEq, Repr

/-- `v[fd]`; a negative `fd` is an index from `2 ^ 63` on. -/
def at' {α : Type u} (v : List α) (fd : Int) : Except OutOfRange α :=
  if 0 ≤ fd then
    match v[fd.toNat]? with
    | some a => .ok a
    | none => .error ⟨fd, v.length⟩
  else .error ⟨fd, v.length⟩

/-- `(int) v.size()`. -/
def intSize (size : Nat) : Int := (size : Int).bmod (2 ^ 32)

/-- `fd * 1.5` as a `size_t`, for an `fd` that is not negative. -/
def grown (fd : Int) : Nat := fd.toNat * 3 / 2

/-! ## `FdManager` -/

/-- `FdManager`, beside the kernel's open files. -/
structure FdManager where
  files : Int → Option File
  datas : List (Option FdCtx)

namespace FdManager

variable (m : FdManager)

/-- `FdManager::FdManager()`. -/
def init (files : Int → Option File) : FdManager := { files, datas := List.replicate 64 none }

/-- `m_datas.resize(size)`. -/
def resize (size : Nat) : FdManager :=
  { m with datas := m.datas.take size ++ List.replicate (size - m.datas.length) none }

/-- The part of `get` under the write lock. -/
def create (fd : Int) : Except OutOfRange (FdManager × Option FdCtx) :=
  let (w, ctx) := World.newCtx ⟨m.files, fun _ => none⟩ fd
  let m := if intSize m.datas.length ≤ fd then m.resize (grown fd) else m
  (at' m.datas fd).map fun _ => ({ files := w.files, datas := m.datas.set fd.toNat (some ctx) }, some ctx)

/-- `FdManager::get(fd, auto_create)`. -/
def get (fd : Int) (auto_create : Bool) : Except OutOfRange (FdManager × Option FdCtx) :=
  if fd = -1 then .ok (m, none)
  else if intSize m.datas.length ≤ fd then
    if !auto_create then .ok (m, none) else m.create fd
  else
    match at' m.datas fd with
    | .error e => .error e
    | .ok ctx => if ctx.isSome || !auto_create then .ok (m, ctx) else m.create fd

/-- `FdManager::del(fd)`. -/
def del (fd : Int) : Except OutOfRange FdManager :=
  if intSize m.datas.length ≤ fd then .ok m
  else (at' m.datas fd).map fun _ => { m with datas := m.datas.set fd.toNat none }

end FdManager

/-! ## `IOManager` -/

section IOManager

variable {F : Type u} {C : Type v} (memory : Nat → Event → Option Nat) (s : IOManager F C)

/-- `IOManager::addEvent(fd, event, cb)`. -/
def addEvent (fd : Int) (e : Event) (caller : Caller F C) (ok : Bool) :
    Except OutOfRange (Except Abort (Result F C)) :=
  let s := if fd < intSize s.fdContexts.length then s else s.contextResize memory (grown fd)
  (at' s.fdContexts fd).map fun p => s.addEventLocked p fd.toNat e caller ok

/-- The test and the index that the other operations begin with. -/
def onSlot (fd : Int) (f : Nat → Except Abort (Result F C)) : Except OutOfRange (Except Abort (Result F C)) :=
  if intSize s.fdContexts.length ≤ fd then .ok (.ok s.refused)
  else (at' s.fdContexts fd).map f

/-- `IOManager::delEvent(fd, event)`. -/
def delEvent (fd : Int) (e : Event) (ok : Bool) : Except OutOfRange (Except Abort (Result F C)) :=
  onSlot s fd fun p => s.delEventLocked p fd.toNat e ok

/-- `IOManager::cancelEvent(fd, event)`. -/
def cancelEvent (fd : Int) (e : Event) (ok : Bool) : Except OutOfRange (Except Abort (Result F C)) :=
  onSlot s fd fun p => s.cancelEventLocked p fd.toNat e ok

/-- `IOManager::cancelAll(fd)`. -/
def cancelAll (fd : Int) (ok : Bool) : Except OutOfRange (Except Abort (Result F C)) :=
  onSlot s fd fun p => s.cancelAllLocked p fd.toNat ok

end IOManager

/-! ## Calls -/

/-- The two tables. -/
structure Tables (F : Type u) (C : Type v) where
  fds : FdManager
  io : IOManager F C

/-- A call, with the outcome of the `epoll_ctl` it may make. -/
inductive Call (F : Type u) (C : Type v)
  | get (fd : Int) (auto_create : Bool)
  | del (fd : Int)
  | addEvent (fd : Int) (e : Event) (caller : Caller F C) (ok : Bool)
  | delEvent (fd : Int) (e : Event) (ok : Bool)
  | cancelEvent (fd : Int) (e : Event) (ok : Bool)
  | cancelAll (fd : Int) (ok : Bool)

section Calls

variable {F : Type u} {C : Type v}

/-- `Socket::cancelRead()`, `sock` being `m_sock`: -1 on a closed socket. -/
def cancelRead (sock : Int) (ok : Bool) : Call F C := .cancelEvent sock .read ok

/-- `Socket::cancelWrite()`. -/
def cancelWrite (sock : Int) (ok : Bool) : Call F C := .cancelEvent sock .write ok

/-- `Socket::cancelAccept()`. -/
def cancelAccept (sock : Int) (ok : Bool) : Call F C := .cancelEvent sock .read ok

/-- `Socket::cancelAll()`. -/
def cancelAllEvents (sock : Int) (ok : Bool) : Call F C := .cancelAll sock ok

def Call.fd : Call F C → Int
  | get fd _ | del fd | addEvent fd _ _ _ | delEvent fd _ _ | cancelEvent fd _ _ | cancelAll fd _ => fd

variable (memory : Nat → Event → Option Nat)

/-- The tables after a call on the side of the events, unless an assertion ends the process. -/
def Tables.after (t : Tables F C) (r : Except OutOfRange (Except Abort (Result F C))) :
    Except OutOfRange (Except Abort (Tables F C)) :=
  r.map fun r => r.map fun r => { t with io := r.state }

def exec (t : Tables F C) : Call F C → Except OutOfRange (Except Abort (Tables F C))
  | .get fd auto_create => (t.fds.get fd auto_create).map fun r => .ok { t with fds := r.1 }
  | .del fd => (t.fds.del fd).map fun m => .ok { t with fds := m }
  | .addEvent fd e caller ok => t.after (addEvent memory t.io fd e caller ok)
  | .delEvent fd e ok => t.after (delEvent t.io fd e ok)
  | .cancelEvent fd e ok => t.after (cancelEvent t.io fd e ok)
  | .cancelAll fd ok => t.after (cancelAll t.io fd ok)

/-- A call that ends neither out of range nor in an assertion. -/
def Step (t : Tables F C) (c : Call F C) (t' : Tables F C) : Prop := exec memory t c = .ok (.ok t')

/-- The constructed tables. -/
def init (files : Int → Option File) : Tables F C := ⟨.init files, .init memory⟩

/-- The call indexes no table at or beyond its size. -/
def InRange (t : Tables F C) (c : Call F C) : Prop := ∃ r, exec memory t c = .ok r

/-- What keeps a call in range: the descriptor is not negative and below the size, the table grows beyond it, or the
call returns before it indexes the table. -/
def Call.Fits (t : Tables F C) : Call F C → Prop
  | .get fd auto_create =>
    fd = -1 ∨ intSize t.fds.datas.length ≤ fd ∧ (auto_create = false ∨ 2 ≤ fd) ∨
      0 ≤ fd ∧ fd < intSize t.fds.datas.length
  | .del fd => intSize t.fds.datas.length ≤ fd ∨ 0 ≤ fd
  | .addEvent fd _ _ _ => 2 ≤ fd ∨ 0 ≤ fd ∧ fd < intSize t.io.fdContexts.length
  | .delEvent fd _ _ | .cancelEvent fd _ _ | .cancelAll fd _ => intSize t.io.fdContexts.length ≤ fd ∨ 0 ≤ fd

end Calls

/-! ## The indices -/

section Indices

variable {α : Type u} {fd : Int}

theorem at_ok_iff {v : List α} : (∃ a, at' v fd = .ok a) ↔ 0 ≤ fd ∧ fd < v.length := by
  unfold at'
  constructor
  · rintro ⟨a, h⟩
    split at h
    · rename_i h0
      split at h
      · rename_i hget
        have := (List.getElem?_eq_some_iff.1 hget).1
        exact ⟨h0, by omega⟩
      · cases h
    · cases h
  · rintro ⟨h0, hlt⟩
    have hlt' : fd.toNat < v.length := by omega
    rw [if_pos h0, List.getElem?_eq_getElem hlt']
    exact ⟨_, rfl⟩

/-- A size as an `int` is not larger than the size. -/
theorem intSize_le (n : Nat) : intSize n ≤ n := by
  unfold intSize
  rw [Int.bmod_def]
  split <;> omega

theorem intSize_of_lt {n : Nat} (h : n < 2 ^ 31) : intSize n = n := Int.bmod_eq_of_le_mul_two (by omega) (by omega)

theorem lt_grown_iff : 0 ≤ fd ∧ fd < grown fd ↔ 2 ≤ fd := by
  unfold grown
  omega

end Indices

/-! ## The functions -/

section FdManager

variable {m : FdManager} {fd : Int}

theorem length_resize (m : FdManager) (size : Nat) : (m.resize size).datas.length = size := by
  unfold FdManager.resize
  rw [List.length_append, List.length_take, List.length_replicate]
  omega

theorem create_ok_iff : (∃ r, m.create fd = .ok r) ↔
    intSize m.datas.length ≤ fd ∧ 2 ≤ fd ∨ 0 ≤ fd ∧ fd < intSize m.datas.length := by
  unfold FdManager.create
  dsimp only
  rw [Except.map_ok_iff, at_ok_iff]
  have hle := intSize_le m.datas.length
  split
  · rename_i hsize
    rw [length_resize, lt_grown_iff]
    omega
  · rename_i hsize
    omega

theorem get_ok_iff {auto_create : Bool} : (∃ r, m.get fd auto_create = .ok r) ↔
    fd = -1 ∨ intSize m.datas.length ≤ fd ∧ (auto_create = false ∨ 2 ≤ fd) ∨
      0 ≤ fd ∧ fd < intSize m.datas.length := by
  have hle := intSize_le m.datas.length
  unfold FdManager.get
  split
  · rename_i h1
    exact iff_of_true ⟨_, rfl⟩ (.inl h1)
  · rename_i h1
    split
    · rename_i hsize
      cases auto_create with
      | false => exact iff_of_true ⟨_, rfl⟩ (.inr (.inl ⟨hsize, .inl rfl⟩))
      | true =>
        rw [if_neg (by decide), create_ok_iff]
        simp only [Bool.true_eq_false, false_or]
        omega
    · rename_i hsize
      rcases hat : at' m.datas fd with e | ctx
      · refine iff_of_false ?_ ?_
        · rintro ⟨r, h⟩
          cases h
        · intro h
          obtain ⟨a, ha⟩ := at_ok_iff.2 (show 0 ≤ fd ∧ fd < m.datas.length by omega)
          rw [hat] at ha
          cases ha
      · have hfd := at_ok_iff.1 ⟨ctx, hat⟩
        refine iff_of_true ?_ (.inr (.inr ⟨hfd.1, by omega⟩))
        dsimp only
        split
        · exact ⟨_, rfl⟩
        · exact create_ok_iff.2 (.inr ⟨hfd.1, by omega⟩)

theorem del_ok_iff : (∃ r, m.del fd = .ok r) ↔ intSize m.datas.length ≤ fd ∨ 0 ≤ fd := by
  have hle := intSize_le m.datas.length
  unfold FdManager.del
  split
  · rename_i hsize
    exact iff_of_true ⟨_, rfl⟩ (.inl hsize)
  · rename_i hsize
    rw [Except.map_ok_iff, at_ok_iff]
    omega

end FdManager

section IOManager

variable {F : Type u} {C : Type v} {memory : Nat → Event → Option Nat} {s : IOManager F C} {fd : Int}

theorem addEvent_ok_iff {e : Event} {caller : Caller F C} {ok : Bool} :
    (∃ r, addEvent memory s fd e caller ok = .ok r) ↔ 2 ≤ fd ∨ 0 ≤ fd ∧ fd < intSize s.fdContexts.length := by
  have hle := intSize_le s.fdContexts.length
  unfold addEvent
  dsimp only
  rw [Except.map_ok_iff, at_ok_iff]
  split
  · omega
  · rw [Events.contextResize_length, lt_grown_iff]
    omega

theorem onSlot_ok_iff {f : Nat → Except Abort (Result F C)} :
    (∃ r, onSlot s fd f = .ok r) ↔ intSize s.fdContexts.length ≤ fd ∨ 0 ≤ fd := by
  have hle := intSize_le s.fdContexts.length
  unfold onSlot
  split
  · rename_i hsize
    exact iff_of_true ⟨_, rfl⟩ (.inl hsize)
  · rw [Except.map_ok_iff, at_ok_iff]
    omega

/-- A call is in range exactly if it fits the tables. -/
theorem inRange_iff {t : Tables F C} {c : Call F C} : InRange memory t c ↔ c.Fits t := by
  unfold InRange
  cases c with
  | get fd auto_create => exact Except.map_ok_iff.trans get_ok_iff
  | del fd => exact Except.map_ok_iff.trans del_ok_iff
  | addEvent fd e caller ok => exact Except.map_ok_iff.trans addEvent_ok_iff
  | delEvent fd e ok => exact Except.map_ok_iff.trans onSlot_ok_iff
  | cancelEvent fd e ok => exact Except.map_ok_iff.trans onSlot_ok_iff
  | cancelAll fd ok => exact Except.map_ok_iff.trans onSlot_ok_iff

end IOManager

/-! ## The tables as functions of the descriptor -/

section Refinement

/-- The contexts by descriptor, as `World` has them. -/
def view (datas : List (Option FdCtx)) (fd : Int) : Option FdCtx := if 0 ≤ fd then datas[fd.toNat]?.join else none

def FdManager.world (m : FdManager) : World := ⟨m.files, view m.datas⟩

theorem at_eq_ok {α : Type u} {v : List α} {fd : Int} {a : α} (h : at' v fd = .ok a) :
    0 ≤ fd ∧ v[fd.toNat]? = some a := by
  unfold at' at h
  split at h
  · rename_i h0
    split at h
    · rename_i hget
      cases h
      exact ⟨h0, hget⟩
    · cases h
  · cases h

theorem view_of_at {datas : List (Option FdCtx)} {fd : Int} {ctx : Option FdCtx} (h : at' datas fd = .ok ctx) :
    view datas fd = ctx := by
  obtain ⟨h0, hget⟩ := at_eq_ok h
  rw [view, if_pos h0, hget, Option.join_some]

theorem view_of_length_le {datas : List (Option FdCtx)} {fd : Int} (h : (datas.length : Int) ≤ fd) :
    view datas fd = none := by
  unfold view
  rw [List.getElem?_eq_none (by omega)]
  exact ite_self _

theorem view_set {datas : List (Option FdCtx)} {fd : Int} (h : 0 ≤ fd ∧ fd < datas.length) (ctx : Option FdCtx) :
    view (datas.set fd.toNat ctx) = Function.update (view datas) fd ctx := by
  funext fd'
  by_cases heq : fd' = fd
  · subst heq
    rw [Function.update_self, view, if_pos h.1, List.getElem?_set_self (by omega), Option.join_some]
  · rw [Function.update_of_ne heq]
    unfold view
    split
    · rw [List.getElem?_set_ne (by omega)]
    · rfl

theorem view_resize {m : FdManager} {size : Nat} (h : m.datas.length ≤ size) :
    view (m.resize size).datas = view m.datas := by
  funext fd
  unfold view FdManager.resize
  split
  · dsimp only
    rw [List.take_of_length_le h]
    rcases Nat.lt_or_ge fd.toNat m.datas.length with hlt | hge
    · rw [List.getElem?_append_left hlt]
    · rw [List.getElem?_append_right hge, List.getElem?_eq_none hge, List.getElem?_replicate]
      split <;> rfl
  · rfl

theorem newCtx_datas (files : Int → Option File) (datas datas' : Int → Option FdCtx) (fd : Int) :
    (World.newCtx ⟨files, datas⟩ fd).1 = ⟨(World.newCtx ⟨files, datas'⟩ fd).1.files, datas⟩ ∧
      (World.newCtx ⟨files, datas⟩ fd).2 = (World.newCtx ⟨files, datas'⟩ fd).2 := by
  unfold World.newCtx
  dsimp only
  split
  · exact ⟨rfl, rfl⟩
  · split
    · split <;> exact ⟨rfl, rfl⟩
    · exact ⟨rfl, rfl⟩

variable {m : FdManager} (hsize : m.datas.length < 2 ^ 31)
include hsize

theorem create_world {fd : Int} {r : FdManager × Option FdCtx} (h : m.create fd = .ok r) :
    r.1.world = ⟨(m.world.newCtx fd).1.files,
      Function.update (m.world.newCtx fd).1.datas fd (some (m.world.newCtx fd).2)⟩ ∧
      r.2 = some (m.world.newCtx fd).2 := by
  have hdatas : (m.world.newCtx fd).1.datas = view m.datas := by
    unfold FdManager.world
    rw [(newCtx_datas m.files (view m.datas) (view m.datas) fd).1]
  obtain ⟨-, hctx⟩ := newCtx_datas m.files (fun _ => none) (view m.datas) fd
  have hfiles := congrArg World.files (newCtx_datas m.files (fun _ => none) (view m.datas) fd).1
  have hlen := intSize_of_lt hsize
  unfold FdManager.create at h
  dsimp only at h
  obtain ⟨a, hat, rfl⟩ := Except.map_eq_ok h
  have hfd := at_ok_iff.1 ⟨a, hat⟩
  have hview : view (if intSize m.datas.length ≤ fd then m.resize (grown fd) else m).datas = view m.datas := by
    split
    · rename_i hgrow
      refine view_resize ?_
      unfold grown
      omega
    · rfl
  refine ⟨?_, congrArg some hctx⟩
  rw [hdatas]
  unfold FdManager.world
  dsimp only
  rw [view_set hfd, hview, hctx, hfiles]

/-- `get` is that of `World`, where it indexes the table in range. -/
theorem get_world {fd : Int} {auto_create : Bool} {r : FdManager × Option FdCtx}
    (h : m.get fd auto_create = .ok r) : m.world.get fd auto_create = (r.1.world, r.2) := by
  have hlen := intSize_of_lt hsize
  unfold FdManager.get at h
  unfold World.get
  split at h
  · rename_i h1
    cases h
    rw [if_pos h1]
  · rename_i h1
    rw [if_neg h1]
    split at h
    · rename_i hge
      have hnone : m.world.datas fd = none := view_of_length_le (by omega)
      rw [hnone]
      cases auto_create with
      | false =>
        cases h
        rfl
      | true =>
        obtain ⟨hworld, hret⟩ := create_world hsize h
        rw [hworld, hret]
        rfl
    · split at h
      · cases h
      · rename_i ctx hat
        have hctx : m.world.datas fd = ctx := view_of_at hat
        rw [hctx]
        split at h
        · rename_i hfound
          cases h
          rw [if_pos hfound]
        · rename_i hfound
          obtain ⟨hworld, hret⟩ := create_world hsize h
          rw [if_neg hfound, hworld, hret]

theorem del_world {fd : Int} {m' : FdManager} (h : m.del fd = .ok m') : m.world.del fd = m'.world := by
  have hlen := intSize_of_lt hsize
  unfold FdManager.del at h
  split at h
  · rename_i hge
    cases h
    have hnone : m.world.datas fd = none := view_of_length_le (by omega)
    unfold World.del
    rw [← hnone, Function.update_eq_self]
  · obtain ⟨a, hat, rfl⟩ := Except.map_eq_ok h
    unfold World.del FdManager.world
    dsimp only
    rw [view_set (at_ok_iff.1 ⟨a, hat⟩)]

end Refinement

section Refinement

variable {F : Type u} {C : Type v} {memory : Nat → Event → Option Nat} {s : IOManager F C} {fd : Int}
  {r : Except Abort (Result F C)} (hsize : s.fdContexts.length < 2 ^ 31)
include hsize

/-- `addEvent` is that of the natural descriptors, where it indexes the table in range. -/
theorem addEvent_eq {e : Event} {caller : Caller F C} {ok : Bool} (h : addEvent memory s fd e caller ok = .ok r) :
    s.addEvent memory fd.toNat e caller ok = r := by
  have hlen := intSize_of_lt hsize
  have hfd := addEvent_ok_iff.1 ⟨r, h⟩
  obtain ⟨p, hp, rfl⟩ := Except.map_eq_ok h
  obtain ⟨-, hget⟩ := at_eq_ok hp
  have hsame : (if fd < intSize s.fdContexts.length then s else s.contextResize memory (grown fd)) =
      if fd.toNat < s.fdContexts.length then s else s.contextResize memory (fd.toNat * 3 / 2) :=
    if_congr (by omega) rfl rfl
  rw [hsame] at hget ⊢
  unfold IOManager.addEvent IOManager.slot
  dsimp only
  rw [hget]

/-- So is an operation on a slot. -/
theorem onSlot_eq (h0 : 0 ≤ fd) {f : Nat → Except Abort (Result F C)} (h : onSlot s fd f = .ok r) :
    s.onSlot fd.toNat f = r := by
  have hlen := intSize_of_lt hsize
  unfold onSlot at h
  unfold IOManager.onSlot
  split at h
  · rename_i hge
    rw [List.getElem?_eq_none (by omega)]
    exact Except.ok.inj h
  · obtain ⟨p, hp, rfl⟩ := Except.map_eq_ok h
    rw [(at_eq_ok hp).2]

end Refinement

/-! ## The sizes along a run -/

section Sizes

variable {F : Type u} {C : Type v} {memory : Nat → Event → Option Nat} {s : IOManager F C} {r : Result F C}
  {p fd : Nat} {e : Event} {ok : Bool}

theorem addEventLocked_fdContexts {caller : Caller F C} (h : s.addEventLocked p fd e caller ok = .ok r) :
    r.state.fdContexts = s.fdContexts := by
  grind [IOManager.addEventLocked, IOManager.failed]

theorem delEventLocked_fdContexts (h : s.delEventLocked p fd e ok = .ok r) : r.state.fdContexts = s.fdContexts := by
  grind [IOManager.delEventLocked, IOManager.failed, IOManager.refused]

theorem cancelEventLocked_fdContexts (h : s.cancelEventLocked p fd e ok = .ok r) :
    r.state.fdContexts = s.fdContexts := by
  grind [IOManager.cancelEventLocked, IOManager.failed, IOManager.refused]

theorem cancelAllLocked_fdContexts (h : s.cancelAllLocked p fd ok = .ok r) : r.state.fdContexts = s.fdContexts := by
  grind [IOManager.cancelAllLocked, IOManager.failed, IOManager.refused]

/-- What a call with the descriptor makes of a size: it stays, or it was not above the descriptor and is now one and a
half times it. -/
def Resized (fd : Int) (size size' : Nat) : Prop := size' = size ∨ intSize size ≤ fd ∧ size' = grown fd

theorem create_resized {m : FdManager} {fd : Int} {r : FdManager × Option FdCtx} (h : m.create fd = .ok r) :
    Resized fd m.datas.length r.1.datas.length := by
  unfold FdManager.create at h
  dsimp only at h
  obtain ⟨a, -, rfl⟩ := Except.map_eq_ok h
  dsimp only
  rw [List.length_set]
  split
  · rename_i hsize
    exact .inr ⟨hsize, length_resize ..⟩
  · exact .inl rfl

theorem get_resized {m : FdManager} {fd : Int} {auto_create : Bool} {r : FdManager × Option FdCtx}
    (h : m.get fd auto_create = .ok r) : Resized fd m.datas.length r.1.datas.length := by
  unfold FdManager.get at h
  split at h
  · cases h
    exact .inl rfl
  · split at h
    · split at h
      · cases h
        exact .inl rfl
      · exact create_resized h
    · split at h
      · cases h
      · split at h
        · cases h
          exact .inl rfl
        · exact create_resized h

theorem del_resized {m m' : FdManager} {fd : Int} (h : m.del fd = .ok m') : m'.datas.length = m.datas.length := by
  unfold FdManager.del at h
  split at h
  · cases h
    rfl
  · obtain ⟨a, -, rfl⟩ := Except.map_eq_ok h
    exact List.length_set

theorem addEvent_resized {fd : Int} {caller : Caller F C} (h : addEvent memory s fd e caller ok = .ok (.ok r)) :
    Resized fd s.fdContexts.length r.state.fdContexts.length := by
  obtain ⟨p, -, h⟩ := Except.map_eq_ok h
  rw [addEventLocked_fdContexts h]
  split
  · exact .inl rfl
  · rename_i hsize
    exact .inr ⟨Int.not_lt.1 hsize, Events.contextResize_length ..⟩

theorem onSlot_fdContexts {fd : Int} {f : Nat → Except Abort (Result F C)} (h : onSlot s fd f = .ok (.ok r))
    (hf : ∀ p r, f p = .ok r → r.state.fdContexts = s.fdContexts) : r.state.fdContexts = s.fdContexts := by
  unfold onSlot at h
  split at h
  · cases h
    rfl
  · obtain ⟨p, -, h⟩ := Except.map_eq_ok h
    exact hf p r h

end Sizes

section Run

variable {F : Type u} {C : Type v} {memory : Nat → Event → Option Nat} {t t' : Tables F C} {c : Call F C}

theorem after_eq_ok {x : Except OutOfRange (Except Abort (Result F C))} (h : t.after x = .ok (.ok t')) :
    ∃ r, x = .ok (.ok r) ∧ t' = { t with io := r.state } := by
  obtain ⟨y, hy, h⟩ := Except.map_eq_ok h
  obtain ⟨r, rfl, h⟩ := Except.map_eq_ok h
  exact ⟨r, hy, (Except.ok.inj h).symm⟩

/-- What a call makes of the two sizes. -/
theorem step_resized (h : Step memory t c t') : Resized c.fd t.fds.datas.length t'.fds.datas.length ∧
    Resized c.fd t.io.fdContexts.length t'.io.fdContexts.length := by
  cases c with
  | get fd auto_create =>
    obtain ⟨r, hr, h⟩ := Except.map_eq_ok h
    cases h
    exact ⟨get_resized hr, .inl rfl⟩
  | del fd =>
    obtain ⟨m, hm, h⟩ := Except.map_eq_ok h
    cases h
    exact ⟨.inl (del_resized hm), .inl rfl⟩
  | addEvent fd e caller ok =>
    obtain ⟨r, hr, rfl⟩ := after_eq_ok h
    exact ⟨.inl rfl, addEvent_resized hr⟩
  | delEvent fd e ok =>
    obtain ⟨r, hr, rfl⟩ := after_eq_ok h
    exact ⟨.inl rfl, .inl (congrArg _ (onSlot_fdContexts hr fun _ _ => delEventLocked_fdContexts))⟩
  | cancelEvent fd e ok =>
    obtain ⟨r, hr, rfl⟩ := after_eq_ok h
    exact ⟨.inl rfl, .inl (congrArg _ (onSlot_fdContexts hr fun _ _ => cancelEventLocked_fdContexts))⟩
  | cancelAll fd ok =>
    obtain ⟨r, hr, rfl⟩ := after_eq_ok h
    exact ⟨.inl rfl, .inl (congrArg _ (onSlot_fdContexts hr fun _ _ => cancelAllLocked_fdContexts))⟩

/-- A descriptor that is not negative, and one and a half times which is still an `int`. -/
def Ordinary (fd : Int) : Prop := 0 ≤ fd ∧ fd ≤ 1431655765

theorem Resized.bounds {fd : Int} {n n' : Nat} (h : Resized fd n n') (hfd : Ordinary fd) (hn : 2 ≤ n ∧ n < 2 ^ 31) :
    2 ≤ n' ∧ n' < 2 ^ 31 := by
  rcases h with rfl | ⟨hsize, rfl⟩
  · exact hn
  · rw [intSize_of_lt hn.2] at hsize
    have := hfd.2
    unfold grown
    omega

/-- The sizes after calls with ordinary descriptors. -/
theorem run_bounds {files : Int → Option File} {l : List (Call F C)} (h : Lts.Run (Step memory) (init memory files) l t)
    (hl : ∀ c ∈ l, Ordinary c.fd) :
    (2 ≤ t.fds.datas.length ∧ t.fds.datas.length < 2 ^ 31) ∧
      2 ≤ t.io.fdContexts.length ∧ t.io.fdContexts.length < 2 ^ 31 := by
  induction h with
  | nil =>
    have hio : (init (F := F) (C := C) memory files).io.fdContexts.length = 32 := Events.contextResize_length ..
    have hfds : (init (F := F) (C := C) memory files).fds.datas.length = 64 := List.length_replicate
    rw [hio, hfds]
    decide
  | @snoc l t t' c h hstep ih =>
    obtain ⟨hfds, hio⟩ := ih fun c hc => hl c (List.mem_append_left _ hc)
    have hc := hl c (List.mem_append_right _ (List.mem_singleton_self c))
    obtain ⟨hfds', hio'⟩ := step_resized hstep
    exact ⟨hfds'.bounds hc hfds, hio'.bounds hc hio⟩

/-- Between these sizes a call fits exactly if its descriptor is not negative, or it is a `get` of -1. -/
theorem fits_iff (hfds : 2 ≤ t.fds.datas.length ∧ t.fds.datas.length < 2 ^ 31)
    (hio : 2 ≤ t.io.fdContexts.length ∧ t.io.fdContexts.length < 2 ^ 31) :
    c.Fits t ↔ 0 ≤ c.fd ∨ ∃ auto_create, c = .get (-1) auto_create := by
  have hm := intSize_of_lt hfds.2
  have hs := intSize_of_lt hio.2
  cases c with
  | get fd auto_create =>
    simp only [Call.Fits, Call.fd, hm]
    constructor
    · rintro (rfl | h)
      · exact .inr ⟨auto_create, rfl⟩
      · exact .inl (by omega)
    · rintro (h | ⟨_, h⟩)
      · omega
      · cases h
        exact .inl rfl
  | del fd | addEvent fd | delEvent fd | cancelEvent fd | cancelAll fd =>
    simp only [Call.Fits, Call.fd, hm, hs, reduceCtorEq, exists_false, or_false]
    omega

/-- A call is in range, whatever the tables are, exactly if its descriptor is not negative and below the size, the table
grows beyond it or the call returns before it indexes one; that is, in every state that calls with ordinary descriptors
lead to, exactly if its descriptor is not negative or it is a `get` of -1. -/
theorem in_range_iff (memory : Nat → Event → Option Nat) :
    (∀ (t : Tables F C) (c : Call F C), InRange memory t c ↔ c.Fits t) ∧
      ∀ (files : Int → Option File) (l : List (Call F C)) (t : Tables F C),
        Lts.Run (Step memory) (init memory files) l t → (∀ c ∈ l, Ordinary c.fd) →
        ∀ c : Call F C, InRange memory t c ↔ 0 ≤ c.fd ∨ ∃ auto_create, c = .get (-1) auto_create := by
  refine ⟨fun t c => inRange_iff, ?_⟩
  intro files l t h hl c
  obtain ⟨hfds, hio⟩ := run_bounds h hl
  exact inRange_iff.trans (fits_iff hfds hio)

/-- `in_range_iff` on the constructed tables. -/
theorem in_range_iff_closed : InRange (fun _ _ => none) (init (fun _ _ => none) fun _ => none)
    (cancelAllEvents (-1) true : Call Unit Unit) ↔
      0 ≤ (-1 : Int) ∨ ∃ auto_create, (cancelAllEvents (-1) true : Call Unit Unit) = .get (-1) auto_create :=
  (in_range_iff fun _ _ => none).2 (fun _ => none) [] _ .nil (fun _ h => absurd h List.not_mem_nil) _

/-- On a closed socket every cancelling call indexes the table at -1. -/
theorem closed_socket_out_of_range : ¬ ∀ (memory : Nat → Event → Option Nat) (t : Tables Unit Unit) (sock : Int)
    (ok : Bool), InRange memory t (cancelRead sock ok) ∧ InRange memory t (cancelWrite sock ok) ∧
      InRange memory t (cancelAccept sock ok) ∧ InRange memory t (cancelAllEvents sock ok) := by
  intro h
  have hclosed := (h (fun _ _ => none) (init (fun _ _ => none) fun _ => none) (-1) true).2.2.2
  rcases inRange_iff.1 hclosed with h | h
  · exact absurd h (by decide)
  · exact absurd h (by decide)

end Run

end ServerFrame.Descriptors
