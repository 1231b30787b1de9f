/-
`FdManager` (`fd_manager.h`, `fd_manager.cc`): the contexts of descriptors, beside the kernel's table of open
files. Of a file the code looks at two things, whether it is a socket and its status flags; of the
flags, at `O_NONBLOCK`.
-/
import Mathlib.Logic.Function.Basic

namespace ServerFrame.Fds

/-- The status flags of an open file: `O_NONBLOCK` and the other bits. -/
structure Flags where
  nonblock : Bool
  others : Nat
  deriving DecidableEq, Repr

/-- An open file. -/
structure File where
  sock : Bool
  flags : Flags
  deriving DecidableEq, Repr

/-- `FdCtx`; a timeout of all ones is none. -/
structure FdCtx where
  isInit : Bool
  isSocket : Bool
  sysNonblock : Bool
  userNonblock : Bool
  isClosed : Bool
  recvTimeout : UInt64
  sendTimeout : UInt64
  deriving DecidableEq, Repr

/-- The kernel's files and the contexts of `FdManager`, by descriptor number. -/
structure World where
  files : Int → Option File
  datas : Int → Option FdCtx

namespace World

variable (w : World)

/-- `fcntl_f(fd, F_SETFL, arg)` on a file that lets its flags be set. -/
def setfl (fd : Int) (arg : Flags) : World :=
  { w with files := Function.update w.files fd ((w.files fd).map fun f => { f with flags := arg }) }

/-- `FdCtx::FdCtx(fd)`, that is `FdCtx::init()` on a new context: a socket is made non-blocking. -/
def newCtx (fd : Int) : World × FdCtx :=
  let ctx (isInit isSocket : Bool) : FdCtx :=
    { isInit, isSocket, sysNonblock := isSocket, userNonblock := false, isClosed := false, recvTimeout := ~~~0,
      sendTimeout := ~~~0 }
  match w.files fd with
  | none => (w, ctx false false)
  | some f =>
    if f.sock then
      (if f.flags.nonblock then w else w.setfl fd { f.flags with nonblock := true }, ctx true true)
    else (w, ctx true false)

/-- `FdManager::get(fd, auto_create)`. -/
def get (fd : Int) (auto_create : Bool) : World × Option FdCtx :=
  if fd = -1 then (w, none)
  else if (w.datas fd).isSome || !auto_create then (w, w.datas fd)
  else
    let (w, ctx) := w.newCtx fd
    ({ w with datas := Function.update w.datas fd (some ctx) }, some ctx)

/-- Looking a descriptor up changes nothing. -/
theorem get_false_fst (fd : Int) : (w.get fd false).1 = w := by
  unfold World.get
  split
  · rfl
  · rw [Bool.not_false, Bool.or_true, if_pos rfl]

/-- `FdManager::del(fd)`. -/
def del (fd : Int) : World := { w with datas := Function.update w.datas fd none }

/-- A change of the context of a descriptor, where there is one. -/
def modifyCtx (fd : Int) (f : FdCtx → FdCtx) : World :=
  { w with datas := Function.update w.datas fd ((w.datas fd).map f) }

end World

/-- `FdCtx::setTimeout(type, v)`; `recv` says whether the type is `SO_RCVTIMEO`. -/
def FdCtx.setTimeout (c : FdCtx) (recv : Bool) (v : UInt64) : FdCtx :=
  if recv then { c with recvTimeout := v } else { c with sendTimeout := v }

/-- `FdCtx::getTimeout(type)`. -/
def FdCtx.getTimeout (c : FdCtx) (recv : Bool) : UInt64 := if recv then c.recvTimeout else c.sendTimeout

end ServerFrame.Fds
