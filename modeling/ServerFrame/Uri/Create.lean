/-
`Uri::Create` (`uri.rl`). Pointers into the text are offsets; `mark` is one or NULL.
-/
import ServerFrame.Uri.Grammar
import ServerFrame.Lib.Strtol

namespace ServerFrame

open Ragel CLib

structure Uri where
  scheme : List UInt8 := []
  userinfo : List UInt8 := []
  host : List UInt8 := []
  port : Int := 0
  path : List UInt8 := []
  query : List UInt8 := []
  fragment : List UInt8 := []
deriving DecidableEq, Repr

/-- How a call ends that does not return: by a string that is made of NULL, or a number read through it. -/
inductive UriFault
  | logicError
  | nullPointer
deriving DecidableEq, Repr

namespace Uri

/-- What the actions work on: `uri` and `mark`. -/
structure Scan where
  uri : Uri := {}
  mark : Option Nat := none
deriving DecidableEq, Repr

section Exec

variable (text : List UInt8)

/-- `std::string(mark, fpc - mark)`. -/
def marked (fpc : Nat) (s : Scan) : Except UriFault (List UInt8) :=
  match s.mark with
  | none => .error .logicError
  | some mark => .ok ((text.drop mark).take (fpc - mark))

/-- `atoi(mark)`. -/
def atoi (mark : Nat) : Int := strtol 10 (fun i => text.getD i 0) mark text.length

def act (fpc : Nat) (s : Scan) : UriAction → Except UriFault Scan
  | .marku | .markh => .ok { s with mark := some fpc }
  | .saveScheme => do return { uri := { s.uri with scheme := ← marked text fpc s }, mark := none }
  | .savePort =>
    match s.mark with
    | none => .error .nullPointer
    | some mark => .ok { uri := if fpc ≠ mark then { s.uri with port := atoi text mark } else s.uri, mark := none }
  | .saveUserinfo => do
    if s.mark.isSome then return { uri := { s.uri with userinfo := ← marked text fpc s }, mark := none }
    return { s with mark := none }
  | .saveHost => do
    if s.mark.isSome then return { s with uri := { s.uri with host := ← marked text fpc s } }
    return s
  | .savePath => do
    if s.mark.isSome then return { uri := { s.uri with path := ← marked text fpc s }, mark := none }
    return { s with mark := none }
  | .saveQuery => do return { uri := { s.uri with query := ← marked text fpc s }, mark := none }
  | .saveFragment => do return { uri := { s.uri with fragment := ← marked text fpc s }, mark := none }

def acts (fpc : Nat) (s : Scan) (as : List UriAction) : Except UriFault Scan := as.foldlM (act text fpc) s

/-- `write exec` on what is left of the text from `p` on: the result of the actions and the state. -/
def exec : List UInt8 → Nat → State UriAction → Scan → Except UriFault (Scan × State UriAction)
  | [], p, cs, s => do return (← acts text p s cs.eofActs, cs)
  | c :: w, p, cs, s => do
    if (cs.step c).isEmpty then return (s, [])
    exec w (p + 1) (cs.step c) (← acts text p s (cs.acts c))

end Exec

/-- `Uri::Create(uristr)`, `none` for `nullptr`. -/
def create (uristr : List UInt8) : Except UriFault (Option Uri) := do
  let (s, cs) ← exec uristr uristr 0 UriGrammar.main.start {}
  if cs.isEmpty then return none
  if cs.final then return some s.uri
  return none

end Uri

end ServerFrame
