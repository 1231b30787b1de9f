/-
`LogDefine` and its two `LexicalCast`s (`log.cc`), over a YAML library that is a parameter: what text a tree
is printed as, and what tree a text is read as. The encoder writes the level of an appender, and
the decoder never reads it.
-/
import ServerFrame.Http.Request

namespace ServerFrame.Log

open Http (bytes)

/-- `LogLevel::Level`. -/
inductive Level
  | UNKNOW
  | DEBUG
  | INFO
  | WARN
  | ERROR
  | FATAL
  deriving DecidableEq, Repr

namespace LogLevel

/-- The number of a level. -/
def value : Level → Nat
  | .UNKNOW => 0
  | .DEBUG => 1
  | .INFO => 2
  | .WARN => 3
  | .ERROR => 4
  | .FATAL => 5

/-- `LogLevel::ToString(level)`. -/
def ToString : Level → List UInt8
  | .DEBUG => bytes "DEBUG"
  | .INFO => bytes "INFO"
  | .WARN => bytes "WARN"
  | .ERROR => bytes "ERROR"
  | .FATAL => bytes "FATAL"
  | .UNKNOW => bytes "UNKNOW"

/-- The spellings that `FromString` knows. -/
def spellings : List (List UInt8 × Level) :=
  [(bytes "debug", .DEBUG), (bytes "info", .INFO), (bytes "warn", .WARN), (bytes "error", .ERROR),
    (bytes "fatal", .FATAL), (bytes "DEBUG", .DEBUG), (bytes "INFO", .INFO), (bytes "WARN", .WARN),
    (bytes "ERROR", .ERROR), (bytes "FATAL", .FATAL)]

/-- `LogLevel::FromString(str)`. -/
def FromString (str : List UInt8) : Level :=
  match spellings.find? fun s => s.1 = str with
  | some s => s.2
  | none => .UNKNOW

theorem FromString_ToString (level : Level) : FromString (ToString level) = level := by
  cases level <;> rfl

end LogLevel

/-- `LogAppenderDefine`; the type is 1 for a file and 2 for the standard output. -/
structure LogAppenderDefine where
  type : Int := 0
  level : Level := .UNKNOW
  formatter : List UInt8 := []
  file : List UInt8 := []
  deriving DecidableEq, Repr

/-- `LogDefine`. -/
@[ext] structure LogDefine where
  name : List UInt8
  level : Level := .UNKNOW
  formatter : List UInt8 := []
  appenders : List LogAppenderDefine := []
  deriving DecidableEq, Repr

/-- `LogDefine::operator==`, which compares the appenders of the left side with themselves. -/
def LogDefine.eq (i oth : LogDefine) : Bool :=
  i.name = oth.name && i.level = oth.level && i.formatter = oth.formatter && i.appenders = i.appenders

/-! ## Trees -/

/-- A YAML tree of string scalars. -/
inductive Node
  | scalar (value : List UInt8)
  | sequence (elements : List Node)
  | map (entries : List (List UInt8 × Node))

/-- What the casts throw: exceptions of the YAML library and `std::logic_error`. -/
inductive Exception
  | badSubscript
  | badConversion
  | nameIsNull
  deriving DecidableEq, Repr

namespace Node

/-- `n[key]`, if it is defined. -/
def get (key : List UInt8) : Node → Except Exception (Option Node)
  | .scalar _ => .error .badSubscript
  | .sequence _ => .ok none
  | .map entries => .ok ((entries.find? fun e => e.1 = key).map Prod.snd)

/-- `n.as<std::string>()`. -/
def asString : Node → Except Exception (List UInt8)
  | .scalar value => .ok value
  | .sequence _ | .map _ => .error .badConversion

/-- `n[x]` for `x` below `n.size()`, if it is defined. -/
def elements : Node → List (Option Node)
  | .scalar _ => []
  | .sequence elements => elements.map some
  | .map entries => (List.range entries.length).map fun x =>
    (entries.find? fun e => e.1 = bytes (toString x)).map Prod.snd

/-- `n[key].as<std::string>()`, or the empty string where it is not defined. -/
def stringOr (key : List UInt8) (n : Node) : Except Exception (List UInt8) := do
  match ← n.get key with
  | some value => value.asString
  | none => pure []

end Node

/-- The tree of an appender. -/
def LogAppenderDefine.toNode (a : LogAppenderDefine) : Node :=
  .map ((if a.type = 1 then [(bytes "type", .scalar (bytes "FileLogAppender")), (bytes "file", .scalar a.file)]
    else if a.type = 2 then [(bytes "type", .scalar (bytes "StdoutLogAppender"))] else []) ++
    (if a.level ≠ .UNKNOW then [(bytes "level", .scalar (LogLevel.ToString a.level))] else []) ++
    if a.formatter ≠ [] then [(bytes "formatter", .scalar a.formatter)] else [])

/-- `LexicalCast<LogDefine, std::string>`, up to the text. -/
def LogDefine.toNode (i : LogDefine) : Node :=
  .map ([(bytes "name", .scalar i.name)] ++
    (if i.level ≠ .UNKNOW then [(bytes "level", .scalar (LogLevel.ToString i.level))] else []) ++
    (if i.formatter ≠ [] then [(bytes "formatter", .scalar i.formatter)] else []) ++
    if i.appenders ≠ [] then [(bytes "appenders", .sequence (i.appenders.map LogAppenderDefine.toNode))] else [])

/-- An appender of the decoder's loop; those that it cannot read are left out. -/
def LogAppenderDefine.ofNode (a : Node) : Except Exception (Option LogAppenderDefine) := do
  match ← a.get (bytes "type") with
  | none => pure none
  | some t =>
    let type ← t.asString
    if type = bytes "FileLogAppender" then
      match ← a.get (bytes "file") with
      | none => pure none
      | some f =>
        let file ← f.asString
        let formatter ← a.stringOr (bytes "formatter")
        pure (some { type := 1, file, formatter })
    else if type = bytes "StdoutLogAppender" then
      let formatter ← a.stringOr (bytes "formatter")
      pure (some { type := 2, formatter })
    else pure none

/-- The decoder's loop. An element that is not defined has no type. -/
def appendersOf : List (Option Node) → Except Exception (List LogAppenderDefine)
  | [] => pure []
  | none :: as => appendersOf as
  | some a :: as => do
    let lad ← LogAppenderDefine.ofNode a
    let rest ← appendersOf as
    pure (lad.toList ++ rest)

/-- `LexicalCast<std::string, LogDefine>`, behind the text. -/
def LogDefine.ofNode (n : Node) : Except Exception LogDefine := do
  match ← n.get (bytes "name") with
  | none => throw .nameIsNull
  | some name =>
    let name ← name.asString
    let level ← n.stringOr (bytes "level")
    let formatter ← n.stringOr (bytes "formatter")
    match ← n.get (bytes "appenders") with
    | none => pure { name, level := LogLevel.FromString level, formatter }
    | some a =>
      let appenders ← appendersOf a.elements
      pure { name, level := LogLevel.FromString level, formatter, appenders }

/-- `LexicalCast<LogDefine, std::string>`. -/
def LogDefine.toYaml (emit : Node → List UInt8) (i : LogDefine) : List UInt8 := emit i.toNode

/-- `LexicalCast<std::string, LogDefine>`. -/
def LogDefine.ofYaml (load : List UInt8 → Except Exception Node) (v : List UInt8) : Except Exception LogDefine := do
  LogDefine.ofNode (← load v)

/-! ## Round trip -/

section RoundTrip

/-- What the decoder makes of an appender of one of the two types. -/
def LogAppenderDefine.read (a : LogAppenderDefine) : LogAppenderDefine :=
  { type := a.type, formatter := a.formatter, file := if a.type = 1 then a.file else [] }

theorem appender_ofNode {a : LogAppenderDefine} (h : a.type = 1 ∨ a.type = 2) :
    LogAppenderDefine.ofNode a.toNode = .ok (some a.read) := by
  obtain ⟨type, level, formatter, file⟩ := a
  obtain rfl | rfl : type = 1 ∨ type = 2 := h
  · cases level <;> cases formatter <;> rfl
  · cases level <;> cases formatter <;> rfl

theorem appendersOf_toNode {as : List LogAppenderDefine} (h : ∀ a ∈ as, a.type = 1 ∨ a.type = 2) :
    appendersOf ((as.map LogAppenderDefine.toNode).map some) = .ok (as.map LogAppenderDefine.read) := by
  induction as with
  | nil => rfl
  | cons a as ih =>
    rw [List.forall_mem_cons] at h
    rw [List.map_cons, List.map_cons, appendersOf, appender_ofNode h.1, ih h.2]
    rfl

/-- The decoder reads back the name, the level and the formatter, and what it reads of each appender. -/
theorem define_ofNode {d : LogDefine} (h : ∀ a ∈ d.appenders, a.type = 1 ∨ a.type = 2) :
    LogDefine.ofNode d.toNode = .ok { d with appenders := d.appenders.map LogAppenderDefine.read } := by
  obtain ⟨name, level, formatter, appenders⟩ := d
  cases appenders with
  | nil => cases level <;> cases formatter <;> rfl
  | cons a as =>
    have hread := appendersOf_toNode h
    have hof : LogDefine.ofNode (LogDefine.toNode ⟨name, level, formatter, a :: as⟩) =
        (appendersOf (((a :: as).map LogAppenderDefine.toNode).map some)).map fun appenders =>
          ⟨name, LogLevel.FromString (LogLevel.ToString level), formatter, appenders⟩ := by
      cases level <;> cases formatter <;> rfl
    rw [hof, hread, LogLevel.FromString_ToString]
    rfl

theorem read_eq_self {a : LogAppenderDefine} (h : a.type = 1 ∨ a.type = 2) :
    a.read = a ↔ a.level = .UNKNOW ∧ (a.type = 2 → a.file = []) := by
  obtain ⟨type, level, formatter, file⟩ := a
  obtain rfl | rfl : type = 1 ∨ type = 2 := h
  · simp [LogAppenderDefine.read, eq_comm]
  · simp [LogAppenderDefine.read, eq_comm]

/-- The text round trip of a definition. A definition with appenders of the two types comes back from its YAML
text as it was exactly when no appender has a level of its own, and none of those for the
standard output has a file. -/
theorem define_round_trip (emit : Node → List UInt8) (load : List UInt8 → Except Exception Node) (d : LogDefine)
    (hyaml : load (emit d.toNode) = .ok d.toNode) (htype : ∀ a ∈ d.appenders, a.type = 1 ∨ a.type = 2) :
    LogDefine.ofYaml load (d.toYaml emit) = .ok d ↔
      ∀ a ∈ d.appenders, a.level = .UNKNOW ∧ (a.type = 2 → a.file = []) := by
  have hof : LogDefine.ofYaml load (d.toYaml emit) = .ok
      { d with appenders := d.appenders.map LogAppenderDefine.read } := by
    rw [LogDefine.ofYaml, LogDefine.toYaml, hyaml]
    exact define_ofNode htype
  have hsame : d.appenders.map LogAppenderDefine.read = d.appenders ↔ ∀ a ∈ d.appenders, a.read = a := by
    have hmap := List.map_inj_left (l := d.appenders) (f := LogAppenderDefine.read) (g := id)
    rwa [List.map_id] at hmap
  rw [hof, Except.ok.injEq]
  constructor
  · intro h a ha
    have hmap := congrArg LogDefine.appenders h
    exact (read_eq_self (htype a ha)).1 (hsame.1 hmap a ha)
  · intro h
    rw [hsame.2 fun a ha => (read_eq_self (htype a ha)).2 (h a ha)]

/-- The text of a definition with one appender on the standard output, which has a level of its own. -/
def leveled : LogDefine := { name := bytes "root", level := .DEBUG, appenders := [{ type := 2, level := .ERROR }] }

def leveledText : List UInt8 :=
  bytes "name: root\nlevel: DEBUG\nappenders:\n  - type: StdoutLogAppender\n    level: ERROR"

/-- The text of a definition with one file. -/
def filed : LogDefine :=
  { name := bytes "root", level := .DEBUG, appenders := [{ type := 1, file := bytes "/tmp/log.txt" }] }

def filedText : List UInt8 :=
  bytes "name: root\nlevel: DEBUG\nappenders:\n  - type: FileLogAppender\n    file: /tmp/log.txt"

/-- A YAML library that knows one tree and its text. -/
def knows (text : List UInt8) (n : Node) (v : List UInt8) : Except Exception Node :=
  if v = text then .ok n else .error .badSubscript

theorem appender_level_lost :
    ¬ ∀ (emit : Node → List UInt8) (load : List UInt8 → Except Exception Node) (d : LogDefine),
    load (emit d.toNode) = .ok d.toNode → d.name ≠ [] → (∀ a ∈ d.appenders, a.type = 1 ∨ a.type = 2) →
      LogDefine.ofYaml load (d.toYaml emit) = .ok d := by
  intro h
  have hyaml : knows leveledText leveled.toNode leveledText = .ok leveled.toNode := if_pos rfl
  have hsame := h (fun _ => leveledText) (knows leveledText leveled.toNode) leveled hyaml (by decide) (by decide)
  have hread : LogDefine.ofYaml (knows leveledText leveled.toNode) leveledText =
      .ok { leveled with appenders := [{ type := 2 }] } := by
    rw [LogDefine.ofYaml, hyaml]
    rfl
  have hfalse := hread.symm.trans hsame
  exact absurd (Except.ok.inj hfalse) (by decide)

theorem define_round_trip_filed :
    LogDefine.ofYaml (knows filedText filed.toNode) (filed.toYaml fun _ => filedText) = .ok filed := by
  have hyaml : knows filedText filed.toNode filedText = .ok filed.toNode := if_pos rfl
  exact (define_round_trip (fun _ => filedText) (knows filedText filed.toNode) filed hyaml (by decide)).2 (by decide)

end RoundTrip

end ServerFrame.Log
