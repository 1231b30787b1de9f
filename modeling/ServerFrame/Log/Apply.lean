/-
The listener that applies a log configuration (`LogIniter` in `log.cc`), over the table of loggers and the
appenders they point to, which loggers may share. It makes no appender for the standard output and
uses the null pointer that is left, it overlooks a definition that differs in its appenders only, and a new
formatter reaches the appenders that the logger has, other loggers' too, before they are taken away.
-/
import ServerFrame.Log.Define
import ServerFrame.Log.Formatter
import ServerFrame.Lib.OrderedSet
import Mathlib.Data.List.Lex

namespace ServerFrame.Log

open Http (bytes)

/-! ## Loggers and appenders -/

/-- The class of an appender. -/
inductive Kind
  | file (filename : List UInt8)
  | stdout
  deriving DecidableEq, Repr

/-- `LogAppender`. -/
structure LogAppender where
  kind : Kind
  level : Level := .DEBUG
  formatter : Option LogFormatter := none
  hasFormatter : Bool := false

/-- `LogAppender::setFormatter(val)`. -/
def LogAppender.setFormatter (a : LogAppender) (val : Option LogFormatter) : LogAppender :=
  { a with formatter := val, hasFormatter := val.isSome }

/-- `Logger`, with its appenders as numbers of objects. -/
structure Logger where
  level : Level
  formatter : Option LogFormatter
  appenders : List Nat

/-- `Logger(name)`. -/
def Logger.new : Logger :=
  { level := .DEBUG
    formatter := some (.new (bytes "%d{%Y-%m-%d %H:%M:%S}%T%t%T%N%T%F%T[%p]%T[%c]%T%f:%l%T%m%n"))
    appenders := [] }

/-- `LoggerManager`: the loggers by name, and the appenders of the process. -/
structure LoggerManager where
  loggers : List UInt8 → Option Logger
  appenders : List LogAppender

/-- A null pointer was dereferenced. -/
inductive Fault
  | nullAppender
  | nullFormatter
  deriving DecidableEq

namespace LoggerManager

variable (m : LoggerManager) (name : List UInt8)

/-- `getLogger(name)`: the logger, and the table that has it. -/
def getLogger : Logger × LoggerManager :=
  match m.loggers name with
  | some logger => (logger, m)
  | none => (.new, { m with loggers := Function.update m.loggers name (some .new) })

/-- The logger of the name as `f` leaves it. -/
def change (f : Logger → Logger) : LoggerManager :=
  let (logger, m) := m.getLogger name
  { m with loggers := Function.update m.loggers name (some (f logger)) }

def setLevel (level : Level) : LoggerManager := m.change name fun l => { l with level }

def clearAppenders : LoggerManager := m.change name fun l => { l with appenders := [] }

/-- `Logger::setFormatter(LogFormatter::ptr)`: the appenders without a formatter of their own get it too. -/
def setFormatter (val : Option LogFormatter) : LoggerManager :=
  let (logger, m) := m.getLogger name
  { loggers := Function.update m.loggers name (some { logger with formatter := val })
    appenders := m.appenders.mapIdx fun p a =>
      if p ∈ logger.appenders ∧ a.hasFormatter = false then { a with formatter := val } else a }

/-- `Logger::setFormatter(const std::string&)`: a pattern in error is not taken. -/
def setPattern (val : List UInt8) : LoggerManager :=
  let new_val := LogFormatter.new val
  if new_val.isError then m else m.setFormatter name (some new_val)

/-- `Logger::addAppender(appender)` of a new object. -/
def addAppender (appender : LogAppender) : LoggerManager :=
  let (logger, m) := m.getLogger name
  let appender := if appender.formatter.isNone then { appender with formatter := logger.formatter } else appender
  { loggers := Function.update m.loggers name
      (some { logger with appenders := logger.appenders ++ [m.appenders.length] })
    appenders := m.appenders ++ [appender] }

end LoggerManager

/-! ## A line of the log -/

/-- `log(logger, level, event)` of an appender. What it prints is left out; the formatter it prints with is not. -/
def LogAppender.log (a : LogAppender) (level : Level) : Except Fault Unit :=
  if LogLevel.value a.level ≤ LogLevel.value level then
    match a.formatter with
    | none => .error .nullFormatter
    | some _ => .ok ()
  else .ok ()

/-- The loop over the appenders in `Logger::log`. -/
def LoggerManager.logAll (m : LoggerManager) (level : Level) : List Nat → Except Fault Unit
  | [] => .ok ()
  | p :: ps => do
    match m.appenders[p]? with
    | some a => a.log level
    | none => .ok ()
    m.logAll level ps

/-- A line through the root logger, which is in the table under its name and has no root of its own. -/
def LoggerManager.logRoot (m : LoggerManager) (level : Level) : Except Fault Unit :=
  let (root, _) := m.getLogger (bytes "root")
  if LogLevel.value root.level ≤ LogLevel.value level then m.logAll level root.appenders else .ok ()

/-! ## The listener -/

/-- The appender of a definition, up to `addAppender`. -/
def makeAppender (a : LogAppenderDefine) : Except Fault LogAppender :=
  let ap : Option LogAppender :=
    if a.type = 1 then some { kind := .file a.file }
    else if a.type = 2 then none
    else none
  match ap with
  | none => .error .nullAppender
  | some ap =>
    let ap := { ap with level := a.level }
    if a.formatter ≠ [] then
      let fmt := LogFormatter.new a.formatter
      if !fmt.isError then .ok (ap.setFormatter (some fmt)) else .ok ap
    else .ok ap

/-- The loop over the appenders of a definition. -/
def addAppenders (name : List UInt8) : List LogAppenderDefine → LoggerManager → Except Fault LoggerManager
  | [], m => .ok m
  | a :: as, m => do
    let ap ← makeAppender a
    addAppenders name as (m.addAppender name ap)

/-- The body of the first loop for a definition that is new or changed. -/
def applyDefine (i : LogDefine) (m : LoggerManager) : Except Fault LoggerManager :=
  let m := m.setLevel i.name i.level
  let m := if i.formatter ≠ [] then m.setPattern i.name i.formatter else m
  addAppenders i.name i.appenders (m.clearAppenders i.name)

/-- `find` in a `std::set<LogDefine>`. -/
def findDefine (i : LogDefine) (s : List LogDefine) : Option LogDefine := OrderedSet.find (· < ·) LogDefine.name i s

/-- The first loop. -/
def applyNew (old_value : List LogDefine) : List LogDefine → LoggerManager → Except Fault LoggerManager
  | [], m => .ok m
  | i :: is, m =>
    match findDefine i old_value with
    | none => do applyNew old_value is (← applyDefine i m)
    | some it => do
      if !i.eq it then applyNew old_value is (← applyDefine i m)
      else applyNew old_value is m

/-- The second loop. -/
def removeOld (new_value : List LogDefine) : List LogDefine → LoggerManager → LoggerManager
  | [], m => m
  | i :: is, m =>
    match findDefine i new_value with
    | none => removeOld new_value is ((m.setLevel i.name .UNKNOW).clearAppenders i.name)
    | some _ => removeOld new_value is m

/-- The listener that `LogIniter` registers. -/
def onLoggerConfChanged (old_value new_value : List LogDefine) (m : LoggerManager) : Except Fault LoggerManager := do
  m.logRoot .INFO
  let m ← applyNew old_value new_value m
  pure (removeOld new_value old_value m)

/-! ## Loggers of a table -/

namespace LoggerManager

variable {m : LoggerManager} {name : List UInt8}

/-- The logger that `getLogger` gives. -/
def logger (m : LoggerManager) (name : List UInt8) : Logger := (m.loggers name).getD .new

theorem getLogger_eq : m.getLogger name =
    (m.logger name, { m with loggers := Function.update m.loggers name (some (m.logger name)) }) := by
  unfold getLogger logger
  split
  · rename_i l hl
    rw [hl, Option.getD_some, ← hl, Function.update_eq_self]
  · rename_i hl
    rw [hl, Option.getD_none]

theorem change_eq (f : Logger → Logger) : m.change name f =
    { m with loggers := Function.update m.loggers name (some (f (m.logger name))) } := by
  rw [change, getLogger_eq]
  simp only [Function.update_idem]

theorem setFormatter_eq (val : Option LogFormatter) : m.setFormatter name val =
    { loggers := Function.update m.loggers name (some { m.logger name with formatter := val })
      appenders := m.appenders.mapIdx fun p a =>
        if p ∈ (m.logger name).appenders ∧ a.hasFormatter = false then { a with formatter := val } else a } := by
  rw [setFormatter, getLogger_eq]
  simp only [Function.update_idem]

theorem addAppender_eq (appender : LogAppender) : m.addAppender name appender =
    { loggers := Function.update m.loggers name
        (some { m.logger name with appenders := (m.logger name).appenders ++ [m.appenders.length] })
      appenders := m.appenders ++
        [if appender.formatter.isNone then { appender with formatter := (m.logger name).formatter }
          else appender] } := by
  rw [addAppender, getLogger_eq]
  simp only [Function.update_idem]

theorem logger_update {loggers : List UInt8 → Option Logger} {appenders : List LogAppender} {l : Logger} :
    (LoggerManager.mk (Function.update loggers name (some l)) appenders).logger name = l := by
  simp [logger]

end LoggerManager

/-! ## What a definition asks for -/

/-- The formatter of a non-empty valid pattern, or the one there was. -/
def formatterOf (inherited : Option LogFormatter) (pattern : List UInt8) : Option LogFormatter :=
  if pattern ≠ [] ∧ (LogFormatter.new pattern).isError = false then some (.new pattern) else inherited

/-- The appender of a definition, on a logger with this formatter. -/
def LogAppenderDefine.expected (inherited : Option LogFormatter) (a : LogAppenderDefine) : LogAppender :=
  { kind := if a.type = 1 then .file a.file else .stdout
    level := a.level
    formatter := formatterOf inherited a.formatter
    hasFormatter := decide (a.formatter ≠ [] ∧ (LogFormatter.new a.formatter).isError = false) }

/-- The logger has the level of the definition, its formatter if that is valid, and an appender for each of its
appenders, in order and as defined. -/
def Conforms (m : LoggerManager) (d : LogDefine) : Prop :=
  ∃ l, m.loggers d.name = some l ∧ l.level = d.level ∧
    (d.formatter ≠ [] → (LogFormatter.new d.formatter).isError = false → l.formatter = some (.new d.formatter)) ∧
    l.appenders.Nodup ∧
    l.appenders.map (fun p => m.appenders[p]?) = d.appenders.map fun a => some (a.expected l.formatter)

/-- Every logger points to appenders that there are. -/
def LoggerManager.Wf (m : LoggerManager) : Prop :=
  ∀ name l, m.loggers name = some l → ∀ p ∈ l.appenders, p < m.appenders.length

theorem LoggerManager.Wf.logger {m : LoggerManager} (h : m.Wf) (name : List UInt8) :
    ∀ p ∈ (m.logger name).appenders, p < m.appenders.length := by
  intro p hp
  unfold LoggerManager.logger at hp
  cases hl : m.loggers name with
  | none =>
    rw [hl] at hp
    cases hp
  | some l =>
    rw [hl] at hp
    exact h name l hl p hp

/-- The name is in the old set only. -/
def OnlyOld (old_value new_value : List LogDefine) (name : List UInt8) : Prop :=
  (∃ d ∈ old_value, d.name = name) ∧ ∀ d ∈ new_value, d.name ≠ name

/-- The name is neither that of a definition that is new or different, nor in the old set only. -/
def Untouched (old_value new_value : List LogDefine) (name : List UInt8) : Prop :=
  (∀ d ∈ new_value, d ∉ old_value → d.name ≠ name) ∧ ¬ OnlyOld old_value new_value name

/-- The configuration is applied. A logger that is neither defined anew nor removed stays as it was, and so do the
appenders that it points to. -/
structure Applied (old_value new_value : List LogDefine) (m m' : LoggerManager) : Prop where
  changed : ∀ d ∈ new_value, d ∉ old_value → Conforms m' d
  removed : ∀ name, OnlyOld old_value new_value name → ∃ l, m'.loggers name = some l ∧ l.appenders = []
  others : ∀ name, Untouched old_value new_value name → m'.loggers name = m.loggers name ∧
    ∀ p ∈ (m.logger name).appenders, m'.appenders[p]? = m.appenders[p]?

/-! ## What the definitions hand to appenders -/

/-- The definition has a formatter, and its logger has the appender. -/
def LogDefine.Gives (m : LoggerManager) (p : Nat) (d : LogDefine) : Prop :=
  p ∈ (m.logger d.name).appenders ∧ d.formatter ≠ [] ∧ (LogFormatter.new d.formatter).isError = false

instance (m : LoggerManager) (p : Nat) : DecidablePred (LogDefine.Gives m p) := fun _ => instDecidableAnd

namespace LoggerManager

/-- The last of the definitions with a formatter for the appender. -/
def giver (m : LoggerManager) (ds : List LogDefine) (p : Nat) : Option LogDefine :=
  (ds.filter (LogDefine.Gives m p)).getLast?

/-- An appender without a formatter of its own takes that of the giver. -/
def handed (m : LoggerManager) (ds : List LogDefine) (p : Nat) (a : LogAppender) : LogAppender :=
  { a with
    formatter :=
      if a.hasFormatter then a.formatter
      else (m.giver ds p).elim a.formatter fun d => some (.new d.formatter) }

/-- The table with the formatters of the definitions in its appenders. -/
def handOut (m : LoggerManager) (ds : List LogDefine) : LoggerManager :=
  { m with appenders := m.appenders.mapIdx (m.handed ds) }

variable {m : LoggerManager} {ds : List LogDefine} {d : LogDefine} {p : Nat}

@[simp] theorem handed_hasFormatter (a : LogAppender) : (m.handed ds p a).hasFormatter = a.hasFormatter := rfl

theorem handed_nil (a : LogAppender) : m.handed [] p a = a := by
  rw [handed, giver, List.filter_nil, List.getLast?_nil, Option.elim_none, ite_self]

/-- One more definition. -/
theorem handed_concat (a : LogAppender) : m.handed (ds ++ [d]) p a =
    if d.Gives m p ∧ a.hasFormatter = false then { m.handed ds p a with formatter := some (.new d.formatter) }
    else m.handed ds p a := by
  cases ha : a.hasFormatter with
  | true => simp [handed, ha]
  | false =>
    by_cases hd : d.Gives m p
    · have hgiver : m.giver (ds ++ [d]) p = some d := by simp [giver, hd]
      simp [handed, ha, hd, hgiver]
    · have hgiver : m.giver (ds ++ [d]) p = m.giver ds p := by simp [giver, hd]
      simp [handed, ha, hd, hgiver]

/-- An appender that has its own formatter, or the giver's, stays as it is. -/
theorem handed_eq_iff (a : LogAppender) : m.handed ds p a = a ↔
    (a.hasFormatter = false → ∀ d, m.giver ds p = some d → a.formatter = some (.new d.formatter)) := by
  obtain ⟨kind, level, formatter, hasFormatter⟩ := a
  cases hasFormatter with
  | true => simp [handed]
  | false =>
    cases hgiver : m.giver ds p with
    | none => simp [handed, hgiver]
    | some d => simp [handed, hgiver, eq_comm]

theorem getElem?_handOut : (m.handOut ds).appenders[p]? = (m.appenders[p]?).map (m.handed ds p) :=
  List.getElem?_mapIdx

/-- The root logger has no line to print at the level, or its appenders have what they print it with. -/
def RootPrints (m : LoggerManager) (level : Level) : Prop :=
  LogLevel.value (m.logger (bytes "root")).level ≤ LogLevel.value level →
    ∀ p ∈ (m.logger (bytes "root")).appenders, ∀ a, m.appenders[p]? = some a →
      LogLevel.value a.level ≤ LogLevel.value level → a.formatter ≠ none

theorem log_ok {a : LogAppender} {level : Level} :
    a.log level = .ok () ↔ (LogLevel.value a.level ≤ LogLevel.value level → a.formatter ≠ none) := by
  unfold LogAppender.log
  split
  · rename_i hle
    cases a.formatter <;> simp [hle]
  · rename_i hgt
    simp [hgt]

theorem logAll_ok {level : Level} {ps : List Nat} :
    m.logAll level ps = .ok () ↔ ∀ p ∈ ps, ∀ a, m.appenders[p]? = some a → a.log level = .ok () := by
  induction ps with
  | nil => simp [logAll]
  | cons p ps ih =>
    rw [logAll, List.forall_mem_cons, ← ih]
    cases m.appenders[p]? with
    | none =>
      simp only [reduceCtorEq, false_implies, implies_true, true_and]
      rfl
    | some a =>
      simp only [Option.some.injEq, forall_eq']
      cases a.log level with
      | error f => simp [bind, Except.bind]
      | ok u => simp [bind, Except.bind]

theorem logRoot_ok {level : Level} : m.logRoot level = .ok () ↔ m.RootPrints level := by
  rw [logRoot, getLogger_eq, RootPrints]
  simp only
  split
  · rename_i hle
    simp only [logAll_ok, log_ok, hle, forall_const]
  · rename_i hgt
    simp [hgt]

end LoggerManager

/-! ## One definition -/

section Define

variable {m m' : LoggerManager}

theorem makeAppender_eq {a : LogAppenderDefine} (h : a.type = 1) :
    ∃ ap, makeAppender a = .ok ap ∧ ∀ inherited,
      (if ap.formatter.isNone then { ap with formatter := inherited } else ap) = a.expected inherited := by
  obtain ⟨type, level, formatter, file⟩ := a
  obtain rfl : type = 1 := h
  cases formatter with
  | nil => exact ⟨_, rfl, fun _ => rfl⟩
  | cons c cs =>
    cases he : (LogFormatter.new (c :: cs)).isError with
    | true =>
      refine ⟨{ kind := .file file, level }, by simp [makeAppender, he], fun inherited => ?_⟩
      simp [LogAppenderDefine.expected, formatterOf, he]
    | false =>
      refine ⟨LogAppender.setFormatter { kind := .file file, level }
        (some (.new (c :: cs))), by simp [makeAppender, he],
        fun inherited => ?_⟩
      simp [LogAppenderDefine.expected, formatterOf, LogAppender.setFormatter, he]

theorem makeAppender_error {a : LogAppenderDefine} (h : a.type ≠ 1) : makeAppender a = .error .nullAppender := by
  simp [makeAppender, h]

/-- The loop hangs one appender after the other on the logger. -/
theorem addAppenders_ok {name : List UInt8} {l : Logger} {as : List LogAppenderDefine} (hl : m.loggers name = some l)
    (has : ∀ a ∈ as, a.type = 1) : addAppenders name as m = .ok
      { loggers := Function.update m.loggers name
          (some { l with appenders := l.appenders ++ List.range' m.appenders.length as.length })
        appenders := m.appenders ++ as.map (LogAppenderDefine.expected l.formatter) } := by
  induction as generalizing m l with
  | nil =>
    rw [addAppenders]
    simp [← hl]
  | cons a as ih =>
    rw [List.forall_mem_cons] at has
    obtain ⟨ap, hmake, hap⟩ := makeAppender_eq has.1
    have hlogger : m.logger name = l := by rw [LoggerManager.logger, hl, Option.getD_some]
    rw [addAppenders, hmake]
    show addAppenders name as (m.addAppender name ap) = _
    rw [LoggerManager.addAppender_eq, hlogger, hap, ih (Function.update_self ..) has.2]
    simp [Function.update_idem, List.range'_succ]

theorem addAppenders_error {name : List UInt8} {as : List LogAppenderDefine} (has : ∃ a ∈ as, a.type ≠ 1) :
    addAppenders name as m = .error .nullAppender := by
  induction as generalizing m with
  | nil => simp at has
  | cons a as ih =>
    rw [addAppenders]
    by_cases ha : a.type = 1
    · obtain ⟨ap, hmake, -⟩ := makeAppender_eq ha
      rw [hmake]
      refine ih ?_
      obtain ⟨b, hb, hne⟩ := has
      rcases List.mem_cons.1 hb with rfl | hb
      · exact absurd ha hne
      · exact ⟨b, hb, hne⟩
    · rw [makeAppender_error ha]
      rfl

/-- The level and the formatter, before the appenders are made. -/
theorem prepare_spec (d : LogDefine) (m : LoggerManager) : ∃ heap l, heap.length = m.appenders.length ∧
    (∀ p, heap[p]? = (m.appenders[p]?).map (m.handed [d] p)) ∧ l.level = d.level ∧
    l.formatter = formatterOf (m.logger d.name).formatter d.formatter ∧ l.appenders = [] ∧
    applyDefine d m = addAppenders d.name d.appenders
      { loggers := Function.update m.loggers d.name (some l), appenders := heap } := by
  -- a definition without a formatter hands nothing out
  have hsame : ¬ (d.formatter ≠ [] ∧ (LogFormatter.new d.formatter).isError = false) →
      ∀ p, m.appenders[p]? = (m.appenders[p]?).map (m.handed [d] p) := by
    intro hnone p
    have hgives : ¬ d.Gives m p := fun h => hnone h.2
    cases m.appenders[p]? with
    | none => rfl
    | some a => rw [Option.map_some, ← List.nil_append [d], LoggerManager.handed_concat, if_neg (fun h => hgives h.1),
        LoggerManager.handed_nil]
  unfold applyDefine LoggerManager.setLevel LoggerManager.clearAppenders
  simp only [LoggerManager.change_eq]
  by_cases hf : d.formatter ≠ []
  · rw [if_pos hf]
    unfold LoggerManager.setPattern
    simp only
    cases he : (LogFormatter.new d.formatter).isError with
    | true =>
      refine ⟨m.appenders, { m.logger d.name with level := d.level, appenders := [] }, rfl,
        hsame (by simp [he]), rfl, ?_, rfl, ?_⟩
      · simp [formatterOf, he]
      · simp [LoggerManager.logger_update, Function.update_idem]
    | false =>
      rw [if_neg (by simp), LoggerManager.setFormatter_eq, LoggerManager.logger_update, LoggerManager.logger_update]
      refine ⟨m.appenders.mapIdx fun p a =>
          if p ∈ (m.logger d.name).appenders ∧ a.hasFormatter = false
          then { a with formatter := some (.new d.formatter) }
          else a,
        { level := d.level, formatter := some (.new d.formatter), appenders := [] }, ?_, ?_, rfl, ?_, rfl, ?_⟩
      · simp
      · intro p
        have hgives : d.Gives m p ↔ p ∈ (m.logger d.name).appenders := and_iff_left ⟨hf, he⟩
        rw [List.getElem?_mapIdx]
        refine congrArg (fun f => Option.map f _) (funext fun a => ?_)
        rw [← List.nil_append [d], LoggerManager.handed_concat, LoggerManager.handed_nil]
        simp only [hgives]
      · simp [formatterOf, he, hf]
      · simp only [Function.update_idem]
  · rw [if_neg hf, LoggerManager.logger_update]
    refine ⟨m.appenders, { m.logger d.name with level := d.level, appenders := [] }, rfl,
      hsame fun h => hf h.1, rfl, ?_, rfl, ?_⟩
    · simp [formatterOf, hf]
    · simp [Function.update_idem]

/-- The definition is applied to its logger, and hands its formatter to the appenders that the logger had. -/
theorem applyDefine_ok {d : LogDefine} (hd : ∀ a ∈ d.appenders, a.type = 1) (m : LoggerManager) :
    ∃ heap l, heap.length = m.appenders.length ∧
      (∀ p, heap[p]? = (m.appenders[p]?).map (m.handed [d] p)) ∧ l.level = d.level ∧
      l.formatter = formatterOf (m.logger d.name).formatter d.formatter ∧
      l.appenders = List.range' m.appenders.length d.appenders.length ∧
      applyDefine d m = .ok { loggers := Function.update m.loggers d.name (some l)
                              appenders := heap ++ d.appenders.map (LogAppenderDefine.expected l.formatter) } := by
  obtain ⟨heap, l, hlen, hheap, hlevel, hformatter, hempty, heq⟩ := prepare_spec d m
  refine ⟨heap, { l with appenders := List.range' m.appenders.length d.appenders.length }, hlen, hheap, hlevel,
    hformatter,
    rfl, ?_⟩
  rw [heq, addAppenders_ok (Function.update_self ..) hd, hempty, hlen, List.nil_append, Function.update_idem]

theorem applyDefine_error {d : LogDefine} (hd : ∃ a ∈ d.appenders, a.type ≠ 1) (m : LoggerManager) :
    applyDefine d m = .error .nullAppender := by
  obtain ⟨heap, l, -, -, -, -, -, heq⟩ := prepare_spec d m
  rw [heq]
  exact addAppenders_error hd

end Define

/-! ## The first loop -/

section Loops

/-- What the first loop has done when the definitions `done` have been applied to the table `m₀`. -/
structure Progress (m₀ : LoggerManager) (done : List LogDefine) (m : LoggerManager) : Prop where
  loggers : ∀ name, (∀ d ∈ done, d.name ≠ name) → m.loggers name = m₀.loggers name
  grows : m₀.appenders.length ≤ m.appenders.length
  handed : ∀ p < m₀.appenders.length, m.appenders[p]? = (m₀.appenders[p]?).map (m₀.handed done p)
  conforms : ∀ d ∈ done, ∃ l base, m.loggers d.name = some l ∧ l.level = d.level ∧
    (d.formatter ≠ [] → (LogFormatter.new d.formatter).isError = false → l.formatter = some (.new d.formatter)) ∧
    m₀.appenders.length ≤ base ∧ base + d.appenders.length ≤ m.appenders.length ∧
    l.appenders = List.range' base d.appenders.length ∧
    ∀ j (hj : j < d.appenders.length), m.appenders[base + j]? = some (d.appenders[j].expected l.formatter)

variable {m₀ m : LoggerManager} {done : List LogDefine}

theorem Progress.refl (m : LoggerManager) : Progress m [] m := by
  refine ⟨fun _ _ => rfl, le_refl _, fun p _ => ?_, fun d hd => ?_⟩
  · have hsame : m.handed [] p = id := funext LoggerManager.handed_nil
    rw [hsame, Option.map_id, id]
  · cases hd

/-- One more definition, of another name. -/
theorem Progress.step (hwf : m₀.Wf) (h : Progress m₀ done m) {d : LogDefine} (hnew : ∀ e ∈ done, e.name ≠ d.name)
    (hd : ∀ a ∈ d.appenders, a.type = 1) : ∃ m', applyDefine d m = .ok m' ∧ Progress m₀ (done ++ [d]) m' := by
  obtain ⟨heap, l, hlen, hheap, hlevel, hformatter, happenders, heq⟩ := applyDefine_ok hd m
  have hsame : m.logger d.name = m₀.logger d.name := by
    rw [LoggerManager.logger, h.loggers d.name hnew, ← LoggerManager.logger]
  have hgives : ∀ p, d.Gives m p ↔ d.Gives m₀ p := by
    intro p
    rw [LogDefine.Gives, LogDefine.Gives, hsame]
  refine ⟨_, heq, ?_, ?_, ?_, ?_⟩
  · intro name hname
    rw [List.forall_mem_append, List.forall_mem_singleton] at hname
    exact (Function.update_of_ne (Ne.symm hname.2) ..).trans (h.loggers name hname.1)
  · have := h.grows
    simp only [List.length_append, hlen]
    omega
  · intro p hp
    have hlt : p < heap.length := by
      have := h.grows
      omega
    rw [List.getElem?_append_left hlt, hheap, h.handed p hp, Option.map_map]
    refine congrArg (fun f => Option.map f _) (funext fun a => ?_)
    rw [Function.comp_apply, ← List.nil_append [d], LoggerManager.handed_concat, LoggerManager.handed_nil,
      LoggerManager.handed_hasFormatter, List.nil_append, LoggerManager.handed_concat]
    simp only [hgives]
  · intro e he
    rcases List.mem_append.1 he with he | he
    · obtain ⟨l', base, hl', hlevel', hformatter', hbase, hroom, happenders', hcells⟩ := h.conforms e he
      refine ⟨l', base, (Function.update_of_ne (hnew e he) ..).trans hl', hlevel', hformatter', hbase, ?_, happenders',
        fun j hj => ?_⟩
      · simp only [List.length_append, hlen]
        omega
      · have hlt : base + j < heap.length := by omega
        -- what the logger has pointed to was there from the beginning
        have hnot : ¬ d.Gives m (base + j) := by
          intro hgive
          have := hwf.logger d.name _ (hsame ▸ hgive.1)
          omega
        rw [List.getElem?_append_left hlt, hheap, hcells j hj, Option.map_some, ← List.nil_append [d],
          LoggerManager.handed_concat, if_neg fun h => hnot h.1, LoggerManager.handed_nil]
    · obtain rfl := List.mem_singleton.1 he
      refine ⟨l, m.appenders.length, Function.update_self .., hlevel,
        fun h1 h2 => ?_, h.grows, ?_, happenders, fun j hj => ?_⟩
      · rw [hformatter, formatterOf, if_pos ⟨h1, h2⟩]
      · simp [hlen]
      · rw [List.getElem?_append_right (by omega), hlen, Nat.add_sub_cancel_left]
        simp [hj]

/-- The first loop applies the definition. -/
def noticed (old_value : List LogDefine) (i : LogDefine) : Bool :=
  match findDefine i old_value with
  | none => true
  | some it => !i.eq it

variable {old_value : List LogDefine}

theorem applyNew_cons (i : LogDefine) (is : List LogDefine) (m : LoggerManager) : applyNew old_value (i :: is) m =
    if noticed old_value i then (applyDefine i m).bind (applyNew old_value is) else applyNew old_value is m := by
  rw [applyNew, noticed]
  split
  · rfl
  · rfl

/-- A run of the first loop in which no appender is left null. -/
theorem applyNew_ok (hwf : m₀.Wf) {is : List LogDefine} (h : Progress m₀ done m)
    (hdistinct : is.Pairwise fun a b => a.name ≠ b.name) (hnew : ∀ d ∈ is, ∀ e ∈ done, e.name ≠ d.name)
    (htype : ∀ d ∈ is, noticed old_value d = true → ∀ a ∈ d.appenders, a.type = 1) :
    ∃ m', applyNew old_value is m = .ok m' ∧ Progress m₀ (done ++ is.filter (noticed old_value)) m' := by
  induction is generalizing m done with
  | nil => exact ⟨m, rfl, by rwa [List.filter_nil, List.append_nil]⟩
  | cons d is ih =>
    rw [List.pairwise_cons] at hdistinct
    rw [List.forall_mem_cons] at hnew htype
    rw [applyNew_cons]
    cases hd : noticed old_value d with
    | true =>
      obtain ⟨m₁, hone, h₁⟩ := h.step hwf hnew.1 (htype.1 hd)
      have hnew₁ : ∀ e ∈ is, ∀ f ∈ done ++ [d], f.name ≠ e.name := by
        intro e he
        rw [List.forall_mem_append, List.forall_mem_singleton]
        exact ⟨hnew.2 e he, hdistinct.1 e he⟩
      obtain ⟨m', hrest, h'⟩ := ih h₁ hdistinct.2 hnew₁ htype.2
      refine ⟨m', ?_, ?_⟩
      · rw [if_pos rfl, hone]
        exact hrest
      · rwa [List.filter_cons_of_pos hd, List.append_cons]
    | false =>
      rw [if_neg (by simp), List.filter_cons_of_neg (by simp [hd])]
      exact ih h hdistinct.2 hnew.2 htype.2

/-- A definition that is noticed and has an appender of another type than 1 ends in the null pointer. -/
theorem applyNew_error {is : List LogDefine} (m : LoggerManager)
    (his : ∃ d ∈ is, noticed old_value d = true ∧ ∃ a ∈ d.appenders, a.type ≠ 1) :
    applyNew old_value is m = .error .nullAppender := by
  induction is generalizing m with
  | nil => simp at his
  | cons i is ih =>
    obtain ⟨d, hmem, hd, ha⟩ := his
    rw [applyNew_cons]
    rcases List.mem_cons.1 hmem with rfl | hmem
    · rw [if_pos hd, applyDefine_error ha]
      rfl
    · split
      · by_cases hi : ∀ a ∈ i.appenders, a.type = 1
        · obtain ⟨heap, l, -, -, -, -, -, heq⟩ := applyDefine_ok hi m
          rw [heq]
          exact ih _ ⟨d, hmem, hd, ha⟩
        · push Not at hi
          rw [applyDefine_error hi]
          rfl
      · exact ih m ⟨d, hmem, hd, ha⟩

/-- The second loop takes the appenders from the loggers that are not defined any more. -/
theorem removeOld_spec (new_value is : List LogDefine) (m : LoggerManager) :
    (removeOld new_value is m).appenders = m.appenders ∧
    (∀ name, (∃ i ∈ is, i.name = name ∧ findDefine i new_value = none) →
      ∃ l, (removeOld new_value is m).loggers name = some l ∧ l.appenders = []) ∧
    ∀ name, (∀ i ∈ is, i.name = name → findDefine i new_value ≠ none) →
      (removeOld new_value is m).loggers name = m.loggers name := by
  induction is generalizing m with
  | nil => exact ⟨rfl, by simp, fun _ _ => rfl⟩
  | cons i is ih =>
    rw [removeOld]
    cases hi : findDefine i new_value with
    | none =>
      obtain ⟨happenders, hgone, hsame⟩ := ih ((m.setLevel i.name .UNKNOW).clearAppenders i.name)
      simp only
      refine ⟨?_, fun name hname => ?_, fun name hname => ?_⟩
      · rw [happenders]
        simp only [LoggerManager.setLevel, LoggerManager.clearAppenders, LoggerManager.change_eq]
      · by_cases hlater : ∃ j ∈ is, j.name = name ∧ findDefine j new_value = none
        · exact hgone name hlater
        · obtain ⟨j, hj, hjn, hjf⟩ := hname
          rcases List.mem_cons.1 hj with rfl | hj
          · rw [hsame name fun k hk hkn hkf => hlater ⟨k, hk, hkn, hkf⟩, ← hjn]
            simp [LoggerManager.clearAppenders, LoggerManager.change_eq]
          · exact absurd ⟨j, hj, hjn, hjf⟩ hlater
      · rw [List.forall_mem_cons] at hname
        rw [hsame name hname.2]
        have hne : name ≠ i.name := fun h => hname.1 h.symm hi
        simp [LoggerManager.clearAppenders, LoggerManager.setLevel, LoggerManager.change_eq, Function.update_of_ne hne]
    | some it =>
      obtain ⟨happenders, hgone, hsame⟩ := ih m
      refine ⟨happenders, fun name hname => hgone name ?_, fun name hname => hsame name ?_⟩
      · obtain ⟨j, hj, hjn, hjf⟩ := hname
        rcases List.mem_cons.1 hj with rfl | hj
        · rw [hi] at hjf
          cases hjf
        · exact ⟨j, hj, hjn, hjf⟩
      · exact (List.forall_mem_cons.1 hname).2

end Loops

/-! ## Applying a configuration -/

/-- A `std::set<LogDefine>`. -/
def IsSet (s : List LogDefine) : Prop := OrderedSet.Ordered (· < ·) LogDefine.name s

section Configuration

variable {s old_value new_value : List LogDefine} {d e : LogDefine}

theorem find_iff (hs : IsSet s) : findDefine d s = some e ↔ e ∈ s ∧ e.name = d.name :=
  OrderedSet.find_eq_some_iff hs

theorem find_none (hs : IsSet s) : findDefine d s = none ↔ ∀ e ∈ s, e.name ≠ d.name := by
  rw [Option.eq_none_iff_forall_ne_some]
  constructor
  · intro h e he hname
    exact h e ((find_iff hs).2 ⟨he, hname⟩)
  · intro h e he
    obtain ⟨hmem, hname⟩ := (find_iff hs).1 he
    exact h e hmem hname

theorem IsSet.eq_of_name (hs : IsSet s) (hd : d ∈ s) (he : e ∈ s) (h : d.name = e.name) : d = e := by
  have h1 : findDefine e s = some d := (find_iff hs).2 ⟨hd, h⟩
  have h2 : findDefine e s = some e := (find_iff hs).2 ⟨he, rfl⟩
  exact Option.some.inj (h1.symm.trans h2)

theorem IsSet.distinct (hs : IsSet s) : s.Pairwise fun a b => a.name ≠ b.name := by
  refine List.Pairwise.imp ?_ hs
  intro a b hlt hname
  rw [hname] at hlt
  exact List.lt_irrefl _ hlt

/-- What the comparison sees: a new name, another level or another formatter. -/
theorem noticed_iff (hs : IsSet old_value) : noticed old_value d = true ↔
    ∀ o ∈ old_value, o.name = d.name → o.level ≠ d.level ∨ o.formatter ≠ d.formatter := by
  unfold noticed
  split
  · rename_i hnone
    refine iff_of_true rfl fun o ho hname => ?_
    exact absurd hname ((find_none hs).1 hnone o ho)
  · rename_i it hit
    obtain ⟨hmem, hname⟩ := (find_iff hs).1 hit
    have heq : d.eq it = true ↔ it.level = d.level ∧ it.formatter = d.formatter := by
      rw [LogDefine.eq, hname]
      simp only [decide_true, Bool.true_and, Bool.and_true, Bool.and_eq_true, decide_eq_true_eq]
      exact and_congr eq_comm eq_comm
    rw [Bool.not_eq_true', ← Bool.not_eq_true, heq, not_and_or]
    constructor
    · intro h o ho hon
      rwa [hs.eq_of_name ho hmem (hon.trans hname.symm)]
    · intro h
      exact h it hmem hname

theorem not_noticed (ho : IsSet old_value) (he : e ∈ old_value) (hname : e.name = d.name) (hlevel : e.level = d.level)
    (hformatter : e.formatter = d.formatter) : ¬ noticed old_value d = true := by
  intro hnot
  rcases (noticed_iff ho).1 hnot e he hname with hne | hne
  · exact hne hlevel
  · exact hne hformatter

/-- A definition that is not in the old set is noticed, or differs from its old one in the appenders only. -/
theorem noticed_or_appenders (ho : IsSet old_value) (hd : d ∉ old_value) : noticed old_value d = true ∨
    ∃ o ∈ old_value, o.name = d.name ∧ o.level = d.level ∧ o.formatter = d.formatter ∧ o.appenders ≠ d.appenders := by
  rw [or_iff_not_imp_left, noticed_iff ho]
  push Not
  rintro ⟨o, hold, hname, hlevel, hformatter⟩
  exact ⟨o, hold, hname, hlevel, hformatter, fun h => hd (LogDefine.ext hname hlevel hformatter h ▸ hold)⟩

/-- The second loop leaves the names of the new set alone. -/
theorem removeOld_loggers (hn : IsSet new_value) (hd : d ∈ new_value) (m : LoggerManager) :
    (removeOld new_value old_value m).loggers d.name = m.loggers d.name := by
  refine (removeOld_spec new_value old_value m).2.2 d.name fun i _ hname hnone => ?_
  exact (find_none hn).1 hnone d hd hname.symm

/-- Loggers as the first loop leaves them are as their definitions say. -/
theorem Progress.conform {m₀ m : LoggerManager} {done : List LogDefine} (h : Progress m₀ done m) (hd : d ∈ done) :
    Conforms m d := by
  obtain ⟨l, base, hl, hlevel, hformatter, -, -, happenders, hcells⟩ := h.conforms d hd
  refine ⟨l, hl, hlevel, hformatter, ?_, ?_⟩
  · rw [happenders]
    exact List.nodup_range'
  · rw [happenders]
    refine List.ext_getElem (by simp) fun j hj hj' => ?_
    have hlt : j < d.appenders.length := by simpa using hj'
    simp [hcells j hlt]

/-- A definition that the first loop passes over finds its logger as it was, but for the formatters handed out. -/
theorem conforms_congr {m m' : LoggerManager} {ds : List LogDefine} (hwf : m.Wf)
    (hlogger : m'.loggers d.name = m.loggers d.name)
    (happenders : ∀ p < m.appenders.length, m'.appenders[p]? = (m.appenders[p]?).map (m.handed ds p)) :
    Conforms m' d ↔ Conforms (m.handOut ds) d := by
  rw [Conforms, Conforms, hlogger]
  refine exists_congr fun l => and_congr_right fun hl => ?_
  have hcells : l.appenders.map (fun p => m'.appenders[p]?) =
      l.appenders.map fun p => (m.handOut ds).appenders[p]? := by
    refine List.map_congr_left fun p hp => ?_
    rw [happenders p (hwf _ l hl p hp), LoggerManager.getElem?_handOut]
  rw [hcells]

/-- A run of the listener that meets no null pointer. -/
theorem listener_ok {m : LoggerManager} (hwf : m.Wf) (hn : IsSet new_value) (hroot : m.RootPrints .INFO)
    (hfiles : ∀ d ∈ new_value, noticed old_value d = true → ∀ a ∈ d.appenders, a.type = 1) :
    ∃ m₁, onLoggerConfChanged old_value new_value m = .ok (removeOld new_value old_value m₁) ∧
      Progress m (new_value.filter (noticed old_value)) m₁ := by
  obtain ⟨m₁, hfirst, hprogress⟩ := applyNew_ok hwf (.refl m) hn.distinct (by simp) hfiles
  refine ⟨m₁, ?_, hprogress⟩
  rw [onLoggerConfChanged, LoggerManager.logRoot_ok.2 hroot, hfirst]
  rfl

/-- What a run without a fault says of the table and the definitions. -/
theorem of_listener_ok {m m' : LoggerManager} (h : onLoggerConfChanged old_value new_value m = .ok m') :
    m.RootPrints .INFO ∧ ∀ d ∈ new_value, noticed old_value d = true → ∀ a ∈ d.appenders, a.type = 1 := by
  rw [onLoggerConfChanged] at h
  cases hroot : m.logRoot .INFO with
  | error f =>
    rw [hroot] at h
    cases h
  | ok u =>
    refine ⟨LoggerManager.logRoot_ok.1 hroot, fun d hd hnot a ha => ?_⟩
    by_contra hne
    rw [hroot, applyNew_error m ⟨d, hd, hnot, a, ha, hne⟩] at h
    cases h

/-- Applying a log configuration, on any table of loggers. The listener meets no null pointer and applies the
configuration exactly when the root logger can print a line, no definition that is noticed has an appender for the
standard output, one that differs from its old one in the appenders only finds its logger as it says
already, and no appender of an untouched logger is handed another formatter. -/
theorem configuration_applied {m : LoggerManager} (hwf : m.Wf) (ho : IsSet old_value) (hn : IsSet new_value)
    (htype : ∀ d ∈ new_value, ∀ a ∈ d.appenders, a.type = 1 ∨ a.type = 2) :
    (∃ m', onLoggerConfChanged old_value new_value m = .ok m' ∧ Applied old_value new_value m m') ↔
    m.RootPrints .INFO ∧
    (∀ d ∈ new_value, (∀ o ∈ old_value, o.name = d.name → o.level ≠ d.level ∨ o.formatter ≠ d.formatter) →
      ∀ a ∈ d.appenders, a.type ≠ 2) ∧
    (∀ d ∈ new_value, ∀ o ∈ old_value, o.name = d.name → o.level = d.level → o.formatter = d.formatter →
      o.appenders ≠ d.appenders → Conforms (m.handOut (new_value.filter (noticed old_value))) d) ∧
    ∀ name, Untouched old_value new_value name → ∀ p ∈ (m.logger name).appenders, ∀ a, m.appenders[p]? = some a →
      a.hasFormatter = false → ∀ d, m.giver (new_value.filter (noticed old_value)) p = some d →
      a.formatter = some (.new d.formatter) := by
  -- neither loop touches the logger of a definition that is passed over
  have hpassed : ∀ {m₁ : LoggerManager}, Progress m (new_value.filter (noticed old_value)) m₁ → ∀ d ∈ new_value,
      ¬ noticed old_value d = true →
      (Conforms (removeOld new_value old_value m₁) d ↔
        Conforms (m.handOut (new_value.filter (noticed old_value))) d) := by
    intro m₁ hprogress d hd hnot
    refine conforms_congr hwf ?_ ?_
    · rw [removeOld_loggers hn hd, hprogress.loggers d.name]
      intro e he hname
      rw [List.mem_filter] at he
      exact hnot (hn.eq_of_name he.1 hd hname ▸ he.2)
    · rw [(removeOld_spec new_value old_value m₁).1]
      exact hprogress.handed
  constructor
  · rintro ⟨m', hrun, happlied⟩
    obtain ⟨hroot, hfiles⟩ := of_listener_ok hrun
    obtain ⟨m₁, hrun', hprogress⟩ := listener_ok hwf hn hroot hfiles
    obtain rfl := Except.ok.inj (hrun.symm.trans hrun')
    refine ⟨hroot, ?_, ?_, ?_⟩
    · intro d hd hnot a ha htwo
      have hone := hfiles d hd ((noticed_iff ho).2 hnot) a ha
      rw [hone] at htwo
      cases htwo
    · intro d hd o hold hname hlevel hformatter hdiff
      refine (hpassed hprogress d hd (not_noticed ho hold hname hlevel hformatter)).1 (happlied.changed d hd ?_)
      intro hmem
      exact hdiff (congrArg LogDefine.appenders (ho.eq_of_name hold hmem hname))
    · intro name hname p hp a ha
      have hsame := (happlied.others name hname).2 p hp
      rw [(removeOld_spec new_value old_value m₁).1, hprogress.handed p (hwf.logger name p hp), ha, Option.map_some,
        Option.some.injEq] at hsame
      exact (LoggerManager.handed_eq_iff a).1 hsame
  · rintro ⟨hroot, hstdout, hlost, hshared⟩
    have hfiles : ∀ d ∈ new_value, noticed old_value d = true → ∀ a ∈ d.appenders, a.type = 1 := by
      intro d hd hnot a ha
      exact (htype d hd a ha).resolve_right (hstdout d hd ((noticed_iff ho).1 hnot) a ha)
    obtain ⟨m₁, hrun, hprogress⟩ := listener_ok hwf hn hroot hfiles
    obtain ⟨happenders, hgone, hothers⟩ := removeOld_spec new_value old_value m₁
    refine ⟨removeOld new_value old_value m₁, hrun, ?_, ?_, ?_⟩
    · intro d hd hmem
      rcases noticed_or_appenders ho hmem with hnot | ⟨o, hold, hname, hlevel, hformatter, hdiff⟩
      · obtain ⟨l, hl, hrest⟩ := hprogress.conform (List.mem_filter.2 ⟨hd, hnot⟩)
        rw [Conforms, happenders]
        exact ⟨l, (removeOld_loggers hn hd m₁).trans hl, hrest⟩
      · rw [hpassed hprogress d hd (not_noticed ho hold hname hlevel hformatter)]
        exact hlost d hd o hold hname hlevel hformatter hdiff
    · rintro name ⟨⟨d, hd, rfl⟩, hnot⟩
      exact hgone d.name ⟨d, hd, rfl, (find_none hn).2 hnot⟩
    · intro name hname
      constructor
      · rw [hothers name, hprogress.loggers name]
        · intro d hd
          obtain ⟨hmem, hnot⟩ := List.mem_filter.1 hd
          exact hname.1 d hmem fun hold => not_noticed ho hold rfl rfl rfl hnot
        · intro i hi hin hnone
          exact hname.2 ⟨⟨i, hi, hin⟩, hin ▸ (find_none hn).1 hnone⟩
      · intro p hp
        rw [happenders, hprogress.handed p (hwf.logger name p hp)]
        cases ha : m.appenders[p]? with
        | none => rfl
        | some a => rw [Option.map_some, (LoggerManager.handed_eq_iff a).2 (hshared name hname p hp a ha)]

/-- The loggers at the start of the program: the root with its appender on the standard output. -/
def startup : LoggerManager :=
  (LoggerManager.mk (fun _ => none) []).addAppender (bytes "root") { kind := .stdout }

theorem LoggerManager.Wf.addAppender {m : LoggerManager} (h : m.Wf) (name : List UInt8) (appender : LogAppender) :
    (m.addAppender name appender).Wf := by
  rw [LoggerManager.addAppender_eq]
  intro n l hl p hp
  simp only [List.length_append, List.length_singleton]
  by_cases hn : n = name
  · subst hn
    simp only [Function.update_self, Option.some.injEq] at hl
    subst hl
    rcases List.mem_append.1 hp with hp | hp
    · exact Nat.lt_succ_of_lt (h.logger n p hp)
    · rw [List.mem_singleton.1 hp]
      exact Nat.lt_succ_self _
  · simp only [Function.update_of_ne hn] at hl
    exact Nat.lt_succ_of_lt (h n l hl p hp)

theorem startup_wf : startup.Wf := by
  apply LoggerManager.Wf.addAppender
  intro name l hl
  cases hl

/-- A second logger that writes to the root's appender. -/
def sharing : LoggerManager :=
  { startup with
    loggers := Function.update startup.loggers (bytes "system") (some { Logger.new with appenders := [0] }) }

theorem sharing_wf : sharing.Wf := by
  intro name l hl p hp
  by_cases hn : name = bytes "system"
  · subst hn
    simp only [sharing, Function.update_self, Option.some.injEq] at hl
    subst hl
    rw [List.mem_singleton.1 hp]
    exact Nat.one_pos
  · simp only [sharing, Function.update_of_ne hn] at hl
    exact startup_wf name l hl p hp

/-- The root logger with an appender on the standard output. -/
def console : LogDefine := { name := bytes "root", level := .INFO, appenders := [{ type := 2 }] }

/-- The root logger, with and without a file. -/
def rootFile : LogDefine :=
  { name := bytes "root", level := .INFO, appenders := [{ type := 1, file := bytes "/tmp/log.txt" }] }

def rootBare : LogDefine := { name := bytes "root", level := .INFO }

/-- The second logger, with a formatter, and with a file. -/
def systemPlain : LogDefine := { name := bytes "system", level := .INFO, formatter := bytes "%m%n" }

def systemFile : LogDefine :=
  { name := bytes "system", level := .INFO, appenders := [{ type := 1, file := bytes "/tmp/log.txt" }] }

/-- An appender on the standard output ends in a null pointer, appenders alone are no change, and the root's appender
takes the formatter of the logger that shares it. -/
theorem configuration_lost :
    (¬ ∀ (old_value new_value : List LogDefine) (m : LoggerManager), IsSet old_value → IsSet new_value → m.Wf →
      (∀ d ∈ old_value ++ new_value, ∀ a ∈ d.appenders, a.type = 1 ∨ a.type = 2) →
      ∃ m', onLoggerConfChanged old_value new_value m = .ok m' ∧ Applied old_value new_value m m') ∧
    (¬ ∀ (old_value new_value : List LogDefine) (m : LoggerManager), IsSet old_value → IsSet new_value → m.Wf →
      (∀ d ∈ old_value ++ new_value, ∀ a ∈ d.appenders, a.type = 1) →
      ∃ m', onLoggerConfChanged old_value new_value m = .ok m' ∧ Applied old_value new_value m m') ∧
    ¬ ∀ (old_value new_value : List LogDefine) (m : LoggerManager), IsSet old_value → IsSet new_value → m.Wf →
      (∀ d ∈ old_value ++ new_value, d.appenders = []) →
      ∃ m', onLoggerConfChanged old_value new_value m = .ok m' ∧ Applied old_value new_value m m' := by
  refine ⟨?_, ?_, ?_⟩
  · intro h
    obtain ⟨m', hrun, -⟩ := h [] [console] startup List.Pairwise.nil (List.pairwise_singleton ..) startup_wf (by decide)
    have hone := (of_listener_ok hrun).2 console (by simp) rfl { type := 2 } (by simp [console])
    cases hone
  · intro h
    obtain ⟨m', hrun, happlied⟩ := h [rootBare] [rootFile] startup (List.pairwise_singleton ..)
      (List.pairwise_singleton ..) startup_wf (by decide)
    cases hrun
    obtain ⟨l, hl, hlevel, -⟩ := happlied.changed rootFile (by simp) (by decide)
    cases hl
    cases hlevel
  · intro h
    obtain ⟨m', hrun, happlied⟩ := h [] [systemPlain] sharing List.Pairwise.nil (List.pairwise_singleton ..) sharing_wf
      (by decide)
    cases hrun
    have huntouched : Untouched [] [systemPlain] (bytes "root") := ⟨by decide, fun h => by simpa using h.1⟩
    have hroot := (happlied.others _ huntouched).2 0 (List.mem_singleton_self 0)
    cases hroot

/-- A file for the second logger; the root's appender, which it shared, stays as it was. -/
theorem configuration_applied_file : ∃ m', onLoggerConfChanged [] [systemFile] sharing = .ok m' ∧
    Applied [] [systemFile] sharing m' :=
  (configuration_applied sharing_wf List.Pairwise.nil (List.pairwise_singleton ..) (by decide)).2 (by
    have hgiver : ∀ p, sharing.giver [systemFile] p = none := by
      intro p
      simp [LoggerManager.giver, LogDefine.Gives, systemFile]
    refine ⟨?_, by decide, fun _ _ _ ho => absurd ho List.not_mem_nil, ?_⟩
    · intro _ p hp a ha _
      obtain rfl := List.mem_singleton.1 hp
      cases ha
      exact Option.some_ne_none _
    · intro _ _ p _ _ _ _ d hd
      cases (hgiver p).symm.trans hd)

end Configuration

end ServerFrame.Log
