/-
`FileLogAppender` (`log.cc`) over a `std::ofstream` and the files of the disk. `reopen` closes the stream and never
opens it, and nothing else does: the first call, in the constructor, already sets `failbit`. What is printed to the
standard output is left out.
-/
import ServerFrame.Log.Define
import ServerFrame.Log.Formatter
import ServerFrame.Http.Dump
import Mathlib.Logic.Function.Basic

namespace ServerFrame.Log

open Http (bytes decimal)

/-! ## Events and their text -/

/-- `LogEvent`, with the name of its logger; `file` is a C string. -/
structure LogEvent where
  loggerName : List UInt8
  file : List UInt8
  line : Int32
  elapse : UInt32
  threadId : UInt32
  fiberId : UInt32
  time : UInt64
  threadName : List UInt8
  content : List UInt8

/-- A call of `log(logger, level, event)`. -/
structure LogCall where
  level : Level
  event : LogEvent

section Text

/- What `localtime_r` and `strftime` make of a format and a time, in the 64 bytes there are for it. -/
variable (strftime : List UInt8 → UInt64 → List UInt8) (c : LogCall)

/-- What the `format` of an item puts out. -/
def FormatItem.text : FormatItem → List UInt8
  | string text => text
  | message _ => c.event.content
  | level _ => LogLevel.ToString c.level
  | elapse _ => decimal c.event.elapse.toNat
  | name _ => c.event.loggerName
  | threadId _ => decimal c.event.threadId.toNat
  | newLine _ => [10]
  | dateTime format => strftime (if format = [] then bytes "%Y-%m-%d %H:%M:%S" else format) c.event.time
  | filename _ => c.event.file
  | line _ => bytes (toString c.event.line)
  | tab _ => [9]
  | fiberId _ => decimal c.event.fiberId.toNat
  | threadName _ => c.event.threadName

/-- `LogFormatter::format(logger, level, event)`, which returns the text. -/
def LogFormatter.format (f : LogFormatter) : List UInt8 := f.items.flatMap (FormatItem.text strftime c)

end Text

/-! ## Streams -/

/-- What the files hold, by name. -/
abbrev Disk := List UInt8 → List UInt8

/-- `std::ofstream`: the file that is open, and whether `failbit` or `badbit` is set. -/
structure OFStream where
  file : Option (List UInt8) := none
  fail : Bool := false

namespace OFStream

/-- `close()`, which fails where no file is open. -/
def close (os : OFStream) : OFStream :=
  match os.file with
  | some _ => { os with file := none }
  | none => { os with fail := true }

/-- `os << text`: nothing where the stream has failed before, and a failure where no file is open. -/
def insert (s : OFStream × Disk) (text : List UInt8) : OFStream × Disk :=
  if s.1.fail then s
  else
    match s.1.file with
    | some name => (s.1, Function.update s.2 name (s.2 name ++ text))
    | none => ({ s.1 with fail := true }, s.2)

end OFStream

/-- `LogFormatter::format(ofs, logger, level, event)`. -/
def LogFormatter.formatTo (f : LogFormatter) (strftime : List UInt8 → UInt64 → List UInt8) (c : LogCall)
    (s : OFStream × Disk) : OFStream × Disk :=
  f.items.foldl (fun s i => OFStream.insert s (i.text strftime c)) s

/-! ## The appender -/

/-- `FileLogAppender`. -/
structure FileLogAppender where
  filename : List UInt8
  level : Level
  formatter : Option LogFormatter
  filestream : OFStream := {}
  lastTime : UInt64 := 0

/-- `m_formatter` was null and used. -/
inductive FileFault
  | nullFormatter
  deriving DecidableEq

namespace FileLogAppender

/-- `reopen()`, which returns true. -/
def reopen (a : FileLogAppender) : FileLogAppender :=
  if !a.filestream.fail then { a with filestream := a.filestream.close } else a

/-- `FileLogAppender(filename)`, with the level and the formatter that it has been given. -/
def new (filename : List UInt8) (level : Level) (formatter : Option LogFormatter) : FileLogAppender :=
  ({ filename, level, formatter } : FileLogAppender).reopen

/-- `level >= m_level`. -/
def Due (a : FileLogAppender) (c : LogCall) : Prop := LogLevel.value a.level ≤ LogLevel.value c.level

instance (a : FileLogAppender) (c : LogCall) : Decidable (a.Due c) := Nat.decLe _ _

/-- The first part of `log`, once in three seconds. The sum is one of `uint64_t`. -/
def refresh (a : FileLogAppender) (now : UInt64) : FileLogAppender :=
  if now ≥ a.lastTime + 3 then { a.reopen with lastTime := now } else a

section Log

variable (strftime : List UInt8 → UInt64 → List UInt8)

/-- `log(logger, level, event)`. -/
def log (a : FileLogAppender) (disk : Disk) (c : LogCall) : Except FileFault (FileLogAppender × Disk) :=
  if a.Due c then
    let a := a.refresh c.event.time
    match a.formatter with
    | none => .error .nullFormatter
    | some f =>
      let r := f.formatTo strftime c (a.filestream, disk)
      .ok ({ a with filestream := r.1 }, r.2)
  else .ok (a, disk)

/-- Calls one after the other. -/
def logs (a : FileLogAppender) (disk : Disk) : List LogCall → Except FileFault (FileLogAppender × Disk)
  | [] => .ok (a, disk)
  | c :: cs =>
    match a.log strftime disk c with
    | .error f => .error f
    | .ok (a, disk) => a.logs disk cs

/-- The text of the calls that are due, in order. -/
def texts (a : FileLogAppender) (cs : List LogCall) : List UInt8 :=
  (cs.filter fun c => a.Due c).flatMap fun c => (a.formatter.map fun f => f.format strftime c).getD []

/-- The calls add their text to the file of the appender, and to no other. -/
def Appends (a : FileLogAppender) (disk : Disk) (cs : List LogCall) : Prop :=
  ∃ a', a.logs strftime disk cs = .ok (a', Function.update disk a.filename (disk a.filename ++ a.texts strftime cs))

/-- There is nothing to write: each call that is due has a formatter, and no text. -/
def Silent (a : FileLogAppender) (cs : List LogCall) : Prop :=
  ∀ c ∈ cs, a.Due c → ∃ f, a.formatter = some f ∧ f.format strftime c = []

/-! ## A stream that is never opened -/

variable {a a' : FileLogAppender} (disk : Disk) {c : LogCall} {cs : List LogCall}

/-- No file is open. -/
def Closed (a : FileLogAppender) : Prop := a.filestream.file = none

theorem insert_closed {s : OFStream × Disk} (h : s.1.file = none) (text : List UInt8) :
    (OFStream.insert s text).1.file = none ∧ (OFStream.insert s text).2 = s.2 := by
  rw [OFStream.insert]
  split
  · exact ⟨h, rfl⟩
  · rw [h]
    exact ⟨h, rfl⟩

theorem formatTo_closed (f : LogFormatter) {s : OFStream × Disk} (h : s.1.file = none) :
    (f.formatTo strftime c s).1.file = none ∧ (f.formatTo strftime c s).2 = s.2 := by
  rw [LogFormatter.formatTo]
  induction f.items generalizing s with
  | nil => exact ⟨h, rfl⟩
  | cons i items ih =>
    obtain ⟨hfile, hdisk⟩ := insert_closed h (i.text strftime c)
    rw [List.foldl_cons, ← hdisk]
    exact ih hfile

theorem reopen_closed (h : a.Closed) :
    a.reopen.Closed ∧ a.reopen.level = a.level ∧ a.reopen.formatter = a.formatter := by
  rw [reopen]
  split
  · refine ⟨?_, rfl, rfl⟩
    change a.filestream.close.file = none
    rw [OFStream.close, show a.filestream.file = none from h]
  · exact ⟨h, rfl, rfl⟩

theorem new_closed (filename : List UInt8) (level : Level) (formatter : Option LogFormatter) :
    (new filename level formatter).Closed :=
  (reopen_closed (a := { filename, level, formatter }) rfl).1

theorem refresh_closed (h : a.Closed) (now : UInt64) :
    (a.refresh now).Closed ∧ (a.refresh now).level = a.level ∧ (a.refresh now).formatter = a.formatter := by
  rw [refresh]
  split
  · exact reopen_closed h
  · exact ⟨h, rfl, rfl⟩

/-- A call that is due, of an appender that has a formatter, writes nothing. -/
theorem log_due {f : LogFormatter} (h : a.Closed) (hdue : a.Due c) (hf : a.formatter = some f) : ∃ a',
    a.log strftime disk c = .ok (a', disk) ∧ a'.Closed ∧ a'.level = a.level ∧ a'.formatter = a.formatter := by
  obtain ⟨hclosed, hlevel, hformatter⟩ := refresh_closed h c.event.time
  obtain ⟨hfile, hdisk⟩ := formatTo_closed strftime (c := c) f
    (s := ((a.refresh c.event.time).filestream, disk)) hclosed
  rw [log, if_pos hdue]
  dsimp only
  rw [hformatter, hf]
  dsimp only
  rw [hdisk]
  exact ⟨_, rfl, hfile, hlevel, rfl⟩

theorem log_null (h : a.Closed) (hdue : a.Due c) (hf : a.formatter = none) :
    a.log strftime disk c = .error .nullFormatter := by
  rw [log, if_pos hdue]
  dsimp only
  rw [(refresh_closed h c.event.time).2.2, hf]

/-- The calls leave the disk as it was, or use a null formatter. -/
theorem logs_closed (cs : List LogCall) (h : a.Closed) :
    ((∀ c ∈ cs, a.Due c → a.formatter ≠ none) → ∃ a', a.logs strftime disk cs = .ok (a', disk)) ∧
    ((∃ c ∈ cs, a.Due c ∧ a.formatter = none) → a.logs strftime disk cs = .error .nullFormatter) := by
  induction cs generalizing a with
  | nil =>
    refine ⟨fun _ => ⟨a, rfl⟩, ?_⟩
    rintro ⟨c, hc, -⟩
    cases hc
  | cons c cs ih =>
    rw [logs, List.forall_mem_cons]
    by_cases hdue : a.Due c
    · cases hf : a.formatter with
      | none =>
        rw [log_null strftime disk h hdue hf]
        exact ⟨fun hall => absurd rfl (hall.1 hdue), fun _ => rfl⟩
      | some f =>
        obtain ⟨a', hlog, hclosed, hlevel, hformatter⟩ := log_due strftime disk h hdue hf
        rw [hlog]
        refine ⟨fun _ => (ih hclosed).1 fun d _ _ => by rw [hformatter, hf]; exact Option.some_ne_none f, ?_⟩
        rintro ⟨d, -, -, hnone⟩
        cases hnone
    · have hlog : a.log strftime disk c = .ok (a, disk) := if_neg hdue
      rw [hlog]
      obtain ⟨hok, herror⟩ := ih h
      refine ⟨fun hall => hok hall.2, ?_⟩
      rintro ⟨d, hd, hdue', hnone⟩
      rcases List.mem_cons.1 hd with rfl | hd
      · exact absurd hdue' hdue
      · exact herror ⟨d, hd, hdue', hnone⟩

theorem texts_eq_nil_iff (hf : ∀ c ∈ cs, a.Due c → a.formatter ≠ none) :
    a.texts strftime cs = [] ↔ a.Silent strftime cs := by
  rw [texts, List.flatMap_eq_nil_iff]
  constructor
  · intro hnil c hc hdue
    obtain ⟨f, hsome⟩ := Option.ne_none_iff_exists'.1 (hf c hc hdue)
    have htext := hnil c (List.mem_filter.2 ⟨hc, decide_eq_true hdue⟩)
    rw [hsome] at htext
    exact ⟨f, hsome, htext⟩
  · intro hsilent c hc
    rw [List.mem_filter, decide_eq_true_eq] at hc
    obtain ⟨f, hsome, htext⟩ := hsilent c hc.1 hc.2
    rw [hsome]
    exact htext

theorem appends_iff (h : a.Closed) : a.Appends strftime disk cs ↔ a.Silent strftime cs := by
  obtain ⟨hok, herror⟩ := logs_closed strftime disk cs h
  constructor
  · rintro ⟨a', hrun⟩
    have hf : ∀ c ∈ cs, a.Due c → a.formatter ≠ none := by
      intro c hc hdue hnone
      rw [herror ⟨c, hc, hdue, hnone⟩] at hrun
      cases hrun
    obtain ⟨a'', hsame⟩ := hok hf
    rw [hsame] at hrun
    have hfile : disk a.filename = disk a.filename ++ a.texts strftime cs := by
      have := congrFun (Prod.mk.inj (Except.ok.inj hrun)).2 a.filename
      rwa [Function.update_self] at this
    exact (texts_eq_nil_iff strftime hf).1 (List.self_eq_append_right.1 hfile)
  · intro hsilent
    have hf : ∀ c ∈ cs, a.Due c → a.formatter ≠ none := by
      intro c hc hdue
      obtain ⟨f, hsome, -⟩ := hsilent c hc hdue
      rw [hsome]
      exact Option.some_ne_none f
    obtain ⟨a', hrun⟩ := hok hf
    refine ⟨a', ?_⟩
    rw [(texts_eq_nil_iff strftime hf).2 hsilent, List.append_nil, Function.update_eq_self, hrun]

end Log

/-- Over every sequence of calls of `log` with any times, levels and events, on an appender with any level and
formatter: the file grows by the text of the calls whose level is at least the appender's, in order, exactly where there
is no text to write. -/
theorem file_grows_iff (strftime : List UInt8 → UInt64 → List UInt8) (filename : List UInt8) (level : Level)
    (formatter : Option LogFormatter) (disk : Disk) (cs : List LogCall) :
    (new filename level formatter).Appends strftime disk cs ↔ (new filename level formatter).Silent strftime cs :=
  appends_iff strftime disk (new_closed filename level formatter)

/-- One message. -/
theorem message_lost : ¬ ∀ (strftime : List UInt8 → UInt64 → List UInt8) (filename : List UInt8) (level : Level)
    (f : LogFormatter) (disk : Disk) (cs : List LogCall),
    (new filename level (some f)).Appends strftime disk cs := by
  intro hall
  let c : LogCall := ⟨.INFO, ⟨[], [], 0, 0, 0, 0, 10, [], bytes "hello"⟩⟩
  have happends := hall (fun _ _ => []) (bytes "log.txt") .DEBUG (.new (bytes "%m")) (fun _ => []) [c]
  obtain ⟨f, hf, htext⟩ := (appends_iff _ _ (new_closed _ _ _)).1 happends c (List.mem_singleton_self c) (by decide)
  cases hf
  revert htext
  decide

end FileLogAppender

end ServerFrame.Log
