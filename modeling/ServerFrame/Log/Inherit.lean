/-
Whose formatter an appender uses (`log.cc`), over all orders of calls on loggers and appenders, which loggers may
share. A logger hands its formatter to the appenders without one of their own when it changes, and to those with none
at all when they are attached; the main result says exactly in which runs every attached appender has one, and the
logger's where it has none of its own.
-/
import ServerFrame.Log.Apply
import ServerFrame.Lib.Run

namespace ServerFrame.Log

/-- The loggers and the appenders of the process. -/
structure Loggers (Λ : Type) where
  loggers : Λ → Logger
  appenders : Nat → LogAppender

/-- The calls that change a formatter or attach an appender. -/
inductive FormatterOp (Λ : Type)
  | setPattern (l : Λ) (val : List UInt8)
  | setFormatter (l : Λ) (val : Option LogFormatter)
  | addAppender (l : Λ) (a : Nat)
  | delAppender (l : Λ) (a : Nat)
  | clearAppenders (l : Λ)
  | appenderSetFormatter (a : Nat) (val : Option LogFormatter)

namespace Loggers

variable {Λ : Type} [DecidableEq Λ]

/-- Loggers and appenders as they are constructed. -/
def init (kind : Nat → Kind) : Loggers Λ :=
  { loggers := fun _ => .new, appenders := fun a => { kind := kind a } }

section Calls

variable (s : Loggers Λ) (l : Λ) (a : Nat)

/-- `Logger::setFormatter(LogFormatter::ptr)`. -/
def setFormatter (val : Option LogFormatter) : Loggers Λ :=
  { loggers := Function.update s.loggers l { s.loggers l with formatter := val }
    appenders := fun i =>
      if i ∈ (s.loggers l).appenders ∧ (s.appenders i).hasFormatter = false then { s.appenders i with formatter := val }
      else s.appenders i }

/-- `Logger::setFormatter(const std::string&)`. -/
def setPattern (val : List UInt8) : Loggers Λ :=
  let new_val := LogFormatter.new val
  if new_val.isError then s else s.setFormatter l (some new_val)

/-- `Logger::addAppender(appender)`. -/
def addAppender : Loggers Λ :=
  { loggers := Function.update s.loggers l { s.loggers l with appenders := (s.loggers l).appenders ++ [a] }
    appenders :=
      if (s.appenders a).formatter = none then
        Function.update s.appenders a { s.appenders a with formatter := (s.loggers l).formatter }
      else s.appenders }

/-- `Logger::delAppender(appender)`. -/
def delAppender : Loggers Λ :=
  { s with loggers := Function.update s.loggers l { s.loggers l with appenders := (s.loggers l).appenders.erase a } }

/-- `Logger::clearAppenders()`. -/
def clearAppenders : Loggers Λ :=
  { s with loggers := Function.update s.loggers l { s.loggers l with appenders := [] } }

/-- `LogAppender::setFormatter(val)`. -/
def appenderSetFormatter (val : Option LogFormatter) : Loggers Λ :=
  { s with appenders := Function.update s.appenders a ((s.appenders a).setFormatter val) }

/-- The appender is attached to the logger. -/
def Attached : Prop := a ∈ (s.loggers l).appenders

/-- The appender is attached to the logger and has no formatter of its own. -/
def Inherits : Prop := s.Attached l a ∧ (s.appenders a).hasFormatter = false

end Calls

def next (s : Loggers Λ) : FormatterOp Λ → Loggers Λ
  | .setPattern l val => s.setPattern l val
  | .setFormatter l val => s.setFormatter l val
  | .addAppender l a => s.addAppender l a
  | .delAppender l a => s.delAppender l a
  | .clearAppenders l => s.clearAppenders l
  | .appenderSetFormatter a val => s.appenderSetFormatter a val

def Step (s : Loggers Λ) (op : FormatterOp Λ) (s' : Loggers Λ) : Prop := s' = s.next op

/-- Every attached appender has a formatter, and the logger's if it has none of its own. -/
structure Good (s : Loggers Λ) : Prop where
  nonNull : ∀ l a, s.Attached l a → (s.appenders a).formatter ≠ none
  inherited : ∀ l a, s.Inherits l a → (s.appenders a).formatter = (s.loggers l).formatter

/-- A logger may get this formatter: where an appender inherits it, it is none, and that of every other logger it is
attached to. -/
def MayGet (s : Loggers Λ) (l : Λ) (val : Option LogFormatter) : Prop :=
  ∀ a, s.Inherits l a → val ≠ none ∧ ∀ l', l' ≠ l → s.Attached l' a → (s.loggers l').formatter = val

/-- A new formatter is fit for all that inherit it; an appender is attached with a formatter of its own, with that of
the logger, or, to a logger that has one, without; and it loses its own only when it is not attached. -/
def Harmless (s : Loggers Λ) : FormatterOp Λ → Prop
  | .setPattern l val => (LogFormatter.new val).isError = false → s.MayGet l (some (.new val))
  | .setFormatter l val => s.MayGet l val
  | .addAppender l a =>
    ((s.appenders a).formatter = none → (s.loggers l).formatter ≠ none) ∧
      ((s.appenders a).formatter ≠ none → (s.appenders a).hasFormatter = false →
        (s.appenders a).formatter = (s.loggers l).formatter)
  | .delAppender _ _ | .clearAppenders _ => True
  | .appenderSetFormatter a val => val = none → ∀ l, ¬ s.Attached l a

/-! ## One call -/

theorem good_init {Λ : Type} (kind : Nat → Kind) : (init kind : Loggers Λ).Good := by
  constructor
  · intro l a h
    cases h
  · rintro l a ⟨h, -⟩
    cases h

section Step

variable {s : Loggers Λ} {l l' : Λ} {a b : Nat} {val : Option LogFormatter}

theorem setFormatter_formatter : ((s.setFormatter l val).loggers l').formatter =
    if l' = l then val else (s.loggers l').formatter := by
  by_cases h : l' = l
  · subst h
    simp [setFormatter]
  · simp [setFormatter, h]

theorem setFormatter_attached : (s.setFormatter l val).Attached l' a ↔ s.Attached l' a := by
  by_cases h : l' = l
  · subst h
    simp [Attached, setFormatter]
  · simp [Attached, setFormatter, Function.update_of_ne h]

theorem setFormatter_of_inherits (h : s.Inherits l a) : ((s.setFormatter l val).appenders a).formatter = val := by
  have happenders : (s.setFormatter l val).appenders a = { s.appenders a with formatter := val } := if_pos h
  rw [happenders]

theorem setFormatter_of_not_inherits (h : ¬ s.Inherits l a) : (s.setFormatter l val).appenders a = s.appenders a :=
  if_neg h

theorem setFormatter_inherits : (s.setFormatter l val).Inherits l' a ↔ s.Inherits l' a := by
  have hhas : ((s.setFormatter l val).appenders a).hasFormatter = (s.appenders a).hasFormatter := by
    show (if _ then _ else _ : LogAppender).hasFormatter = _
    split <;> rfl
  rw [Inherits, setFormatter_attached, hhas]
  rfl

/-- A formatter for a logger and for all that inherit it. -/
theorem setFormatter_good (h : s.Good) : (s.setFormatter l val).Good ↔ s.MayGet l val := by
  constructor
  · rintro ⟨hnull, hinherited⟩ a ha
    have hformatter : ((s.setFormatter l val).appenders a).formatter = val := setFormatter_of_inherits ha
    constructor
    · have := hnull l a (setFormatter_attached.2 ha.1)
      rwa [hformatter] at this
    · intro l' hne hattached
      have := hinherited l' a (setFormatter_inherits.2 ⟨hattached, ha.2⟩)
      rw [hformatter, setFormatter_formatter, if_neg hne] at this
      exact this.symm
  · intro hmay
    constructor
    · intro l' a hattached
      rw [setFormatter_attached] at hattached
      by_cases ha : s.Inherits l a
      · rw [setFormatter_of_inherits ha]
        exact (hmay a ha).1
      · rw [setFormatter_of_not_inherits ha]
        exact h.nonNull l' a hattached
    · intro l' a hinherits
      rw [setFormatter_inherits] at hinherits
      rw [setFormatter_formatter]
      by_cases ha : s.Inherits l a
      · rw [setFormatter_of_inherits ha]
        split
        · rfl
        · rename_i hne
          exact ((hmay a ha).2 l' hne hinherits.1).symm
      · have hne : l' ≠ l := by
          rintro rfl
          exact ha hinherits
        rw [setFormatter_of_not_inherits ha, if_neg hne]
        exact h.inherited l' a hinherits

theorem addAppender_formatter : ((s.addAppender l a).loggers l').formatter = (s.loggers l').formatter := by
  by_cases h : l' = l
  · subst h
    simp [addAppender]
  · simp [addAppender, Function.update_of_ne h]

theorem addAppender_attached : (s.addAppender l a).Attached l' b ↔ s.Attached l' b ∨ l' = l ∧ b = a := by
  by_cases h : l' = l
  · subst h
    simp [Attached, addAppender]
  · simp [Attached, addAppender, h]

theorem addAppender_appenders : (s.addAppender l a).appenders b =
    if b = a ∧ (s.appenders a).formatter = none then { s.appenders a with formatter := (s.loggers l).formatter }
    else s.appenders b := by
  unfold addAppender
  by_cases hnone : (s.appenders a).formatter = none
  · by_cases hb : b = a
    · subst hb
      simp [hnone]
    · simp [hnone, hb]
  · simp [hnone]

theorem addAppender_hasFormatter : ((s.addAppender l a).appenders b).hasFormatter = (s.appenders b).hasFormatter := by
  rw [addAppender_appenders]
  split
  · rename_i h
    rw [h.1]
  · rfl

/-- An attached appender gets the formatter of the logger only if it has none at all. -/
theorem addAppender_good (h : s.Good) : (s.addAppender l a).Good ↔ s.Harmless (.addAppender l a) := by
  have hattached : (s.addAppender l a).Attached l a := addAppender_attached.2 (.inr ⟨rfl, rfl⟩)
  constructor
  · rintro ⟨hnull, hinherited⟩
    constructor
    · intro hnone
      have := hnull l a hattached
      rwa [addAppender_appenders, if_pos ⟨rfl, hnone⟩] at this
    · intro hsome hhas
      have := hinherited l a ⟨hattached, addAppender_hasFormatter.trans hhas⟩
      rwa [addAppender_formatter, addAppender_appenders, if_neg fun h => hsome h.2] at this
  · rintro ⟨hnone, hsome⟩
    constructor
    · intro l' b hb
      rw [addAppender_appenders]
      split
      · rename_i hget
        exact hnone hget.2
      · rename_i hkeep
        rcases addAppender_attached.1 hb with hb | ⟨-, rfl⟩
        · exact h.nonNull l' b hb
        · exact fun hb => hkeep ⟨rfl, hb⟩
    · rintro l' b ⟨hb, hhas⟩
      rw [addAppender_hasFormatter] at hhas
      rw [addAppender_formatter, addAppender_appenders]
      split
      · rename_i hget
        obtain ⟨rfl, hget⟩ := hget
        -- Without a formatter, it was not attached before.
        rcases addAppender_attached.1 hb with hb | ⟨rfl, -⟩
        · exact absurd hget (h.nonNull l' b hb)
        · rfl
      · rename_i hkeep
        rcases addAppender_attached.1 hb with hb | ⟨rfl, rfl⟩
        · exact h.inherited l' b ⟨hb, hhas⟩
        · exact hsome (fun hb => hkeep ⟨rfl, hb⟩) hhas

omit [DecidableEq Λ] in
/-- Fewer appenders do no harm. -/
theorem Good.of_attached {s' : Loggers Λ} (h : s.Good) (happenders : s'.appenders = s.appenders)
    (hformatter : ∀ l, (s'.loggers l).formatter = (s.loggers l).formatter)
    (hattached : ∀ l a, s'.Attached l a → s.Attached l a) : s'.Good := by
  constructor
  · intro l a ha
    rw [happenders]
    exact h.nonNull l a (hattached l a ha)
  · rintro l a ⟨ha, hhas⟩
    rw [happenders] at hhas ⊢
    rw [hformatter]
    exact h.inherited l a ⟨hattached l a ha, hhas⟩

theorem delAppender_good (h : s.Good) : (s.delAppender l a).Good := by
  refine h.of_attached rfl ?_ ?_
  · intro l'
    by_cases hl : l' = l
    · subst hl
      simp [delAppender]
    · simp [delAppender, hl]
  · intro l' b hb
    by_cases hl : l' = l
    · subst hl
      exact List.mem_of_mem_erase (by simpa [Attached, delAppender] using hb)
    · simpa [Attached, delAppender, hl] using hb

theorem clearAppenders_good (h : s.Good) : (s.clearAppenders l).Good := by
  refine h.of_attached rfl ?_ ?_
  · intro l'
    by_cases hl : l' = l
    · subst hl
      simp [clearAppenders]
    · simp [clearAppenders, hl]
  · intro l' b hb
    by_cases hl : l' = l
    · subst hl
      simp [Attached, clearAppenders] at hb
    · simpa [Attached, clearAppenders, hl] using hb

omit [DecidableEq Λ] in
theorem appenderSetFormatter_good (h : s.Good) :
    (s.appenderSetFormatter a val).Good ↔ s.Harmless (.appenderSetFormatter a val) := by
  have hself : (s.appenderSetFormatter a val).appenders a = (s.appenders a).setFormatter val := Function.update_self ..
  have hother : ∀ b, b ≠ a → (s.appenderSetFormatter a val).appenders b = s.appenders b :=
    fun b hb => Function.update_of_ne hb ..
  constructor
  · rintro hgood rfl l hl
    exact hgood.nonNull l a hl (by rw [hself]; rfl)
  · intro hfree
    constructor
    · intro l b hb
      by_cases hba : b = a
      · subst hba
        rw [hself]
        exact fun hval => hfree hval l hb
      · rw [hother b hba]
        exact h.nonNull l b hb
    · rintro l b ⟨hb, hhas⟩
      by_cases hba : b = a
      · subst hba
        rw [hself] at hhas
        exact absurd hb (hfree (Option.isSome_eq_false_iff.1 hhas |> Option.isNone_iff_eq_none.1) l)
      · rw [hother b hba] at hhas ⊢
        exact h.inherited l b ⟨hb, hhas⟩

/-- A call keeps every attached appender right exactly if it is harmless. -/
theorem next_good (h : s.Good) (op : FormatterOp Λ) : (s.next op).Good ↔ s.Harmless op := by
  cases op with
  | setPattern l val =>
    show (s.setPattern l val).Good ↔ (_ → _)
    rw [setPattern]
    cases herror : (LogFormatter.new val).isError with
    | true => exact iff_of_true h fun hfalse => Bool.noConfusion hfalse
    | false =>
      refine (setFormatter_good h).trans ⟨fun hmay _ => hmay, fun hmay => hmay rfl⟩
  | setFormatter l val => exact setFormatter_good h
  | addAppender l a => exact addAppender_good h
  | delAppender l a => exact iff_of_true (delAppender_good h) trivial
  | clearAppenders l => exact iff_of_true (clearAppenders_good h) trivial
  | appenderSetFormatter a val => exact appenderSetFormatter_good h

end Step

/-! ## All calls -/

/-- Over every run of calls, every attached appender has a formatter, and the logger's if it has none of its own,
exactly if all calls are harmless. -/
theorem formatter_inherited_iff {Λ : Type} [DecidableEq Λ] (kind : Nat → Kind) (ops : List (FormatterOp Λ)) :
    (∀ done todo s, ops = done ++ todo → Lts.Run Step (init kind) done s → s.Good) ↔
      ∀ done op todo s, ops = done ++ op :: todo → Lts.Run Step (init kind) done s → s.Harmless op := by
  have hrun : ∃ t, Lts.Run Step (init kind) ops t := by
    induction ops using List.reverseRecOn with
    | nil => exact ⟨_, .nil⟩
    | append_singleton ops op ih =>
      obtain ⟨t, ht⟩ := ih
      exact ⟨_, ht.snoc rfl⟩
  obtain ⟨t, ht⟩ := hrun
  refine Lts.Run.invariant_iff ?_ (good_init kind) ?_ ht
  · rintro s op s₁ s₂ rfl rfl
    rfl
  · rintro s op s' hgood rfl
    exact next_good hgood op

/-- An attached appender that loses its formatter has none. -/
theorem formatter_not_inherited : ¬ ∀ (kind : Nat → Kind) (ops : List (FormatterOp Bool)) (s : Loggers Bool),
    Lts.Run Step (init kind) ops s → s.Good := by
  intro h
  let s : Loggers Bool := (init fun _ => .stdout).addAppender true 0
  have hattach : Step (init fun _ => .stdout) (.addAppender true 0) s := rfl
  have hclear : Step s (.appenderSetFormatter 0 none) (s.appenderSetFormatter 0 none) := rfl
  have hgood := h (fun _ => .stdout) _ _ ((Lts.Run.single hattach).snoc hclear)
  exact hgood.nonNull true 0 (List.mem_singleton_self 0) rfl

end Loggers

end ServerFrame.Log
