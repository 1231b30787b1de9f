/-
What of the log configuration `setValue` (`config.h`) and the listener of `LogIniter` (`log.cc`) take for a change. The
comparison of two definitions leaves out their appenders, so that sets and loggers that differ in these only are
passed over.
-/
import ServerFrame.Log.Apply
import ServerFrame.Config.Listeners

namespace ServerFrame.Log

open Config (ConfigVar)

/-- The definition without its appenders. -/
def LogDefine.bare (d : LogDefine) : LogDefine := { d with appenders := [] }

/-- `std::set<LogDefine>`. -/
structure LogSet where
  values : List LogDefine
  isSet : IsSet values

/-- `operator==` of `std::set`. -/
instance : BEq LogSet where
  beq v oth := v.values.length = oth.values.length && (v.values.zip oth.values).all fun x => x.1.eq x.2

/-- The set without its appenders. -/
def LogSet.bare (s : LogSet) : List LogDefine := s.values.map LogDefine.bare

/-! ## Setting a value -/

section SetValue

variable {T K : Type} [BEq T]

/-- The loop over `m_cbs`: the listeners that are called, and whether one of them throws. -/
def callListeners (throws : K → Bool) : List K → List K × Bool
  | [] => ([], false)
  | k :: cbs =>
    if throws k then ([k], true) else (k :: (callListeners throws cbs).1, (callListeners throws cbs).2)

/-- `ConfigVar::setValue(v)` from end to end: the listeners that are called, and the variable that is left. -/
def setValue (throws : K → Bool) (var : ConfigVar T K) (v : T) : List K × ConfigVar T K :=
  if v == var.val then ([], var)
  else
    let (called, threw) := callListeners throws var.cbs
    (called, if threw then var else { var with val := v })

/-- The update is skipped: no listener is called, and the variable is kept. -/
def Skips (throws : K → Bool) (var : ConfigVar T K) (v : T) : Prop := setValue throws var v = ([], var)

/-- Without a listener, the new value may be the old one. -/
theorem skips_iff {throws : K → Bool} {var : ConfigVar T K} {v : T} :
    Skips throws var v ↔ v == var.val ∨ var.cbs = [] ∧ v = var.val := by
  obtain ⟨val, cbs⟩ := var
  unfold Skips setValue
  by_cases heq : (v == val) = true
  · rw [if_pos heq]
    exact iff_of_true rfl (.inl heq)
  · rw [if_neg heq]
    cases cbs with
    | nil =>
      show ([], ConfigVar.mk v []) = ([], ConfigVar.mk val []) ↔ _
      simp [heq]
    | cons k cbs =>
      have hcalled : (callListeners throws (k :: cbs)).1 ≠ [] := by
        rw [callListeners]
        split <;> exact List.cons_ne_nil _ _
      refine iff_of_false (fun h => hcalled (Prod.mk.inj h).1) ?_
      rintro (h | ⟨h, -⟩)
      · exact heq h
      · cases h

end SetValue

/-! ## The comparisons -/

section Comparisons

variable {a b : LogDefine} {v oth : LogSet} {old_value : List LogDefine} {i : LogDefine}

theorem eq_iff : a.eq b = true ↔ a.bare = b.bare := by
  simp [LogDefine.eq, LogDefine.bare, and_assoc]

/-- The elementwise comparison, over lists of one length. -/
theorem zip_all_iff {l m : List LogDefine} :
    (l.length = m.length ∧ ((l.zip m).all fun x => x.1.eq x.2) = true) ↔
      l.map LogDefine.bare = m.map LogDefine.bare := by
  induction l generalizing m with
  | nil => cases m <;> simp
  | cons a l ih =>
    cases m with
    | nil => simp
    | cons b m =>
      rw [List.map_cons, List.map_cons, List.cons.injEq, ← ih, ← eq_iff, List.zip_cons_cons, List.all_cons,
        Bool.and_eq_true, List.length_cons, List.length_cons, Nat.add_right_cancel_iff]
      exact and_left_comm

theorem beq_iff : (v == oth) = true ↔ v.bare = oth.bare := by
  show (_ && _) = true ↔ _
  rw [Bool.and_eq_true, decide_eq_true_eq]
  exact zip_all_iff

/-- The first loop of the listener passes a definition over, whatever the loggers are. -/
def PassesOver (old_value : List LogDefine) (i : LogDefine) : Prop :=
  ∀ is m, applyNew old_value (i :: is) m = applyNew old_value is m

/-- It does so with those that it does not notice: the others leave their logger in the table, or end in a fault. -/
theorem passesOver_iff : PassesOver old_value i ↔ noticed old_value i = false := by
  constructor
  · intro h
    by_contra hnoticed
    have hrun := h [] ⟨fun _ => none, []⟩
    rw [applyNew_cons, if_pos (by simpa using hnoticed)] at hrun
    by_cases htype : ∀ a ∈ i.appenders, a.type = 1
    · obtain ⟨heap, l, -, -, -, -, -, heq⟩ := applyDefine_ok htype ⟨fun _ => none, []⟩
      rw [heq] at hrun
      have hlogger := congrFun (LoggerManager.mk.inj (Except.ok.inj hrun)).1 i.name
      rw [Function.update_self] at hlogger
      cases hlogger
    · push Not at htype
      rw [applyDefine_error htype] at hrun
      cases hrun
  · intro h is m
    rw [applyNew_cons, h]
    rfl

/-- The loggers passed over are those of a definition that is the same but for its appenders. -/
theorem passesOver_iff_bare (ho : IsSet old_value) : PassesOver old_value i ↔ ∃ o ∈ old_value, i.bare = o.bare := by
  rw [passesOver_iff, ← Bool.not_eq_true, noticed_iff ho]
  push Not
  constructor
  · rintro ⟨o, hmem, hname, hlevel, hformatter⟩
    refine ⟨o, hmem, ?_⟩
    rw [LogDefine.bare, LogDefine.bare, hname, hlevel, hformatter]
  · rintro ⟨o, hmem, hbare⟩
    simp only [LogDefine.bare, LogDefine.mk.injEq] at hbare
    exact ⟨o, hmem, hbare.1.symm, hbare.2.1.symm, hbare.2.2.1.symm⟩

end Comparisons

/-! ## Every change -/

/-- The comparison of definitions is equality; an update is skipped for an equal set only; and the listener passes over
an equal definition only. -/
structure Noticed {K : Type} (a b : LogDefine) (throws : K → Bool) (var : ConfigVar LogSet K) (v : LogSet) : Prop where
  eq : a.eq b = true ↔ a = b
  setValue : Skips throws var v → v = var.val
  listener : ∀ i ∈ v.values, PassesOver var.val.values i → i ∈ var.val.values

/-- Sets that are the same but for the appenders are the same, if their definitions are. -/
theorem eq_of_bare {l m : List LogDefine} (h : l.map LogDefine.bare = m.map LogDefine.bare)
    (heach : ∀ i ∈ l, ∀ o ∈ m, i.bare = o.bare → i = o) : l = m := by
  apply List.ext_getElem
  · simpa using congrArg List.length h
  · intro j hj hj'
    have hbare : l[j].bare = m[j].bare := by
      have := List.getElem_of_eq h (by simpa using hj)
      simpa using this
    exact heach _ (List.getElem_mem hj) _ (List.getElem_mem hj') hbare

/-- For all definitions and sets, every change is noticed exactly if there is none in the appenders only. -/
theorem noticed_changes_iff {K : Type} (a b : LogDefine) (throws : K → Bool) (var : ConfigVar LogSet K) (v : LogSet) :
    Noticed a b throws var v ↔
      (a.bare = b.bare → a = b) ∧ ∀ i ∈ v.values, ∀ o ∈ var.val.values, i.bare = o.bare → i = o := by
  constructor
  · rintro ⟨heq, -, hlistener⟩
    refine ⟨fun hbare => heq.1 (eq_iff.2 hbare), ?_⟩
    intro i hi o ho hbare
    have hmem := hlistener i hi ((passesOver_iff_bare var.val.isSet).2 ⟨o, ho, hbare⟩)
    have hname : i.bare.name = o.bare.name := by rw [hbare]
    exact var.val.isSet.eq_of_name hmem ho hname
  · rintro ⟨heq, heach⟩
    constructor
    · rw [eq_iff]
      exact ⟨heq, congrArg LogDefine.bare⟩
    · intro hskips
      rcases skips_iff.1 hskips with hbeq | ⟨-, rfl⟩
      · have hvalues := eq_of_bare (beq_iff.1 hbeq) heach
        obtain ⟨values, hset⟩ := v
        cases hvalues
        rfl
      · rfl
    · intro i hi hpasses
      obtain ⟨o, ho, hbare⟩ := (passesOver_iff_bare var.val.isSet).1 hpasses
      rw [heach i hi o ho hbare]
      exact ho

/-- A file more for the root logger is no change. -/
theorem file_not_noticed : ¬ ∀ (a b : LogDefine) (throws : Nat → Bool) (var : ConfigVar LogSet Nat) (v : LogSet),
    Noticed a b throws var v := by
  intro h
  have hequal := (h rootFile rootBare (fun _ => false) ⟨⟨[], List.Pairwise.nil⟩, []⟩ ⟨[], List.Pairwise.nil⟩).eq.1 rfl
  revert hequal
  decide

end ServerFrame.Log
