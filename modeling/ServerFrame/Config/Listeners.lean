/-
Concurrent `ConfigVar::setValue` and `fromString` (`config.h`): the read-locked section that compares and
notifies, and the write-locked one that assigns, each as one step. Any listener may throw at any
call. Listeners and value agree at rest when nobody throws and the call that notified last assigns last.
-/
import ServerFrame.Lib.Run
import Mathlib.Logic.Function.Basic

namespace ServerFrame.Config

/-- `ConfigVar<T>`: `m_val` and the keys of `m_cbs`, in the order of the map. -/
structure ConfigVar (T K : Type) where
  val : T
  cbs : List K

/-- A call that sets the value. -/
inductive Call (T : Type)
  | setValue (v : T)
  | fromString (val : String)

/-- The value that reaches `setValue`. An exception of `FromStr` ends the call before it. -/
def Call.value {T : Type} (FromStr : String → Option T) : Call T → Option T
  | .setValue v => some v
  | .fromString val => FromStr val

section Model

variable {Θ T K : Type} [DecidableEq Θ] [DecidableEq K] [BEq T]

/-- The loop over `m_cbs`: the listeners are called one after the other until one throws. -/
def notify (v : T) (throws : K → Bool) : List K → (K → Option T) → (K → Option T) × Bool
  | [], notified => (notified, false)
  | k :: cbs, notified =>
    if throws k then (Function.update notified k (some v), true)
    else notify v throws cbs (Function.update notified k (some v))

/-- A variable with its callers and listeners: the value that a thread holds between its two sections, the new
value that a listener was called with last, and the thread that notified last. -/
structure Calls (Θ T K : Type) where
  var : ConfigVar T K
  pending : Θ → Option T
  notified : K → Option T
  last : Option Θ

/-- A thread enters a call and runs its read-locked section, or runs the write-locked one. -/
inductive Act (Θ T K : Type)
  | compare (t : Θ) (call : Call T) (throws : K → Bool)
  | assign (t : Θ)

def Calls.init (cbs : List K) (initial : T) : Calls Θ T K :=
  { var := { val := initial, cbs }, pending := fun _ => none, notified := fun _ => none, last := none }

/-- `setValue`, cut at its locks. -/
def Calls.next (FromStr : String → Option T) (s : Calls Θ T K) : Act Θ T K → Option (Calls Θ T K)
  | .compare t call throws =>
    match s.pending t with
    | some _ => none
    | none =>
      match call.value FromStr with
      | none => some s
      | some v =>
        if v == s.var.val then some s
        else
          let (notified, threw) := notify v throws s.var.cbs s.notified
          some { s with notified, last := some t
                        pending := if threw then s.pending else Function.update s.pending t (some v) }
  | .assign t =>
    match s.pending t with
    | none => none
    | some v => some { s with var := { s.var with val := v }, pending := Function.update s.pending t none }

def Calls.Step (FromStr : String → Option T) (s : Calls Θ T K) (a : Act Θ T K) (s' : Calls Θ T K) : Prop :=
  s.next FromStr a = some s'

/-- All calls have finished. -/
def Calls.Quiescent (s : Calls Θ T K) : Prop := ∀ t, s.pending t = none

/-- The listener was called last with the value of the variable, or was never called and the value never set. -/
def Calls.Agrees (s : Calls Θ T K) (initial : T) (as : List (Act Θ T K)) (k : K) : Prop :=
  match s.notified k with
  | some v => s.var.val = v
  | none => s.var.val = initial ∧ ∀ t, Act.assign t ∉ as

/-- No listener throws, and when the call that notified last assigns, no other call is about to assign another value. -/
def Calls.InOrder (s : Calls Θ T K) : Act Θ T K → Prop
  | .compare _ _ throws => ∀ k ∈ s.var.cbs, throws k = false
  | .assign t => s.last = some t → ∀ u v, s.pending u = some v → s.pending t = some v

end Model

/-! ## Runs -/

section Runs

variable {Θ T K : Type} [DecidableEq Θ] [DecidableEq K] [BEq T] {FromStr : String → Option T} {s s' : Calls Θ T K}

omit [BEq T] in
/-- When no listener throws, all of them are called. -/
theorem notify_of_quiet {v : T} {throws : K → Bool} {cbs : List K} (h : ∀ k ∈ cbs, throws k = false)
    (notified : K → Option T) :
    (notify v throws cbs notified).2 = false ∧
      ∀ k, (notify v throws cbs notified).1 k = if k ∈ cbs then some v else notified k := by
  induction cbs generalizing notified with
  | nil => exact ⟨rfl, fun k => rfl⟩
  | cons c cbs ih =>
    rw [List.forall_mem_cons] at h
    obtain ⟨hthrew, hcalled⟩ := ih h.2 (Function.update notified c (some v))
    have hstep : notify v throws (c :: cbs) notified = notify v throws cbs (Function.update notified c (some v)) := by
      rw [notify, h.1]
      rfl
    rw [hstep]
    refine ⟨hthrew, fun k => ?_⟩
    rw [hcalled k]
    by_cases hk : k = c
    · subst hk
      simp
    · simp [hk]

/-- What a step does that is in order. -/
theorem step_cases {a : Act Θ T K} (hs : s.Step FromStr a s') (ha : s.InOrder a) :
    ((∀ t, a ≠ .assign t) ∧ s' = s) ∨
    (∃ t v, (∀ t, a ≠ .assign t) ∧ s.pending t = none ∧ s'.var = s.var ∧
      s'.pending = Function.update s.pending t (some v) ∧
      s'.last = some t ∧ ∀ k ∈ s.var.cbs, s'.notified k = some v) ∨
    (∃ t v, a = .assign t ∧ s.pending t = some v ∧ s'.var = { s.var with val := v } ∧
      s'.pending = Function.update s.pending t none ∧ s'.notified = s.notified ∧ s'.last = s.last) := by
  unfold Calls.Step at hs
  cases a with
  | compare t call throws =>
    simp only [Calls.next] at hs
    split at hs
    · cases hs
    · rename_i hidle
      split at hs
      · cases hs
        exact .inl ⟨by simp, rfl⟩
      · rename_i v _
        obtain ⟨hthrew, hcalled⟩ := notify_of_quiet (v := v) ha s.notified
        split at hs <;> cases hs
        · exact .inl ⟨by simp, rfl⟩
        · refine .inr (.inl ⟨t, v, by simp, hidle, rfl, ?_, rfl, fun k hk => ?_⟩)
          · simp [hthrew]
          · exact (hcalled k).trans (if_pos hk)
  | assign t =>
    simp only [Calls.next] at hs
    split at hs
    · cases hs
    · rename_i v hpending
      cases hs
      exact .inr (.inr ⟨t, v, rfl, hpending, rfl, rfl, rfl, rfl⟩)

/-- What holds between the steps: before the first notification nothing is set; after one, all listeners hold the
value of the call that notified last, which is about to be assigned, or is the value and will stay it. -/
structure Calls.Ordered (cbs : List K) (initial : T) (as : List (Act Θ T K)) (s : Calls Θ T K) : Prop where
  same : s.var.cbs = cbs
  fresh : s.last = none → s.var.val = initial ∧ s.Quiescent ∧ (∀ k, s.notified k = none) ∧ ∀ t, Act.assign t ∉ as
  told : ∀ t, s.last = some t → ∃ v, (∀ k ∈ cbs, s.notified k = some v) ∧
    (s.pending t = some v ∨ s.pending t = none ∧ s.var.val = v ∧ ∀ u w, s.pending u = some w → w = v)

omit [DecidableEq K] [BEq T] in
/-- A thread that still holds a value after another one's assignment held it before. -/
theorem holds_of_update {f : Θ → Option T} {t u : Θ} {v : T} (h : Function.update f t none u = some v) :
    u ≠ t ∧ f u = some v := by
  by_cases hut : u = t
  · subst hut
    rw [Function.update_self] at h
    cases h
  · rw [Function.update_of_ne hut] at h
    exact ⟨hut, h⟩

theorem ordered_step {cbs : List K} {initial : T} {as : List (Act Θ T K)} {a : Act Θ T K} (h : s.Ordered cbs initial as)
    (hs : s.Step FromStr a s') (ha : s.InOrder a) : s'.Ordered cbs initial (as ++ [a]) := by
  obtain ⟨hnot, rfl⟩ | ⟨t, v, hnot, hidle, hvar, hpending, hlast, htold⟩ |
    ⟨t, v, rfl, hholds, hvar, hpending, hnotified, hlast⟩ := step_cases hs ha
  · refine ⟨h.same, fun hl => ?_, h.told⟩
    obtain ⟨hval, hq, hn, hno⟩ := h.fresh hl
    refine ⟨hval, hq, hn, fun t ht => ?_⟩
    rcases List.mem_append.1 ht with ht | ht
    · exact hno t ht
    · exact hnot t (List.mem_singleton.1 ht).symm
  · refine ⟨by rw [hvar, h.same], fun hl => ?_, fun u hu => ?_⟩
    · rw [hlast] at hl
      cases hl
    · obtain rfl : t = u := Option.some.inj (hlast.symm.trans hu)
      refine ⟨v, fun k hk => htold k (h.same ▸ hk), .inl ?_⟩
      rw [hpending, Function.update_self]
  · refine ⟨by rw [hvar, ← h.same], fun hl => ?_, fun u hu => ?_⟩
    · rw [hlast] at hl
      rw [(h.fresh hl).2.1 t] at hholds
      cases hholds
    · rw [hlast] at hu
      obtain ⟨w, htold, hw⟩ := h.told u hu
      rw [hvar, hpending, hnotified]
      refine ⟨w, htold, ?_⟩
      by_cases hut : u = t
      · -- the call that notified last assigns, and what the others hold is the same
        subst hut
        rcases hw with hw | ⟨hw, -⟩
        · obtain rfl : v = w := Option.some.inj (hholds.symm.trans hw)
          refine .inr ⟨Function.update_self .., rfl, fun x y hx => ?_⟩
          exact Option.some.inj ((ha hu x y (holds_of_update hx).2).symm.trans hholds)
        · rw [hw] at hholds
          cases hholds
      · rw [Function.update_of_ne hut]
        rcases hw with hw | ⟨hw, -, hall⟩
        · exact .inl hw
        · obtain rfl : v = w := hall t v hholds
          exact .inr ⟨hw, rfl, fun x y hx => hall x y (holds_of_update hx).2⟩

/-- Listeners and configuration values agree. In every interleaving of calls in which no listener throws and the
call that notified last assigns after the others, or the same as they: when all calls have finished,
each listener was called last with the value of the variable, or never, and then the value is
still the one it was created with. So a copy that a listener keeps is the value. -/
theorem listeners_agree (cbs : List K) (initial : T) {as : List (Act Θ T K)}
    (hr : Lts.Run (fun s a s' => s.Step FromStr a s' ∧ s.InOrder a) (Calls.init cbs initial) as s) (hq : s.Quiescent) :
    ∀ k ∈ cbs, s.Agrees initial as k ∧ (s.notified k).getD initial = s.var.val := by
  have h : s.Ordered cbs initial as := by
    apply hr.history (P := Calls.Ordered cbs initial)
    · exact ⟨rfl, fun _ => ⟨rfl, fun _ => rfl, fun _ => rfl, fun _ h => by cases h⟩, fun t ht => by cases ht⟩
    · intro l t a u _ ht hu
      exact ordered_step ht hu.1 hu.2
  intro k hk
  cases hl : s.last with
  | none =>
    obtain ⟨hval, -, hnone, hno⟩ := h.fresh hl
    rw [Calls.Agrees, hnone k]
    exact ⟨⟨hval, hno⟩, hval.symm⟩
  | some t =>
    obtain ⟨v, htold, hv⟩ := h.told t hl
    rw [Calls.Agrees, htold k hk]
    rcases hv with hv | ⟨-, hv, -⟩
    · rw [hq t] at hv
      cases hv
    · exact ⟨hv, hv.symm⟩

/-- Two callers notify in one order and assign in the other. -/
def crossed : List (Act Bool Nat Unit) :=
  [.compare false (.setValue 1) fun _ => false, .compare true (.setValue 2) fun _ => false, .assign true, .assign false]

/-- The only caller's value reaches the first listener, and the second one throws. -/
def cutShort : List (Act Unit Nat Bool) := [.compare () (.setValue 1) fun k => k]

theorem listeners_disagree :
    (¬ ∀ (as : List (Act Bool Nat Unit)) (s : Calls Bool Nat Unit),
      Lts.Run (Calls.Step String.toNat?) (Calls.init [()] 0) as s → s.Quiescent → ∀ k ∈ [()], s.Agrees 0 as k) ∧
    ¬ ∀ (as : List (Act Unit Nat Bool)) (s : Calls Unit Nat Bool),
      Lts.Run (Calls.Step String.toNat?) (Calls.init [false, true] 0) as s → s.Quiescent →
        ∀ k ∈ [false, true], s.Agrees 0 as k := by
  constructor
  · intro h
    have hr : Lts.Run (Calls.Step String.toNat?) (Calls.init [()] 0) crossed _ :=
      .cons rfl (.cons rfl (.cons rfl (.single rfl)))
    have hagrees : (1 : Nat) = 2 := h _ _ hr (by rintro (_ | _) <;> rfl) () (by simp)
    cases hagrees
  · intro h
    have hr : Lts.Run (Calls.Step String.toNat?) (Calls.init [false, true] 0) cutShort _ := .single rfl
    have hagrees : (0 : Nat) = 1 := h _ _ hr (fun _ => rfl) false (by simp)
    cases hagrees

/-- Two callers notify one after the other, and assign in the same order. -/
theorem listeners_agree_two : ∃ s : Calls Bool Nat Unit, s.var.val = 2 ∧
    ∀ k ∈ [()], s.Agrees 0 [.compare false (.setValue 1) fun _ => false, .compare true (.setValue 2) fun _ => false,
      .assign false, .assign true] k ∧ (s.notified k).getD 0 = s.var.val := by
  have hr : ∃ s1 s2 s3 s : Calls Bool Nat Unit,
      (Calls.init [()] 0).Step String.toNat? (.compare false (.setValue 1) fun _ => false) s1 ∧
      s1.Step String.toNat? (.compare true (.setValue 2) fun _ => false) s2 ∧ s2.last = some true ∧
      s2.Step String.toNat? (.assign false) s3 ∧ (∀ t, s3.pending t = none ∨ t = true) ∧
      s3.Step String.toNat? (.assign true) s ∧ s.var.val = 2 ∧ s.Quiescent :=
    ⟨_, _, _, _, rfl, rfl, rfl, rfl, by rintro (_ | _); exacts [.inl rfl, .inr rfl], rfl, rfl,
      by rintro (_ | _) <;> rfl⟩
  obtain ⟨s1, s2, s3, s, h1, h2, hlast, h3, hothers, h4, hval, hq⟩ := hr
  have hinOrder : s2.InOrder (.assign false) := fun h => by rw [hlast] at h; cases h
  have hinOrder' : s3.InOrder (.assign true) := fun _ u v hu => by
    rcases hothers u with h | rfl
    · rw [h] at hu
      cases hu
    · exact hu
  have hrun : Lts.Run (fun (s : Calls Bool Nat Unit) a s' => s.Step String.toNat? a s' ∧ s.InOrder a)
      (Calls.init [()] 0) [.compare false (.setValue 1) fun _ => false, .compare true (.setValue 2) fun _ => false,
        .assign false, .assign true] s :=
    .cons ⟨h1, fun _ _ => rfl⟩ (.cons ⟨h2, fun _ _ => rfl⟩ (.cons ⟨h3, hinOrder⟩ (.single ⟨h4, hinOrder'⟩)))
  exact ⟨s, hval, listeners_agree [()] 0 hrun hq⟩

end Runs

end ServerFrame.Config
