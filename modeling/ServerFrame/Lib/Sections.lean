/-
Critical sections. Threads that touch shared data only while they hold a lock, one at a time for writing or several for
reading, can be thought of as executing each of their sections at once, when they leave it.
-/
import Mathlib.Logic.Function.Basic
import Mathlib.Logic.Relation

universe u v w

namespace Sections

/-- How a lock is held. -/
inductive Mode
  | shared
  | exclusive
deriving DecidableEq, Repr

/-- What a thread does, by its own state: a step that concerns nobody else, the entry of a section, a look at the
shared data or a change of it in there, and the exit. -/
structure Program (L : Type v) (S : Type w) where
  go : L → L → Prop
  enter : L → Mode → L → Prop
  read : L → S → L → Prop
  write : L → S → L → S → Prop
  exit : L → L → Prop

/-- The states of the threads, how each holds the lock, and the data. -/
structure Fine (T : Type u) (L : Type v) (S : Type w) where
  locals : T → L
  holds : T → Option Mode
  data : S

/-- The states of the threads and the data. -/
structure Coarse (T : Type u) (L : Type v) (S : Type w) where
  locals : T → L
  data : S

variable {T : Type u} {L : Type v} {S : Type w}

/-- The lock can be taken. -/
def Fine.Free (c : Fine T L S) : Mode → Prop
  | .shared => ∀ u, c.holds u ≠ some .exclusive
  | .exclusive => ∀ u, c.holds u = none

/-- A step in a section. -/
inductive Program.Inside (P : Program L S) (m : Mode) : L × S → L × S → Prop
  | go {l l' : L} {d : S} (h : P.go l l') : Inside P m (l, d) (l', d)
  | read {l l' : L} {d : S} (h : P.read l d l') : Inside P m (l, d) (l', d)
  | write {l l' : L} {d d' : S} (exclusive : m = .exclusive) (h : P.write l d l' d') : Inside P m (l, d) (l', d')

/-- A whole section. -/
def Program.Whole (P : Program L S) (l : L) (d : S) (l' : L) (d' : S) : Prop :=
  ∃ m l₁ l₂, P.enter l m l₁ ∧ Relation.ReflTransGen (P.Inside m) (l₁, d) (l₂, d') ∧ P.exit l₂ l'

variable [DecidableEq T]

/-- The threads step by step. -/
inductive Fine.Step (P : Program L S) (c : Fine T L S) : Fine T L S → Prop
  | go {t : T} {l : L} (h : P.go (c.locals t) l) : Step P c { c with locals := Function.update c.locals t l }
  | enter {t : T} {m : Mode} {l : L} (out : c.holds t = none) (free : c.Free m) (h : P.enter (c.locals t) m l) :
      Step P c { c with locals := Function.update c.locals t l, holds := Function.update c.holds t (some m) }
  | read {t : T} {l : L} (inside : c.holds t ≠ none) (h : P.read (c.locals t) c.data l) :
      Step P c { c with locals := Function.update c.locals t l }
  | write {t : T} {l : L} {d : S} (inside : c.holds t = some .exclusive) (h : P.write (c.locals t) c.data l d) :
      Step P c { c with locals := Function.update c.locals t l, data := d }
  | exit {t : T} {l : L} (inside : c.holds t ≠ none) (h : P.exit (c.locals t) l) :
      Step P c { c with locals := Function.update c.locals t l, holds := Function.update c.holds t none }

/-- The threads section by section. -/
inductive Coarse.Step (P : Program L S) (a : Coarse T L S) : Coarse T L S → Prop
  | go {t : T} {l : L} (h : P.go (a.locals t) l) : Step P a { a with locals := Function.update a.locals t l }
  | whole {t : T} {l : L} {d : S} (h : P.Whole (a.locals t) a.data l d) :
      Step P a { locals := Function.update a.locals t l, data := d }

/-- The states of both: a thread in a section is still before it on the coarse side, and so is the data while it is
written. -/
structure Lags (P : Program L S) (c : Fine T L S) (a : Coarse T L S) : Prop where
  apart : ∀ {t u}, c.holds t = some .exclusive → c.holds u ≠ none → u = t
  outside : ∀ {t}, c.holds t = none → a.locals t = c.locals t
  inside : ∀ {t m}, c.holds t = some m → ∃ l, P.enter (a.locals t) m l ∧
    Relation.ReflTransGen (P.Inside m) (l, a.data) (c.locals t, c.data)
  data : (∀ t, c.holds t ≠ some .exclusive) → a.data = c.data

section Lags

variable {P : Program L S} {c c' : Fine T L S} {a : Coarse T L S}

/-- A section that only reads leaves the data. -/
theorem data_of_shared {x y : L × S} (h : Relation.ReflTransGen (P.Inside .shared) x y) : y.2 = x.2 := by
  induction h with
  | refl => rfl
  | tail _ hstep ih =>
    cases hstep with
    | go => exact ih
    | read => exact ih
    | write exclusive => cases exclusive

/-- A step in a section is put off on the coarse side. -/
theorem Lags.extend {t : T} {m : Mode} {l : L} {d : S} (h : Lags P c a) (hm : c.holds t = some m)
    (hstep : P.Inside m (c.locals t, c.data) (l, d)) (hd : m = .exclusive ∨ d = c.data) :
    Lags P { c with locals := Function.update c.locals t l, data := d } a where
  apart := h.apart
  outside {u} hu := by
    have hne : u ≠ t := fun heq => by
      rw [heq, hm] at hu
      cases hu
    simp only [Function.update_of_ne hne]
    exact h.outside hu
  inside {u n} hn := by
    obtain ⟨l₁, henter, hrun⟩ := h.inside hn
    refine ⟨l₁, henter, ?_⟩
    obtain rfl | hne := eq_or_ne u t
    · rw [hm] at hn
      cases hn
      simp only [Function.update_self]
      exact hrun.tail hstep
    · simp only [Function.update_of_ne hne]
      obtain rfl | rfl := hd
      · exact absurd (h.apart hm (by rw [hn]; exact Option.some_ne_none n)) hne
      · exact hrun
  data hshared := by
    obtain rfl | rfl := hd
    · exact absurd hm (hshared t)
    · exact h.data hshared

theorem Lags.go {t : T} {l : L} (h : Lags P c a) (hgo : P.go (c.locals t) l) :
    ∃ a', Relation.ReflTransGen (Coarse.Step P) a a' ∧
      Lags P { c with locals := Function.update c.locals t l } a' := by
  cases hm : c.holds t with
  | some m => exact ⟨a, .refl, h.extend hm (.go hgo) (.inr rfl)⟩
  | none =>
    refine ⟨_, .single (.go (t := t) (l := l) (by rw [h.outside hm]; exact hgo)), h.apart, fun {u} hu => ?_,
      fun {u n} hn => ?_, h.data⟩
    · obtain rfl | hne := eq_or_ne u t
      · simp only [Function.update_self]
      · simp only [Function.update_of_ne hne]
        exact h.outside hu
    · have hne : u ≠ t := fun heq => by
        rw [heq, hm] at hn
        cases hn
      simp only [Function.update_of_ne hne]
      exact h.inside hn

theorem Lags.enter {t : T} {m : Mode} {l : L} (h : Lags P c a) (hout : c.holds t = none) (hfree : c.Free m)
    (henter : P.enter (c.locals t) m l) :
    Lags P { c with locals := Function.update c.locals t l, holds := Function.update c.holds t (some m) } a := by
  have hdata : a.data = c.data := by
    refine h.data ?_
    cases m with
    | shared => exact hfree
    | exclusive =>
      intro u hu
      rw [hfree u] at hu
      cases hu
  refine ⟨fun {u v} hu hv => ?_, fun {u} hu => ?_, fun {u n} hn => ?_, fun _ => hdata⟩
  · by_cases hut : u = t <;> by_cases hvt : v = t
    · rw [hut, hvt]
    · subst hut
      simp only [Function.update_self, Option.some.injEq] at hu
      subst hu
      exact absurd ((Function.update_of_ne hvt ..).trans (hfree v)) hv
    · simp only [Function.update_of_ne hut] at hu
      cases m with
      | shared => exact absurd hu (hfree u)
      | exclusive =>
        rw [hfree u] at hu
        cases hu
    · simp only [Function.update_of_ne hut] at hu
      exact h.apart hu (fun hv' => hv ((Function.update_of_ne hvt ..).trans hv'))
  · have hne : u ≠ t := fun heq => by
      subst heq
      simp at hu
    simp only [Function.update_of_ne hne] at hu ⊢
    exact h.outside hu
  · obtain rfl | hne := eq_or_ne u t
    · simp only [Function.update_self, Option.some.injEq] at hn ⊢
      subst hn
      exact ⟨l, by rw [h.outside hout]; exact henter, by rw [hdata]⟩
    · simp only [Function.update_of_ne hne] at hn ⊢
      exact h.inside hn

/-- On the coarse side the whole section is executed when it is left. -/
theorem Lags.exit {t : T} {l : L} (h : Lags P c a) (hin : c.holds t ≠ none) (hexit : P.exit (c.locals t) l) :
    ∃ a', Coarse.Step P a a' ∧
      Lags P { c with locals := Function.update c.locals t l, holds := Function.update c.holds t none } a' := by
  obtain ⟨m, hm⟩ := Option.ne_none_iff_exists'.1 hin
  obtain ⟨l₁, henter, hrun⟩ := h.inside hm
  refine ⟨_, .whole (t := t) ⟨m, l₁, _, henter, hrun, hexit⟩, fun {u v} hu hv => ?_, fun {u} hu => ?_,
    fun {u n} hn => ?_, fun _ => rfl⟩
  · have hut : u ≠ t := fun heq => by
      subst heq
      simp at hu
    have hvt : v ≠ t := fun heq => by
      subst heq
      simp at hv
    simp only [Function.update_of_ne hut] at hu
    simp only [Function.update_of_ne hvt] at hv
    exact h.apart hu hv
  · obtain rfl | hne := eq_or_ne u t
    · simp only [Function.update_self]
    · simp only [Function.update_of_ne hne] at hu ⊢
      exact h.outside hu
  · have hne : u ≠ t := fun heq => by
      subst heq
      simp at hn
    simp only [Function.update_of_ne hne] at hn ⊢
    obtain ⟨l₂, henter', hrun'⟩ := h.inside hn
    -- another thread is in a section too, so that this one and the other have only read
    have hmshared : m = .shared := by
      cases m with
      | shared => rfl
      | exclusive => exact absurd (h.apart hm (by rw [hn]; exact Option.some_ne_none n)) hne
    subst hmshared
    have hdata : c.data = a.data := data_of_shared hrun
    refine ⟨l₂, henter', ?_⟩
    rw [← hdata] at hrun'
    exact hrun'

/-- One step. -/
theorem Lags.step (h : Lags P c a) (hs : Fine.Step P c c') :
    ∃ a', Relation.ReflTransGen (Coarse.Step P) a a' ∧ Lags P c' a' := by
  cases hs with
  | go hgo => exact h.go hgo
  | enter out free henter => exact ⟨a, .refl, h.enter out free henter⟩
  | read inside hread =>
    obtain ⟨m, hm⟩ := Option.ne_none_iff_exists'.1 inside
    exact ⟨a, .refl, h.extend hm (.read hread) (.inr rfl)⟩
  | write inside hwrite => exact ⟨a, .refl, h.extend inside (.write rfl hwrite) (.inl rfl)⟩
  | exit inside hexit =>
    obtain ⟨a', hstep, hlags⟩ := h.exit inside hexit
    exact ⟨a', .single hstep, hlags⟩

/-- Sections are atomic: whatever the threads do step by step, they could have done section by section. -/
theorem lags_of_run {locals : T → L} {d : S}
    (hr : Relation.ReflTransGen (Fine.Step P) ⟨locals, fun _ => none, d⟩ c) :
    ∃ a, Relation.ReflTransGen (Coarse.Step P) ⟨locals, d⟩ a ∧ Lags P c a := by
  induction hr with
  | refl => exact ⟨_, .refl, nofun, fun _ => rfl, nofun, fun _ => rfl⟩
  | tail _ hstep ih =>
    obtain ⟨a, ha, hlags⟩ := ih
    obtain ⟨a', ha', hlags'⟩ := hlags.step hstep
    exact ⟨a', ha.trans ha', hlags'⟩

end Lags

end Sections
