/-
Finite runs of a labelled step relation: the labels in order, the invariant rule (an invariant may
mention the labels taken so far) and the rule that cuts a run at a point of its label list.
-/
import Mathlib.Logic.Basic
import Mathlib.Data.List.Induction

namespace Lts

universe u v

variable {σ : Type u} {α : Type v}

/-- A finite run from `s` to `t` whose steps carry the labels `l`, in order. -/
inductive Run (step : σ → α → σ → Prop) (s : σ) : List α → σ → Prop
  | nil : Run step s [] s
  | snoc {l : List α} {t u : σ} {a : α} : Run step s l t → step t a u → Run step s (l ++ [a]) u

namespace Run

variable {step : σ → α → σ → Prop} {s t u : σ} {a : α} {l l' : List α}

theorem single (h : step s a t) : Run step s [a] t := by
  simpa using Run.nil.snoc h

theorem append (h : Run step s l t) (h' : Run step t l' u) : Run step s (l ++ l') u := by
  induction h' with
  | nil => simpa using h
  | snoc _ hs ih => rw [← List.append_assoc]; exact ih.snoc hs

theorem cons (h : step s a t) (h' : Run step t l u) : Run step s (a :: l) u :=
  (single h).append h'

/-- The run of a step function along its labels. -/
theorem of_foldlM {f : σ → α → Option σ} (hf : ∀ s a t, f s a = some t → step s a t) :
    ∀ {l : List α} {s : σ}, l.foldlM f s = some t → Run step s l t
  | [], s, h => by
    cases h
    exact .nil
  | a :: l, s, h => by
    rw [List.foldlM_cons] at h
    obtain ⟨u, hu, h⟩ := Option.bind_eq_some_iff.1 h
    exact .cons (hf s a u hu) (of_foldlM hf h)

/-- A run cut after the first `l` of its labels. -/
theorem split : ∀ {l' l : List α} {u : σ}, Run step s (l ++ l') u →
    ∃ t, Run step s l t ∧ Run step t l' u := by
  intro l'
  induction l' using List.reverseRecOn with
  | nil => intro l u h; exact ⟨u, by simpa using h, .nil⟩
  | append_singleton l' a ih =>
    intro l u h
    generalize hm : l ++ (l' ++ [a]) = m at h
    cases h with
    | nil => simp at hm
    | snoc h hs =>
      rw [← List.append_assoc] at hm
      obtain ⟨rfl, h1⟩ := List.append_inj' hm rfl
      cases h1
      obtain ⟨t, h1, h2⟩ := ih h
      exact ⟨t, h1, h2.snoc hs⟩

theorem step_of_single (h : Run step s [a] u) : step s a u := by
  generalize hm : [a] = m at h
  cases h with
  | nil => cases hm
  | snoc h hs =>
    rcases List.append_eq_singleton_iff.1 hm.symm with ⟨rfl, h2⟩ | ⟨-, h2⟩
    · cases h2
      generalize hn : ([] : List α) = n at h
      cases h with
      | nil => exact hs
      | snoc => simp at hn
    · cases h2

/-- A run cut at one of its steps. -/
theorem split_step (h : Run step s (l ++ a :: l') u) :
    ∃ t t', Run step s l t ∧ step t a t' ∧ Run step t' l' u := by
  rw [← List.singleton_append, ← List.append_assoc] at h
  obtain ⟨t', h1, h2⟩ := h.split
  obtain ⟨t, h3, h4⟩ := h1.split
  exact ⟨t, t', h3, h4.step_of_single, h2⟩

/-- The end of a run of a deterministic relation is given by its labels. -/
theorem unique (hd : ∀ s a t u, step s a t → step s a u → t = u) (h : Run step s l t) (h' : Run step s l u) :
    t = u := by
  induction h generalizing u with
  | nil =>
    generalize hl : ([] : List α) = l at h'
    cases h' with
    | nil => rfl
    | snoc => simp at hl
  | snoc _ hs ih =>
    obtain ⟨v, hv, hs'⟩ := h'.split
    have := ih hv
    subst this
    exact hd _ _ _ _ hs hs'.step_of_single

/-- The invariant rule with history: what holds before any step, and is kept by every step that
extends the labels taken so far, holds after every run. -/
theorem history {P : List α → σ → Prop} (h0 : P [] s)
    (hs : ∀ l t a u, Run step s l t → P l t → step t a u → P (l ++ [a]) u) (h : Run step s l t) : P l t := by
  induction h with
  | nil => exact h0
  | snoc hr h ih => exact hs _ _ _ _ hr ih h

/-- The invariant rule. -/
theorem invariant {P : σ → Prop} (h0 : P s) (hs : ∀ t a u, P t → step t a u → P u) (h : Run step s l t) : P t :=
  h.history (P := fun _ t => P t) h0 (fun _ t a u _ hp hst => hs t a u hp hst)

/-- A property that a step keeps exactly when the step meets a condition: it holds all along a run
exactly when all steps of the run meet the condition. -/
theorem invariant_iff {P : σ → Prop} {K : σ → α → Prop} (hd : ∀ s a t u, step s a t → step s a u → t = u) (h0 : P s)
    (hs : ∀ t a u, P t → step t a u → (P u ↔ K t a)) (h : Run step s l u) :
    (∀ l1 l2 t, l = l1 ++ l2 → Run step s l1 t → P t) ↔ ∀ l1 a l2 t, l = l1 ++ a :: l2 → Run step s l1 t → K t a := by
  constructor
  · rintro hP l1 a l2 t rfl ht
    obtain ⟨t', v, ht', hv, -⟩ := h.split_step
    have := ht'.unique hd ht
    subst this
    exact (hs _ _ _ (hP l1 (a :: l2) t' rfl ht) hv).1 (hP (l1 ++ [a]) l2 v (by simp) (ht.snoc hv))
  · intro hK l1 l2 t hl ht
    induction ht generalizing l2 with
    | nil => exact h0
    | @snoc m v w a hr hst ih =>
      rw [List.append_assoc] at hl
      exact (hs _ _ _ (ih _ hl) hst).2 (hK m a l2 v hl hr)

end Run

end Lts
