/-
Readers of a stream: functions that take a front part off a list, or fail. `Reads r l a` says that `r` takes
exactly `l` off every list that starts with `l` and returns `a`; the rules compose it along sequences.
-/
import Mathlib.Logic.Basic

namespace Readers

variable {β : Type} {α γ κ : Type}

abbrev Reader (β α : Type) := StateT (List β) Option α

/-- The next `n` elements. -/
def read (n : Nat) : Reader β { l : List β // l.length = n } := fun s =>
  if h : n ≤ s.length then some (⟨s.take n, by simp [h]⟩, s.drop n) else none

def Reads (r : Reader β α) (l : List β) (a : α) : Prop := ∀ rest, r (l ++ rest) = some (a, rest)

namespace Reads

theorem pure (a : α) : Reads (Pure.pure a : Reader β α) [] a := fun _ => rfl

theorem bind {r : Reader β α} {f : α → Reader β γ} {l m : List β} {a : α} {b : γ} (h : Reads r l a)
    (h' : Reads (f a) m b) : Reads (r >>= f) (l ++ m) b := by
  intro rest
  show (r (l ++ m ++ rest)).bind (fun p => f p.1 p.2) = _
  rw [List.append_assoc, h (m ++ rest)]
  exact h' rest

/-- What is done with the result takes nothing more. -/
theorem ret {r : Reader β α} {l : List β} {a : α} {b : γ} (h : Reads r l a) {f : α → γ} (hf : f a = b) :
    Reads (r >>= fun x => Pure.pure (f x)) l b := by
  subst hf
  have := h.bind (f := fun x => Pure.pure (f x)) (pure (f a))
  rwa [List.append_nil] at this

theorem read {n : Nat} {l : List β} (h : l.length = n) : Reads (Readers.read n) l ⟨l, h⟩ := by
  intro rest
  subst h
  simp [Readers.read]

/-- Values written one after the other, read back by a reader for each. -/
theorem mapM {kind : α → κ} {dec : κ → Reader β α} {enc : α → List β} (h : ∀ a, Reads (dec (kind a)) (enc a) a)
    (l : List α) : Reads ((l.map kind).mapM dec) (l.flatMap enc) l := by
  induction l with
  | nil =>
    rw [List.map_nil, List.mapM_nil]
    exact pure []
  | cons a l ih =>
    rw [List.map_cons, List.mapM_cons, List.flatMap_cons]
    refine (h a).bind ?_
    exact ih.ret rfl

end Reads

/-! ## Readers that fail part way -/

/-- A reader that also says what it leaves when it fails. -/
abbrev Taker (β α : Type) := EStateM Unit (List β) α

/-- The next `n` elements, or nothing. -/
def take (n : Nat) : Taker β { l : List β // l.length = n } := fun s =>
  if h : n ≤ s.length then .ok ⟨s.take n, by simp [h]⟩ (s.drop n) else .error () s

theorem take_of_le {n : Nat} {l : List β} (h : n ≤ l.length) :
    take n l = .ok ⟨l.take n, List.length_take_of_le h⟩ (l.drop n) := dif_pos h

theorem take_of_lt {n : Nat} {l : List β} (h : l.length < n) : take n l = .error () l := dif_neg (Nat.not_le.2 h)

section Sequence

variable {ε σ : Type} {x : EStateM ε σ α} {f : α → EStateM ε σ γ} {s s' : σ}

theorem bind_ok {a : α} (h : x s = .ok a s') : (x >>= f) s = f a s' := by
  change EStateM.bind x f s = _
  rw [EStateM.bind, h]

theorem bind_error {e : ε} (h : x s = .error e s') : (x >>= f) s = .error e s' := by
  change EStateM.bind x f s = _
  rw [EStateM.bind, h]

end Sequence

/-- A relation between computations of two monads that programs keep. -/
structure Related {m m' : Type → Type} [Monad m] [Monad m'] (R : (α : Type) → m α → m' α → Prop) : Prop where
  pure : ∀ {α : Type} (a : α), R α (Pure.pure a) (Pure.pure a)
  bind : ∀ {α γ : Type} {x : m α} {y : m' α} {f : α → m γ} {g : α → m' γ},
    R α x y → (∀ a, R γ (f a) (g a)) → R γ (x >>= f) (y >>= g)

theorem Related.ret {m m' : Type → Type} [Monad m] [Monad m'] {R : (α : Type) → m α → m' α → Prop} (hR : Related R)
    {x : m α} {y : m' α} (h : R α x y) (f : α → γ) :
    R γ (x >>= fun a => Pure.pure (f a)) (y >>= fun a => Pure.pure (f a)) :=
  hR.bind h fun a => hR.pure (f a)

/-- Where the reader succeeds, the one that also says what it leaves does so with the same result. -/
def Agrees (α : Type) (r : Reader β α) (t : Taker β α) : Prop := ∀ l a rest, r l = some (a, rest) → t l = .ok a rest

theorem related_agrees : Related (Agrees (β := β)) where
  pure a l b rest h := by cases h; rfl
  bind {α γ x y f g} hxy hfg l b rest h := by
    change (x l).bind (fun p => f p.1 p.2) = _ at h
    obtain ⟨⟨a, mid⟩, hx, hf⟩ := Option.bind_eq_some_iff.1 h
    rw [bind_ok (hxy l a mid hx)]
    exact hfg a mid b rest hf

theorem agrees_read (n : Nat) : Agrees (β := β) _ (read n) (take n) := by
  intro l a rest h
  rw [read] at h
  split at h
  · rename_i hle
    rw [take_of_le hle]
    cases h
    rfl
  · cases h

end Readers
