/-
The last element of a history that meets a predicate, and folds that it alone decides: what is read of
the state after a history is what the last step that touches it has put there.
-/
import Mathlib.Data.List.Induction

namespace History

variable {α β σ : Type*} {P : α → Prop} {l : List α} {a b : α} {m n : Nat}

/-- The last element with `P` is `a`, and it is the one of number `n`. -/
def LastAt (P : α → Prop) (l : List α) (n : Nat) (a : α) : Prop :=
  P a ∧ ∃ pre post, l = pre ++ a :: post ∧ pre.length = n ∧ ∀ b ∈ post, ¬ P b

theorem lastAt_cons_zero : LastAt P (a :: l) 0 b ↔ a = b ∧ P b ∧ ∀ c ∈ l, ¬ P c := by
  constructor
  · rintro ⟨hb, pre, post, hl, hpre, hpost⟩
    rw [List.length_eq_zero_iff] at hpre
    subst hpre
    obtain ⟨rfl, rfl⟩ := List.cons.inj hl
    exact ⟨rfl, hb, hpost⟩
  · rintro ⟨rfl, ha, hl⟩
    exact ⟨ha, [], l, rfl, rfl, hl⟩

theorem lastAt_cons_succ : LastAt P (a :: l) (n + 1) b ↔ LastAt P l n b := by
  constructor
  · rintro ⟨hb, pre, post, hl, hpre, hpost⟩
    cases pre with
    | nil => cases hpre
    | cons c pre =>
      obtain ⟨-, rfl⟩ := List.cons.inj hl
      exact ⟨hb, pre, post, rfl, Nat.succ.inj hpre, hpost⟩
  · rintro ⟨hb, pre, post, rfl, rfl, hpost⟩
    exact ⟨hb, a :: pre, post, rfl, rfl, hpost⟩

theorem LastAt.get (h : LastAt P l n a) : l[n]? = some a := by
  obtain ⟨-, pre, post, rfl, rfl, -⟩ := h
  simp

/-- Two elements of one number are the same, also where they are the last of different kinds. -/
theorem LastAt.eq_of_number {Q : α → Prop} (h : LastAt P l n a) (h' : LastAt Q l n b) : a = b :=
  Option.some.inj (h.get.symm.trans h'.get)

/-- There is a last one, or there is none. -/
theorem lastAt_or (P : α → Prop) (l : List α) : (∃ n a, LastAt P l n a) ∨ ∀ a ∈ l, ¬ P a := by
  induction l with
  | nil => exact .inr fun a ha => by cases ha
  | cons a l ih =>
    rcases ih with ⟨n, b, h⟩ | hnone
    · exact .inl ⟨n + 1, b, lastAt_cons_succ.2 h⟩
    · by_cases ha : P a
      · exact .inl ⟨0, a, lastAt_cons_zero.2 ⟨rfl, ha, hnone⟩⟩
      · exact .inr (List.forall_mem_cons.2 ⟨ha, hnone⟩)

section Fold

variable {step : σ → α → σ} (read : σ → β)

/-- Steps without `P` leave what is read as it is. -/
theorem read_foldl (hkeep : ∀ s a, ¬ P a → read (step s a) = read s) (hl : ∀ a ∈ l, ¬ P a) (s : σ) :
    read (l.foldl step s) = read s := by
  induction l generalizing s with
  | nil => rfl
  | cons a l ih =>
    rw [List.forall_mem_cons] at hl
    rw [List.foldl_cons, ih hl.2, hkeep s a hl.1]

/-- What is read at the end is what the last step with `P` has put there. -/
theorem LastAt.read_foldl {value : β} (h : LastAt P l n a) (hkeep : ∀ s a, ¬ P a → read (step s a) = read s)
    (hset : ∀ s, read (step s a) = value) (s : σ) : read (l.foldl step s) = value := by
  obtain ⟨-, pre, post, rfl, -, hpost⟩ := h
  rw [List.foldl_append, List.foldl_cons, History.read_foldl read hkeep hpost, hset]

end Fold

/-! ## Steps of a run -/

section Happens

variable {step : σ → α → σ} {flag : σ → Bool} {Q R : σ → α → Prop} {s : σ}

/-- A step of the run has the property, in the state it is taken in. -/
def Happens (step : σ → α → σ) (Q : σ → α → Prop) : σ → List α → Prop
  | _, [] => False
  | s, a :: l => Q s a ∨ Happens step Q (step s a) l

/-- The step sets the flag. -/
def Sets (step : σ → α → σ) (flag : σ → Bool) (s : σ) (a : α) : Prop := flag s = false ∧ flag (step s a) = true

theorem Happens.imp {I : σ → Prop} (hkeep : ∀ s a, I s → I (step s a)) (himp : ∀ s a, I s → Q s a → R s a) :
    ∀ {l : List α} {s : σ}, I s → Happens step Q s l → Happens step R s l
  | _ :: _, s, hs, .inl h => .inl (himp s _ hs h)
  | _ :: _, s, hs, .inr h => .inr (Happens.imp hkeep himp (hkeep s _ hs) h)

theorem Happens.or : ∀ {l : List α} {s : σ}, Happens step (fun s a => Q s a ∨ R s a) s l →
    Happens step Q s l ∨ Happens step R s l
  | _ :: _, _, .inl h => h.imp .inl .inl
  | _ :: _, _, .inr h => (Happens.or h).imp .inr .inr

/-- A flag that is set at the end was set by a step. -/
theorem happens_sets (h0 : flag s = false) (h : flag (l.foldl step s) = true) : Happens step (Sets step flag) s l := by
  induction l generalizing s with
  | nil =>
    rw [List.foldl_nil, h0] at h
    cases h
  | cons a l ih =>
    rcases hflag : flag (step s a) with _ | _
    · exact .inr (ih hflag h)
    · exact .inl ⟨h0, hflag⟩

theorem Happens.exists : ∀ {l : List α} {s : σ}, Happens step Q s l → ∃ t a, a ∈ l ∧ Q t a
  | _ :: _, s, .inl h => ⟨s, _, List.mem_cons_self, h⟩
  | _ :: _, _, .inr h => by
    obtain ⟨t, a, ha, hq⟩ := Happens.exists h
    exact ⟨t, a, List.mem_cons_of_mem _ ha, hq⟩

/-- Where the flag is set, no step sets it. -/
theorem Happens.of_flag (hmono : ∀ s a, flag s = true → flag (step s a) = true) (h : flag s = true)
    (hq : Happens step Q s l) : Happens step (fun s a => Q s a ∧ ¬ Sets step flag s a) s l := by
  refine Happens.imp (I := fun s => flag s = true) hmono (fun s a hs hq => ⟨hq, fun hset => ?_⟩) h hq
  rw [hset.1] at hs
  cases hs

/-- One step sets the flag: any other step of the run does not. -/
theorem Happens.sets_once (hmono : ∀ s a, flag s = true → flag (step s a) = true)
    (hset : Happens step (fun s a => Sets step flag s a ∧ R s a) s l) (hq : Happens step Q s l) :
    Happens step (fun s a => Q s a ∧ ¬ Sets step flag s a) s l ∨ Happens step (fun s a => Q s a ∧ R s a) s l := by
  induction l generalizing s with
  | nil => exact hq.elim
  | cons a l ih =>
    rcases hset with hset | hset
    · rcases hq with hq | hq
      · exact .inr (.inl ⟨hq, hset.2⟩)
      · exact .inl (.inr (Happens.of_flag hmono hset.1.2 hq))
    · rcases hq with hq | hq
      · refine .inl (.inl ⟨hq, fun h => ?_⟩)
        have hnone : Happens step (fun _ _ => False) (step s a) l :=
          Happens.imp (I := fun s => flag s = true) hmono (fun t b ht h => by rw [h.1.1] at ht; cases ht) h.2 hset
        obtain ⟨_, _, -, h⟩ := hnone.exists
        exact h
      · exact (ih hset hq).imp .inr .inr

end Happens

end History
