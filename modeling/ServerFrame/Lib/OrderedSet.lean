/-
A set whose elements are ordered by a key each of them carries, as the sequence its iterators walk:
`lower_bound`, `find`, `insert` and `erase` look at the current keys only, so that a key changed
while its element is inside the set is seen by every later operation. On a sequence that is
strictly ordered under the current keys the operations find, add and remove exactly the element
asked for.
-/
import Mathlib.Data.List.TakeWhile
import Mathlib.Order.Defs.Unbundled
import Mathlib.Tactic.Tauto

namespace OrderedSet

universe u v

section Ops

variable {α : Type u} {κ : Type v} (lt : κ → κ → Prop) [DecidableRel lt] (key : α → κ)

/-- The elements before `lower_bound(k)`. -/
def before (k : κ) (s : List α) : List α := s.takeWhile fun y => decide (lt (key y) k)

/-- The elements from `lower_bound(k)` on. -/
def lowerBound (k : κ) (s : List α) : List α := s.dropWhile fun y => decide (lt (key y) k)

/-- `find(x)`: the first element not less than `x`, unless `x` is less than it. -/
def find (x : α) (s : List α) : Option α :=
  match lowerBound lt key (key x) s with
  | [] => none
  | y :: _ => if lt (key x) (key y) then none else some y

/-- `insert(x)`: at `lower_bound(x)`, unless an equivalent element is there. -/
def insert (x : α) (s : List α) : List α :=
  match lowerBound lt key (key x) s with
  | [] => s ++ [x]
  | y :: ys => if lt (key x) (key y) then before lt key (key x) s ++ x :: y :: ys else s

/-- `erase(find(x))`, defined only where `find(x)` is not the end. -/
def erase (x : α) (s : List α) : Option (List α) :=
  match lowerBound lt key (key x) s with
  | [] => none
  | y :: ys => if lt (key x) (key y) then none else some (before lt key (key x) s ++ ys)

/-- Strictly ordered under the current keys. -/
def Ordered (s : List α) : Prop := s.Pairwise fun a b => lt (key a) (key b)

end Ops

section Laws

variable {α : Type u} {κ : Type v} {lt : κ → κ → Prop} [DecidableRel lt] {key key' : α → κ}

theorem before_append_lowerBound (lt : κ → κ → Prop) [DecidableRel lt] (key : α → κ) (k : κ) (s : List α) :
    before lt key k s ++ lowerBound lt key k s = s :=
  List.takeWhile_append_dropWhile

theorem lt_of_mem_before {k : κ} {y : α} {s : List α} (h : y ∈ before lt key k s) : lt (key y) k := by
  simpa using List.mem_takeWhile_imp h

/-- The first element at or after `lower_bound(k)` is not less than `k`. -/
theorem not_lt_of_lowerBound {k : κ} {y : α} {s ys : List α} (h : lowerBound lt key k s = y :: ys) :
    ¬ lt (key y) k := by
  have := List.head?_dropWhile_not (fun y => decide (lt (key y) k)) s
  unfold lowerBound at h
  rw [h] at this
  simpa using this

/-- From `lower_bound(k)` on nothing is less than `k`. -/
theorem not_lt_of_mem_lowerBound [IsTrans κ lt] {k : κ} {y : α} {s : List α} (hs : Ordered lt key s)
    (h : y ∈ lowerBound lt key k s) : ¬ lt (key y) k := by
  cases hl : lowerBound lt key k s with
  | nil =>
    rw [hl] at h
    cases h
  | cons z zs =>
    have hz : ¬ lt (key z) k := not_lt_of_lowerBound hl
    have hord : (z :: zs).Pairwise fun a b => lt (key a) (key b) := hl ▸ hs.sublist (List.dropWhile_sublist _)
    rw [hl] at h
    rcases List.mem_cons.1 h with rfl | hy
    · exact hz
    · exact fun hlt => hz (IsTrans.trans _ _ _ ((List.pairwise_cons.1 hord).1 y hy) hlt)

omit [DecidableRel lt] in
/-- Only comparisons between members matter. -/
theorem Ordered.imp {s : List α} (h : Ordered lt key s)
    (hk : ∀ x ∈ s, ∀ y ∈ s, lt (key x) (key y) → lt (key' x) (key' y)) : Ordered lt key' s :=
  List.Pairwise.imp_of_mem (fun ha hb hab => hk _ ha _ hb hab) h

/-- On a strictly ordered sequence `lower_bound` cuts at a member exactly there. -/
theorem lowerBound_split [Std.Irrefl lt] {x : α} : ∀ {pre post : List α}, Ordered lt key (pre ++ x :: post) →
    before lt key (key x) (pre ++ x :: post) = pre ∧ lowerBound lt key (key x) (pre ++ x :: post) = x :: post
  | [], post, _ => by simp [before, lowerBound, Std.Irrefl.irrefl (r := lt) (key x)]
  | y :: pre, post, h => by
    unfold Ordered at h
    rw [List.cons_append, List.pairwise_cons] at h
    have hy : lt (key y) (key x) := h.1 x (by simp)
    obtain ⟨h1, h2⟩ := lowerBound_split h.2
    unfold before lowerBound at *
    simp [hy, h1, h2]

omit [DecidableRel lt] in
/-- A strictly ordered sequence is determined by its members. -/
theorem Ordered.ext [Std.Irrefl lt] [IsTrans κ lt] {s t : List α} (hs : Ordered lt key s) (ht : Ordered lt key t)
    (h : ∀ x, x ∈ s ↔ x ∈ t) : s = t := by
  have hirrefl : ∀ x, ¬ lt (key x) (key x) := fun x => Std.Irrefl.irrefl (r := lt) (key x)
  have hnodup : ∀ {r : List α}, Ordered lt key r → r.Nodup := fun hr => by
    refine List.Pairwise.imp (fun {a b} hab => ?_) hr
    rintro rfl
    exact hirrefl a hab
  have hperm : s.Perm t := (List.perm_ext_iff_of_nodup (hnodup hs) (hnodup ht)).2 h
  exact hperm.eq_of_pairwise (fun a b _ _ hab hba => absurd (IsTrans.trans _ _ _ hab hba) (hirrefl a)) hs ht

/-- A member of a strictly ordered sequence is found. -/
theorem find_mem [Std.Irrefl lt] {x : α} {s : List α} (hs : Ordered lt key s) (hx : x ∈ s) :
    find lt key x s = some x := by
  obtain ⟨pre, post, rfl⟩ := List.append_of_mem hx
  unfold find
  rw [(lowerBound_split hs).2]
  simp [Std.Irrefl.irrefl (r := lt) (key x)]

/-- Where no two keys are equivalent, `find(x)` is the element with the key of `x`. -/
theorem find_eq_some_iff [Std.Irrefl lt] [Std.Trichotomous lt] {x y : α} {s : List α} (hs : Ordered lt key s) :
    find lt key x s = some y ↔ y ∈ s ∧ key y = key x := by
  constructor
  · intro h
    unfold find at h
    split at h
    · cases h
    · rename_i z ys hlow
      split at h
      · cases h
      · rename_i hlt
        cases h
        have hmem : y ∈ before lt key (key x) s ++ lowerBound lt key (key x) s :=
          List.mem_append_right _ (hlow ▸ List.mem_cons_self ..)
        rw [before_append_lowerBound] at hmem
        exact ⟨hmem, Std.Trichotomous.trichotomous _ _ (not_lt_of_lowerBound hlow) hlt⟩
  · rintro ⟨hy, hkey⟩
    have hfind : find lt key y s = some y := find_mem hs hy
    unfold find at hfind ⊢
    rwa [hkey] at hfind

/-- Erasing a member of a strictly ordered sequence removes exactly that member. -/
theorem erase_mem [Std.Irrefl lt] {x : α} {s : List α} (hs : Ordered lt key s) (hx : x ∈ s) :
    ∃ pre post, s = pre ++ x :: post ∧ erase lt key x s = some (pre ++ post) := by
  obtain ⟨pre, post, rfl⟩ := List.append_of_mem hx
  refine ⟨pre, post, rfl, ?_⟩
  unfold erase
  rw [(lowerBound_split hs).2, (lowerBound_split hs).1]
  simp [Std.Irrefl.irrefl (r := lt) (key x)]

/-- Inserting an element comparable with every element of a strictly ordered sequence puts it at
its place and keeps the order. -/
theorem insert_spec [IsTrans κ lt] {x : α} {s : List α} (hs : Ordered lt key s)
    (hx : ∀ y ∈ s, lt (key x) (key y) ∨ lt (key y) (key x)) :
    ∃ pre post, s = pre ++ post ∧ insert lt key x s = pre ++ x :: post ∧ Ordered lt key (insert lt key x s) := by
  have hsplit := before_append_lowerBound lt key (key x) s
  unfold insert
  cases hl : lowerBound lt key (key x) s with
  | nil =>
    rw [hl, List.append_nil] at hsplit
    refine ⟨s, [], by simp, rfl, ?_⟩
    unfold Ordered
    rw [List.pairwise_append]
    refine ⟨hs, List.pairwise_singleton _ _, fun a ha b hb => ?_⟩
    rw [List.mem_singleton] at hb; subst hb
    rw [← hsplit] at ha; exact lt_of_mem_before ha
  | cons y ys =>
    rw [hl] at hsplit
    have hy : y ∈ s := by rw [← hsplit]; simp
    have hxy : lt (key x) (key y) := (hx y hy).resolve_right (not_lt_of_lowerBound hl)
    simp only [if_pos hxy]
    refine ⟨before lt key (key x) s, y :: ys, hsplit.symm, rfl, ?_⟩
    unfold Ordered at hs ⊢
    rw [← hsplit, List.pairwise_append] at hs
    rw [List.pairwise_append]
    refine ⟨hs.1, List.pairwise_cons.2 ⟨fun b hb => ?_, hs.2.1⟩, fun a ha b hb => ?_⟩
    · rcases List.mem_cons.1 hb with rfl | hb
      · exact hxy
      · exact IsTrans.trans _ _ _ hxy ((List.pairwise_cons.1 hs.2.1).1 b hb)
    · rcases List.mem_cons.1 hb with rfl | hb
      · exact lt_of_mem_before ha
      · exact hs.2.2 a ha b hb

/-- Whatever the keys are, nothing but the element asked for comes in. -/
theorem mem_of_mem_insert {x y : α} {s : List α} (h : y ∈ insert lt key x s) : y = x ∨ y ∈ s := by
  have hsplit := before_append_lowerBound lt key (key x) s
  unfold insert at h
  cases hl : lowerBound lt key (key x) s with
  | nil =>
    simp only [hl, List.mem_append, List.mem_singleton] at h
    exact h.symm
  | cons z zs =>
    simp only [hl] at h
    split at h
    · rw [hl] at hsplit
      rw [← hsplit]
      simp only [List.mem_append, List.mem_cons] at h ⊢
      tauto
    · exact .inr h

theorem mem_of_mem_erase {x y : α} {s s' : List α} (he : erase lt key x s = some s') (h : y ∈ s') : y ∈ s := by
  have hsplit := before_append_lowerBound lt key (key x) s
  unfold erase at he
  cases hl : lowerBound lt key (key x) s with
  | nil =>
    rw [hl] at he
    cases he
  | cons z zs =>
    simp only [hl] at he
    split at he
    · cases he
    · cases he
      rw [hl] at hsplit
      rw [← hsplit]
      simp only [List.mem_append, List.mem_cons] at h ⊢
      tauto

end Laws

end OrderedSet
