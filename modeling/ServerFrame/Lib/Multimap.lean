/-
A multimap under an order of its keys, as the sequence its iterators walk: `insert` puts an entry behind those whose
keys are not greater, and `equal_range` are the entries of a key, in the order in which they came.
-/
import Mathlib.Data.List.TakeWhile
import Mathlib.Order.Defs.Unbundled

namespace Multimap

universe u v

section Ops

variable {κ : Type u} {ν : Type v} (lt : κ → κ → Prop) [DecidableRel lt]

/-- `insert(e)`. -/
def insert (e : κ × ν) (m : List (κ × ν)) : List (κ × ν) :=
  m.takeWhile (fun x => ¬ lt e.1 x.1) ++ e :: m.dropWhile fun x => ¬ lt e.1 x.1

/-- `equal_range(key)`. -/
def equalRange (key : κ) (m : List (κ × ν)) : List (κ × ν) :=
  (m.dropWhile fun x => lt x.1 key).takeWhile fun x => ¬ lt key x.1

/-- The keys do not go down. -/
def Ascending (m : List (κ × ν)) : Prop := m.Pairwise fun a b => ¬ lt b.1 a.1

end Ops

section Laws

variable {κ : Type u} {ν : Type v} {lt : κ → κ → Prop} [DecidableRel lt] [DecidableEq κ] [Std.Irrefl lt] [IsTrans κ lt]
  [Std.Trichotomous lt] {m : List (κ × ν)} {key : κ} {e : κ × ν}

omit [DecidableRel lt] [DecidableEq κ] [IsTrans κ lt] [Std.Trichotomous lt] in
theorem lt_irrefl (k : κ) : ¬ lt k k := Std.Irrefl.irrefl (r := lt) k

omit [DecidableRel lt] [DecidableEq κ] [Std.Irrefl lt] [IsTrans κ lt] in
theorem eq_of_not_lt {a b : κ} (h : ¬ lt a b) (h' : ¬ lt b a) : a = b :=
  Std.Trichotomous.trichotomous (r := lt) a b h h'

omit [DecidableRel lt] [IsTrans κ lt] [Std.Trichotomous lt] in
theorem filter_greater {y : κ × ν} (h : Ascending lt (y :: m)) (hy : lt key y.1) :
    (y :: m).filter (fun x => x.1 = key) = [] := by
  rw [List.filter_eq_nil_iff]
  intro x hx
  simp only [decide_eq_true_eq]
  rintro rfl
  rcases List.mem_cons.1 hx with rfl | hx
  · exact lt_irrefl _ hy
  · exact (List.pairwise_cons.1 h).1 x hx hy

omit [IsTrans κ lt] in
/-- From the first key that is not less, the entries of the key end at the first greater one. -/
theorem takeWhile_eq (h : Ascending lt m) (hm : ∀ y ∈ m, ¬ lt y.1 key) :
    (m.takeWhile fun x => ¬ lt key x.1) = m.filter fun x => x.1 = key := by
  induction m with
  | nil => rfl
  | cons y m ih =>
    by_cases hlt : lt key y.1
    · rw [filter_greater h hlt, List.takeWhile_cons_of_neg (by simpa using hlt)]
    · have heq : y.1 = key := eq_of_not_lt (hm y (List.mem_cons_self ..)) hlt
      rw [List.takeWhile_cons_of_pos (by simpa using hlt), List.filter_cons_of_pos (by simpa using heq),
        ih (List.pairwise_cons.1 h).2 fun z hz => hm z (List.mem_cons_of_mem _ hz)]

/-- The entries of a key. -/
theorem equalRange_eq (h : Ascending lt m) : equalRange lt key m = m.filter fun x => x.1 = key := by
  induction m with
  | nil => rfl
  | cons y m ih =>
    by_cases hlt : lt y.1 key
    · have hne : y.1 ≠ key := fun heq => lt_irrefl _ (heq ▸ hlt)
      rw [List.filter_cons_of_neg (by simpa using hne), ← ih (List.pairwise_cons.1 h).2, equalRange,
        List.dropWhile_cons_of_pos (by simpa using hlt)]
      rfl
    · rw [equalRange, List.dropWhile_cons_of_neg (by simpa using hlt)]
      refine takeWhile_eq h fun z hz hzn => ?_
      rcases List.mem_cons.1 hz with rfl | hz
      · exact hlt hzn
      · have hge : ¬ lt z.1 y.1 := (List.pairwise_cons.1 h).1 z hz
        by_cases hny : lt key y.1
        · exact hge (IsTrans.trans _ _ _ hzn hny)
        · exact hge (eq_of_not_lt hlt hny ▸ hzn)

omit [DecidableEq κ] [Std.Irrefl lt] [IsTrans κ lt] [Std.Trichotomous lt] in
/-- The entries before the place of an insertion, and those behind it. -/
theorem ascending_split (h : Ascending lt m) :
    Ascending lt ((m.takeWhile fun x => ¬ lt e.1 x.1) ++ m.dropWhile fun x => ¬ lt e.1 x.1) := by
  rw [List.takeWhile_append_dropWhile]
  exact h

omit [DecidableEq κ] [Std.Irrefl lt] in
theorem greater_behind (h : Ascending lt m) : ∀ x ∈ m.dropWhile fun x => ¬ lt e.1 x.1, lt e.1 x.1 := by
  have hdrop : Ascending lt (m.dropWhile fun x => ¬ lt e.1 x.1) := (List.pairwise_append.1 (ascending_split h)).2.1
  intro x hx
  cases hl : m.dropWhile fun x => ¬ lt e.1 x.1 with
  | nil =>
    rw [hl] at hx
    cases hx
  | cons y l =>
    have hy : lt e.1 y.1 := by
      have hhead := List.head?_dropWhile_not (fun x : κ × ν => ¬ lt e.1 x.1) m
      rw [hl] at hhead
      simpa using hhead
    rw [hl] at hx hdrop
    rcases List.mem_cons.1 hx with rfl | hx
    · exact hy
    · by_cases hlt : lt e.1 x.1
      · exact hlt
      · have hge : ¬ lt x.1 y.1 := (List.pairwise_cons.1 hdrop).1 x hx
        by_cases hxe : lt x.1 e.1
        · exact absurd (IsTrans.trans _ _ _ hxe hy) hge
        · exact absurd (eq_of_not_lt hlt hxe ▸ hy) hge

omit [DecidableEq κ] in
theorem ascending_insert (h : Ascending lt m) : Ascending lt (insert lt e m) := by
  have hsplit := List.pairwise_append.1 (ascending_split (e := e) h)
  refine List.pairwise_append.2 ⟨hsplit.1, List.pairwise_cons.2 ⟨fun x hx hlt => ?_, hsplit.2.1⟩, fun a ha b hb => ?_⟩
  · exact lt_irrefl _ (IsTrans.trans _ _ _ (greater_behind h x hx) hlt)
  · rcases List.mem_cons.1 hb with rfl | hb
    · simpa using List.mem_takeWhile_imp ha
    · exact hsplit.2.2 a ha b hb

/-- An entry comes behind those of its key. -/
theorem filter_insert (h : Ascending lt m) : (insert lt e m).filter (fun x => x.1 = key) =
    m.filter (fun x => x.1 = key) ++ if e.1 = key then [e] else [] := by
  have hm : m.filter (fun x => x.1 = key) = (m.takeWhile fun x => ¬ lt e.1 x.1).filter (fun x => x.1 = key) ++
      (m.dropWhile fun x => ¬ lt e.1 x.1).filter fun x => x.1 = key := by
    rw [← List.filter_append, List.takeWhile_append_dropWhile]
  split
  · rename_i heq
    have hbehind : (m.dropWhile fun x => ¬ lt e.1 x.1).filter (fun x => x.1 = key) = [] := by
      rw [List.filter_eq_nil_iff]
      intro x hx
      simp only [decide_eq_true_eq]
      intro hkey
      exact Std.Irrefl.irrefl (r := lt) key (by simpa [heq, hkey] using greater_behind h x hx)
    rw [insert, List.filter_append, List.filter_cons_of_pos (by simpa using heq), hm, hbehind, List.append_nil]
  · rename_i hne
    rw [insert, List.filter_append, List.filter_cons_of_neg (by simpa using hne), List.append_nil, hm]

omit [DecidableEq κ] [Std.Irrefl lt] [IsTrans κ lt] [Std.Trichotomous lt] in
theorem length_insert (e : κ × ν) (m : List (κ × ν)) : (insert lt e m).length = m.length + 1 := by
  rw [insert, List.length_append, List.length_cons, ← Nat.add_assoc, ← List.length_append,
    List.takeWhile_append_dropWhile]

end Laws

end Multimap
