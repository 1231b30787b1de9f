/-
A map as the sequence its iterators walk, with keys that may be spelled in several ways: `fold` takes a key to what
the order sees of it. Assigning to a key that is there keeps its spelling, and erasing it forgets the spelling. What a
lookup finds after a run of operations is decided by the last one on the key.
-/
import ServerFrame.Lib.OrderedSet
import ServerFrame.Lib.History

namespace SortedMap

open OrderedSet

variable {κ ν γ : Type*}

section Ops

variable (lt : κ → κ → Prop) [DecidableRel lt]

/-- `*find(key)`. -/
def entry (key : κ) (m : List (κ × ν)) : Option (κ × ν) :=
  match lowerBound lt Prod.fst key m with
  | [] => none
  | x :: _ => if lt key x.1 then none else some x

/-- `m[key] = val`. -/
def assign (key : κ) (val : ν) (m : List (κ × ν)) : List (κ × ν) :=
  before lt Prod.fst key m ++
    match lowerBound lt Prod.fst key m with
    | [] => [(key, val)]
    | x :: xs => if lt key x.1 then (key, val) :: x :: xs else (x.1, val) :: xs

/-- `m.erase(key)`. -/
def erase (key : κ) (m : List (κ × ν)) : List (κ × ν) :=
  before lt Prod.fst key m ++
    match lowerBound lt Prod.fst key m with
    | [] => []
    | x :: xs => if lt key x.1 then x :: xs else xs

/-- In the order of the map, which leaves no two keys that fold to one. -/
abbrev Sorted (m : List (κ × ν)) : Prop := Ordered lt Prod.fst m

end Ops

/-- The order tells keys apart exactly when they fold to different values. -/
structure Folds (lt : κ → κ → Prop) (fold : κ → γ) : Prop where
  ne : ∀ {a b}, lt a b → fold a ≠ fold b
  or : ∀ {a b}, fold a ≠ fold b → lt a b ∨ lt b a

section Laws

variable {lt : κ → κ → Prop} [DecidableRel lt] [IsTrans κ lt] {fold : κ → γ} (hf : Folds lt fold)
  {m : List (κ × ν)} {key key' : κ} {val : ν} {x : κ × ν}
include hf

omit [DecidableRel lt] [IsTrans κ lt] in
theorem irrefl (a : κ) : ¬ lt a a := fun h => hf.ne h rfl

/-- A lookup cuts a sorted map at the key: nothing before and behind the cut folds to it, and what the operations do
is said of the pieces. -/
theorem cut (hm : Sorted lt m) (key : κ) : ∃ pre post : List (κ × ν),
    (∀ y ∈ pre, lt y.1 key) ∧ (∀ y ∈ post, lt key y.1) ∧
    ((m = pre ++ post ∧ entry lt key m = none ∧ (∀ val, assign lt key val m = pre ++ (key, val) :: post) ∧
        erase lt key m = pre ++ post) ∨
      ∃ x, fold x.1 = fold key ∧ m = pre ++ x :: post ∧ entry lt key m = some x ∧
        (∀ val, assign lt key val m = pre ++ (x.1, val) :: post) ∧ erase lt key m = pre ++ post) := by
  have hsplit := before_append_lowerBound lt Prod.fst key m
  have hpre : ∀ y ∈ before lt Prod.fst key m, lt y.1 key := fun y hy => lt_of_mem_before hy
  unfold entry assign erase
  cases hl : lowerBound lt Prod.fst key m with
  | nil =>
    rw [hl, List.append_nil] at hsplit
    refine ⟨before lt Prod.fst key m, [], hpre, by simp, .inl ⟨?_, rfl, fun _ => rfl, rfl⟩⟩
    rw [List.append_nil, hsplit]
  | cons x xs =>
    rw [hl] at hsplit
    have hge : ¬ lt x.1 key := not_lt_of_lowerBound hl
    have hxs : ∀ y ∈ xs, lt x.1 y.1 := by
      have hord : Sorted lt (before lt Prod.fst key m ++ x :: xs) := hsplit.symm ▸ hm
      exact (List.pairwise_cons.1 (List.pairwise_append.1 hord).2.1).1
    by_cases hlt : lt key x.1
    · have hpost : ∀ y ∈ x :: xs, lt key y.1 := fun y hy => by
        rcases List.mem_cons.1 hy with rfl | hy
        · exact hlt
        · exact IsTrans.trans _ _ _ hlt (hxs y hy)
      refine ⟨before lt Prod.fst key m, x :: xs, hpre, hpost, .inl ?_⟩
      simp only [if_pos hlt]
      exact ⟨hsplit.symm, trivial, fun _ => trivial, trivial⟩
    · have hfold : fold x.1 = fold key := by
        by_contra hne
        rcases hf.or hne with h | h
        · exact hge h
        · exact hlt h
      have hpost : ∀ y ∈ xs, lt key y.1 := fun y hy => by
        rcases hf.or (a := key) (b := y.1) (hfold ▸ hf.ne (hxs y hy)) with h | h
        · exact h
        · exact absurd hfold (hf.ne (IsTrans.trans _ _ _ (hxs y hy) h))
      refine ⟨before lt Prod.fst key m, xs, hpre, hpost, .inr ⟨x, hfold, hsplit.symm, ?_⟩⟩
      simp only [if_neg hlt]
      exact ⟨trivial, fun _ => trivial, trivial⟩

/-- A lookup in a sorted map finds the entry that folds to the key. -/
theorem entry_eq_some (hm : Sorted lt m) : entry lt key m = some x ↔ x ∈ m ∧ fold x.1 = fold key := by
  obtain ⟨pre, post, hpre, hpost, ⟨rfl, hnone, -, -⟩ | ⟨y, hy, rfl, hsome, -, -⟩⟩ := cut hf hm key
  · rw [hnone]
    constructor
    · rintro ⟨⟩
    · rintro ⟨hx, hfold⟩
      rcases List.mem_append.1 hx with hx | hx
      · exact absurd hfold (hf.ne (hpre x hx))
      · exact absurd hfold.symm (hf.ne (hpost x hx))
  · rw [hsome]
    constructor
    · rintro ⟨⟩
      exact ⟨by simp, hy⟩
    · rintro ⟨hx, hfold⟩
      rcases List.mem_append.1 hx with hx | hx
      · exact absurd hfold (hf.ne (hpre x hx))
      · rcases List.mem_cons.1 hx with rfl | hx
        · rfl
        · exact absurd hfold.symm (hf.ne (hpost x hx))

theorem entry_congr (hm : Sorted lt m) (h : fold key = fold key') : entry lt key m = entry lt key' m := by
  refine Option.ext fun x => ?_
  rw [entry_eq_some hf hm, entry_eq_some hf hm, h]

/-- The spelling that an assignment leaves. -/
def spelling (lt : κ → κ → Prop) [DecidableRel lt] (key : κ) (m : List (κ × ν)) : κ :=
  match entry lt key m with
  | none => key
  | some x => x.1

omit [DecidableRel lt] [IsTrans κ lt] hf in
/-- A sorted map has one entry in the place where it is cut. -/
theorem sorted_middle {pre post : List (κ × ν)} (hpre : ∀ y ∈ pre, lt y.1 x.1) (hpost : ∀ y ∈ post, lt x.1 y.1)
    (hm : Sorted lt (pre ++ post)) : Sorted lt (pre ++ x :: post) := by
  obtain ⟨h1, h2, h3⟩ := List.pairwise_append.1 hm
  refine List.pairwise_append.2 ⟨h1, List.pairwise_cons.2 ⟨hpost, h2⟩, fun a ha b hb => ?_⟩
  rcases List.mem_cons.1 hb with rfl | hb
  · exact hpre a ha
  · exact h3 a ha b hb

theorem sorted_erase (hm : Sorted lt m) : Sorted lt (erase lt key m) := by
  obtain ⟨pre, post, -, -, ⟨rfl, -, -, h⟩ | ⟨y, -, rfl, -, -, h⟩⟩ := cut hf hm key
  · rwa [h]
  · rw [h]
    exact hm.sublist (List.Sublist.append_left (List.sublist_cons_self y post) pre)

theorem sorted_assign (hm : Sorted lt m) : Sorted lt (assign lt key val m) := by
  obtain ⟨pre, post, hpre, hpost, ⟨rfl, -, h, -⟩ | ⟨y, hy, rfl, -, h, -⟩⟩ := cut hf hm key
  · rw [h]
    exact sorted_middle hpre hpost hm
  · rw [h]
    obtain ⟨h1, h2, h3⟩ := List.pairwise_append.1 hm
    obtain ⟨h4, h5⟩ := List.pairwise_cons.1 h2
    refine sorted_middle (x := (y.1, val)) (fun a ha => h3 a ha y (by simp)) h4 ?_
    exact List.pairwise_append.2 ⟨h1, h5, fun a ha b hb => h3 a ha b (List.mem_cons_of_mem _ hb)⟩

theorem mem_erase (hm : Sorted lt m) : x ∈ erase lt key m ↔ x ∈ m ∧ fold x.1 ≠ fold key := by
  obtain ⟨pre, post, hpre, hpost, hcase⟩ := cut hf hm key
  have hne : ∀ y ∈ pre ++ post, fold y.1 ≠ fold key := fun y hy => by
    rcases List.mem_append.1 hy with hy | hy
    · exact hf.ne (hpre y hy)
    · exact (hf.ne (hpost y hy)).symm
  rcases hcase with ⟨rfl, -, -, h⟩ | ⟨y, hy, rfl, -, -, h⟩
  · rw [h]
    exact ⟨fun hx => ⟨hx, hne x hx⟩, fun hx => hx.1⟩
  · rw [h]
    constructor
    · intro hx
      exact ⟨(List.Sublist.append_left (List.sublist_cons_self y post) pre).subset hx, hne x hx⟩
    · rintro ⟨hx, hnot⟩
      simp only [List.mem_append, List.mem_cons] at hx ⊢
      rcases hx with hx | rfl | hx
      · exact .inl hx
      · exact absurd hy hnot
      · exact .inr hx

/-- An assignment leaves the other entries, and one for the key. -/
theorem mem_assign (hm : Sorted lt m) :
    x ∈ assign lt key val m ↔ (x ∈ m ∧ fold x.1 ≠ fold key) ∨ x = (spelling lt key m, val) := by
  rw [← mem_erase hf hm, spelling]
  obtain ⟨pre, post, -, -, ⟨-, he, h, h'⟩ | ⟨y, -, -, he, h, h'⟩⟩ := cut hf hm key <;>
    rw [he, h, h'] <;>
    simp only [List.mem_append, List.mem_cons] <;>
    tauto

theorem fold_spelling (hm : Sorted lt m) : fold (spelling lt key m) = fold key := by
  rw [spelling]
  cases he : entry lt key m with
  | none => rfl
  | some x => exact ((entry_eq_some hf hm).1 he).2

/-- What a lookup finds after an assignment. -/
theorem entry_assign [DecidableEq γ] (hm : Sorted lt m) : entry lt key' (assign lt key val m) =
    if fold key' = fold key then some (spelling lt key m, val) else entry lt key' m := by
  refine Option.ext fun x => ?_
  rw [entry_eq_some hf (sorted_assign hf hm), mem_assign hf hm]
  split
  · rename_i hkey
    rw [hkey, Option.some.injEq]
    constructor
    · rintro ⟨⟨-, hne⟩ | rfl, hfold⟩
      · exact absurd hfold hne
      · rfl
    · rintro rfl
      exact ⟨.inr rfl, fold_spelling hf hm⟩
  · rename_i hkey
    rw [entry_eq_some hf hm]
    constructor
    · rintro ⟨⟨hx, -⟩ | rfl, hfold⟩
      · exact ⟨hx, hfold⟩
      · exact absurd (hfold.symm.trans (fold_spelling hf hm)) hkey
    · rintro ⟨hx, hfold⟩
      exact ⟨.inl ⟨hx, hfold ▸ hkey⟩, hfold⟩

/-- What a lookup finds after an erasure. -/
theorem entry_erase [DecidableEq γ] (hm : Sorted lt m) : entry lt key' (erase lt key m) =
    if fold key' = fold key then none else entry lt key' m := by
  refine Option.ext fun x => ?_
  rw [entry_eq_some hf (sorted_erase hf hm), mem_erase hf hm]
  split
  · rename_i hkey
    rw [hkey]
    constructor
    · rintro ⟨⟨-, hne⟩, hfold⟩
      exact absurd hfold hne
    · rintro ⟨⟩
  · rename_i hkey
    rw [entry_eq_some hf hm]
    exact ⟨fun ⟨⟨hx, _⟩, hfold⟩ => ⟨hx, hfold⟩, fun ⟨hx, hfold⟩ => ⟨⟨hx, hfold ▸ hkey⟩, hfold⟩⟩

omit [DecidableRel lt] [IsTrans κ lt] in
theorem pairwise_fold_ne (hm : Sorted lt m) : m.Pairwise fun x y => fold x.1 ≠ fold y.1 :=
  List.Pairwise.imp hf.ne hm

/-- A lookup of a key that nothing folds to finds nothing. -/
theorem entry_new (hm : Sorted lt m) (h : ∀ y ∈ m, fold y.1 ≠ fold key) : entry lt key m = none := by
  rcases he : entry lt key m with _ | x
  · rfl
  · obtain ⟨hx, hfold⟩ := (entry_eq_some hf hm).1 he
    exact absurd hfold (h x hx)

/-- Assigning to a new key adds an entry. -/
theorem mem_assign_new (hm : Sorted lt m) (h : ∀ y ∈ m, fold y.1 ≠ fold key) :
    x ∈ assign lt key val m ↔ x ∈ m ∨ x = (key, val) := by
  have hspelling : spelling lt key m = key := by rw [spelling, entry_new hf hm h]
  rw [mem_assign hf hm, hspelling]
  constructor
  · rintro (⟨hx, -⟩ | hx)
    · exact .inl hx
    · exact .inr hx
  · rintro (hx | hx)
    · exact .inl ⟨hx, h x hx⟩
    · exact .inr hx

/-- Assigning to new keys in sequence. -/
theorem foldl_assign_new {xs : List (κ × ν)} (hm : Sorted lt m) (hnew : ∀ x ∈ xs, ∀ y ∈ m, fold y.1 ≠ fold x.1)
    (hxs : xs.Pairwise fun x y => fold x.1 ≠ fold y.1) :
    Sorted lt (xs.foldl (fun m x => assign lt x.1 x.2 m) m) ∧
      ∀ y, y ∈ xs.foldl (fun m x => assign lt x.1 x.2 m) m ↔ y ∈ m ∨ y ∈ xs := by
  induction xs generalizing m with
  | nil => exact ⟨hm, fun y => by simp⟩
  | cons x xs ih =>
    rw [List.pairwise_cons] at hxs
    have hmem : ∀ y, y ∈ assign lt x.1 x.2 m ↔ y ∈ m ∨ y = x := fun y =>
      mem_assign_new hf hm (hnew x (List.mem_cons_self ..))
    obtain ⟨hsorted', hmem'⟩ := ih (m := assign lt x.1 x.2 m) (sorted_assign hf hm) (fun z hz y hy => by
      rcases (hmem y).1 hy with hy | rfl
      · exact hnew z (List.mem_cons_of_mem _ hz) y hy
      · exact hxs.1 z hz) hxs.2
    refine ⟨hsorted', fun y => ?_⟩
    rw [List.foldl_cons, hmem', hmem, List.mem_cons, or_assoc]

/-- Sorted maps in which every lookup finds the same are the same. -/
theorem ext_entry {m' : List (κ × ν)} (hm : Sorted lt m) (hm' : Sorted lt m')
    (h : ∀ key, entry lt key m = entry lt key m') : m = m' := by
  have : Std.Irrefl lt := ⟨irrefl hf⟩
  refine hm.ext hm' fun x => ?_
  have hx := h x.1
  constructor
  · intro hin
    exact ((entry_eq_some hf hm').1 (hx ▸ (entry_eq_some hf hm).2 ⟨hin, rfl⟩)).1
  · intro hin
    exact ((entry_eq_some hf hm).1 (hx ▸ (entry_eq_some hf hm').2 ⟨hin, rfl⟩)).1

end Laws

end SortedMap
