/-
Containers that are filled one element after the other and walked in an order of their own: a sequence, a set under an
order, a set and a map without one. What is walked fills an empty container up to the same.
-/
import ServerFrame.Lib.OrderedSet
import Mathlib.Data.Finmap

universe u v

/-- A container, with the elements in the order of iteration. -/
structure Container (γ : Type u) (α : Type v) where
  elements : γ → List α
  empty : γ
  push : γ → α → γ
  rebuild : ∀ c, (elements c).foldl push empty = c

namespace Container

variable {γ : Type u} {α : Type v}

/-- Filling with the results of a function that may fail: the function first, and the container then. -/
theorem foldlM_push {β : Type v} (push : γ → α → γ) (f : β → Option α) : ∀ (l : List β) (c : γ),
    (l.foldlM (fun c b => (f b).map (push c)) c) = (l.mapM f).map (List.foldl push c)
  | [], c => rfl
  | b :: l, c => by
    rw [List.foldlM_cons, List.mapM_cons]
    cases hb : f b with
    | none => rfl
    | some a =>
      change l.foldlM (fun c b => (f b).map (push c)) (push c a) = _
      rw [foldlM_push push f l]
      cases l.mapM f <;> rfl

/-! ## Sequences -/

theorem foldl_append (l : List α) : ∀ c : List α, l.foldl (fun c x => c ++ [x]) c = c ++ l := by
  induction l with
  | nil => exact fun c => (List.append_nil c).symm
  | cons x l ih =>
    intro c
    rw [List.foldl_cons, ih, List.append_assoc]
    rfl

/-- `push_back`. -/
def sequence : Container (List α) α where
  elements c := c
  empty := []
  push c x := c ++ [x]
  rebuild c := by rw [foldl_append, List.nil_append]

/-! ## Sets and maps under an order -/

section Ordered

variable {κ : Type u} (lt : κ → κ → Prop) [DecidableRel lt] (key : α → κ)

/-- Any element may be inserted. -/
theorem ordered_insert [IsTrans κ lt] {x : α} {s : List α} (hs : OrderedSet.Ordered lt key s) :
    OrderedSet.Ordered lt key (OrderedSet.insert lt key x s) := by
  unfold OrderedSet.insert
  have hsplit := OrderedSet.before_append_lowerBound lt key (key x) s
  cases hl : OrderedSet.lowerBound lt key (key x) s with
  | nil =>
    rw [hl, List.append_nil] at hsplit
    refine List.pairwise_append.2 ⟨hs, List.pairwise_singleton _ _, fun a ha b hb => ?_⟩
    rw [List.mem_singleton.1 hb]
    exact OrderedSet.lt_of_mem_before (hsplit ▸ ha)
  | cons y ys =>
    dsimp only
    split
    · rename_i hxy
      rw [hl] at hsplit
      unfold OrderedSet.Ordered at hs
      rw [← hsplit, List.pairwise_append] at hs
      obtain ⟨hbefore, hafter, hcross⟩ := hs
      refine List.pairwise_append.2 ⟨hbefore, List.pairwise_cons.2 ⟨fun b hb => ?_, hafter⟩, fun a ha b hb => ?_⟩
      · rcases List.mem_cons.1 hb with rfl | hb
        · exact hxy
        · exact IsTrans.trans _ _ _ hxy ((List.pairwise_cons.1 hafter).1 b hb)
      · rcases List.mem_cons.1 hb with rfl | hb
        · exact OrderedSet.lt_of_mem_before ha
        · exact hcross a ha b hb
    · exact hs

/-- What is behind all elements goes to the end. -/
theorem insert_last {x : α} {s : List α} (h : ∀ y ∈ s, lt (key y) (key x)) :
    OrderedSet.insert lt key x s = s ++ [x] := by
  have hl : OrderedSet.lowerBound lt key (key x) s = [] :=
    List.dropWhile_eq_nil_iff.2 fun y hy => decide_eq_true (h y hy)
  rw [OrderedSet.insert, hl]

theorem foldl_insert {l : List α} : ∀ {s : List α}, OrderedSet.Ordered lt key (s ++ l) →
    l.foldl (fun s x => OrderedSet.insert lt key x s) s = s ++ l := by
  induction l with
  | nil => exact fun {s} _ => (List.append_nil s).symm
  | cons x l ih =>
    intro s hs
    have hlast : OrderedSet.insert lt key x s = s ++ [x] :=
      insert_last lt key fun y hy => (List.pairwise_append.1 hs).2.2 y hy x (List.mem_cons_self ..)
    rw [List.foldl_cons, hlast, ih (by rw [List.append_assoc]; exact hs), List.append_assoc]
    rfl

/-- A set or a map whose elements are ordered by a key. -/
def ordered [IsTrans κ lt] : Container { s : List α // OrderedSet.Ordered lt key s } α where
  elements c := c.1
  empty := ⟨[], .nil⟩
  push c x := ⟨OrderedSet.insert lt key x c.1, ordered_insert lt key c.2⟩
  rebuild c := by
    refine Subtype.ext ?_
    refine (List.foldl_hom Subtype.val fun _ _ => rfl).symm.trans (?_ : c.1.foldl
      (fun s x => OrderedSet.insert lt key x s) [] = c.1)
    rw [foldl_insert lt key (by rw [List.nil_append]; exact c.2), List.nil_append]

end Ordered

/-! ## Sets and maps without an order -/

section Unordered

variable {κ : Type u} [DecidableEq κ]

theorem foldl_finset (l : List κ) : ∀ s : Finset κ, l.foldl (fun s x => insert x s) s = s ∪ l.toFinset := by
  induction l with
  | nil => exact fun s => by simp
  | cons x l ih =>
    intro s
    rw [List.foldl_cons, ih, List.toFinset_cons, Finset.insert_union, Finset.union_insert]

/-- A set that is walked in the order `order`. -/
def unorderedSet (order : Finset κ → List κ) (h : ∀ s, (order s).toFinset = s) : Container (Finset κ) κ where
  elements := order
  empty := ∅
  push s x := insert x s
  rebuild s := by rw [foldl_finset, Finset.empty_union, h]

/-- An entry whose key is there is not inserted. -/
def tryInsert (m : Finmap fun _ : κ => α) (e : κ × α) : Finmap fun _ : κ => α := if e.1 ∈ m then m else m.insert e.1 e.2

theorem lookup_tryInsert {m : Finmap fun _ : κ => α} {e : κ × α} (he : e.1 ∉ m) {k : κ} {v : α} :
    (tryInsert m e).lookup k = some v ↔ m.lookup k = some v ∨ (k, v) = e := by
  rw [tryInsert, if_neg he]
  by_cases hk : k = e.1
  · subst hk
    rw [Finmap.lookup_insert, Finmap.lookup_eq_none.2 he, Prod.ext_iff]
    simp [eq_comm]
  · rw [Finmap.lookup_insert_of_ne _ hk, Prod.ext_iff]
    simp [hk]

theorem lookup_foldl {l : List (κ × α)} {k : κ} {v : α} : ∀ {m : Finmap fun _ : κ => α}, (l.map Prod.fst).Nodup →
    (∀ e ∈ l, e.1 ∉ m) → ((l.foldl tryInsert m).lookup k = some v ↔ m.lookup k = some v ∨ (k, v) ∈ l) := by
  induction l with
  | nil => exact fun _ _ => by simp
  | cons e l ih =>
    intro m hl hm
    obtain ⟨hhead, hl⟩ := List.nodup_cons.1 hl
    have he : e.1 ∉ m := hm e (List.mem_cons_self ..)
    have hrest : ∀ e' ∈ l, e'.1 ∉ tryInsert m e := by
      intro e' he' hmem
      rw [tryInsert, if_neg he] at hmem
      rcases Finmap.mem_insert.1 hmem with hkey | hmem
      · exact hhead (hkey ▸ List.mem_map.2 ⟨e', he', rfl⟩)
      · exact hm e' (List.mem_cons_of_mem _ he') hmem
    rw [List.foldl_cons, ih hl hrest, lookup_tryInsert he, List.mem_cons, or_assoc]

/-- A map that is walked in the order `order`. -/
def unorderedMap (order : Finmap (fun _ : κ => α) → List (κ × α))
    (hnodup : ∀ m, ((order m).map Prod.fst).Nodup) (h : ∀ m k v, (k, v) ∈ order m ↔ m.lookup k = some v) :
    Container (Finmap fun _ : κ => α) (κ × α) where
  elements := order
  empty := ∅
  push := tryInsert
  rebuild m := by
    refine Finmap.ext_lookup fun k => Option.ext fun v => ?_
    rw [lookup_foldl (hnodup m) fun e _ => Finmap.notMem_empty, h]
    simp

end Unordered

end Container
