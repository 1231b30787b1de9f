/-
The header map: assigning a new name inserts it at its place, so that the headers that are assigned, and not the order
in which they are, determine the map.
-/
import ServerFrame.Http.Request
import ServerFrame.Lib.SortedMap

namespace ServerFrame.Http

open SortedMap

instance : Std.Irrefl CaseInsensitiveLess := ⟨fun key => List.lt_irrefl (folded key)⟩

instance : IsTrans (List UInt8) CaseInsensitiveLess := ⟨fun _ _ _ => List.lt_trans⟩

/-- `CaseInsensitiveLess` orders the names by what `strcasecmp` sees of them. -/
theorem folds : Folds CaseInsensitiveLess folded where
  ne := by
    intro a b h heq
    unfold CaseInsensitiveLess at h
    rw [heq] at h
    exact List.lt_irrefl _ h
  or := by
    intro a b h
    by_contra hno
    rw [not_or] at hno
    exact h (Std.Trichotomous.trichotomous (r := fun a b : List UInt8 => a < b) _ _ hno.1 hno.2)

namespace MapType

/-- In the order of the map, without names that differ in case only. -/
abbrev Sorted (m : MapType) : Prop := SortedMap.Sorted CaseInsensitiveLess m

/-- The name is not in the map. -/
def Fresh (key : List UInt8) (m : MapType) : Prop := ∀ y ∈ m, folded y.1 ≠ folded key

/-- `m.erase(key)`. -/
def erase (key : List UInt8) (m : MapType) : MapType := SortedMap.erase CaseInsensitiveLess key m

/-- `*m.find(key)`. -/
def entry (key : List UInt8) (m : MapType) : Option (List UInt8 × List UInt8) :=
  SortedMap.entry CaseInsensitiveLess key m

theorem assign_eq (key val : List UInt8) (m : MapType) :
    m.assign key val = SortedMap.assign CaseInsensitiveLess key val m := by
  unfold assign SortedMap.assign
  cases OrderedSet.lowerBound CaseInsensitiveLess Prod.fst key m <;> rfl

theorem find_eq (key : List UInt8) (m : MapType) : m.find key = (m.entry key).map Prod.snd := by
  unfold find entry SortedMap.entry
  cases OrderedSet.lowerBound CaseInsensitiveLess Prod.fst key m with
  | nil => rfl
  | cons x xs =>
    dsimp only
    split <;> rfl

variable {m : MapType} {key val : List UInt8}

/-- Assigning new names in sequence. -/
theorem foldl_assign_spec {xs : MapType} (hm : Sorted m) (hnew : ∀ x ∈ xs, Fresh x.1 m)
    (hxs : xs.Pairwise fun x y => folded x.1 ≠ folded y.1) :
    Sorted (xs.foldl (fun m x => m.assign x.1 x.2) m) ∧
      ∀ y, y ∈ xs.foldl (fun m x => m.assign x.1 x.2) m ↔ y ∈ m ∨ y ∈ xs := by
  have hfun : (fun (m : MapType) (x : List UInt8 × List UInt8) => m.assign x.1 x.2) =
      fun m x => SortedMap.assign CaseInsensitiveLess x.1 x.2 m :=
    funext fun m => funext fun x => assign_eq x.1 x.2 m
  rw [hfun]
  exact foldl_assign_new folds hm hnew hxs

theorem find_fresh (hm : Sorted m) (h : Fresh key m) : m.find key = none := by
  rw [find_eq, entry, entry_new folds hm h]
  rfl

theorem find_mem (hm : Sorted m) (h : (key, val) ∈ m) : m.find key = some val := by
  have hentry : SortedMap.entry CaseInsensitiveLess key m = some (key, val) := (entry_eq_some folds hm).2 ⟨h, rfl⟩
  rw [find_eq, entry, hentry]
  rfl

end MapType

namespace HttpRequest

theorem foldl_setHeader (xs : MapType) (r : HttpRequest) : xs.foldl (fun r x => r.setHeader x.1 x.2) r =
    { r with headers := xs.foldl (fun m x => m.assign x.1 x.2) r.headers } := by
  induction xs generalizing r with
  | nil => rfl
  | cons x xs ih => rw [List.foldl_cons, ih, List.foldl_cons, setHeader]

end HttpRequest

end ServerFrame.Http
