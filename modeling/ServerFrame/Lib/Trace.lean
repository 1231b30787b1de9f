/-
The actions of a run. Where no transition has a priority the machine is in every state that its word leads to, and
what it does along a text is the events of its expression, in the order of their places and numbers.
-/
import ServerFrame.Lib.Events
import Mathlib.Data.List.Induction

namespace Ragel

variable {A : Type}

/-! ## Machines without priorities -/

namespace Expr

/-- No transition has a priority. -/
def unranked : Expr A → Bool
  | eps | char _ => true
  | seq e f | alt e f => e.unranked && f.unranked
  | star e => e.unranked
  | entering l e | finishing l e | leaving l e | all l e => l.priors.isEmpty && e.unranked

theorem priors_append {l m : Label A} : (l ++ m).priors = l.priors ++ m.priors := rfl

theorem unranked_outs : ∀ {e : Expr A}, e.unranked = true → e.outs.priors = []
  | eps, _ | char _, _ => rfl
  | seq e f, h => by
    rw [unranked, Bool.and_eq_true] at h
    rw [outs, priors_append, unranked_outs h.1, unranked_outs h.2]
    rfl
  | alt e f, h => by
    rw [unranked, Bool.and_eq_true] at h
    rw [outs, priors_append]
    split <;> split <;> simp [unranked_outs h.1, unranked_outs h.2]
  | star e, h => by
    rw [outs]
    split
    · exact unranked_outs (e := e) h
    · rfl
  | entering l e, h | leaving l e, h => by
    rw [unranked, Bool.and_eq_true, List.isEmpty_iff] at h
    rw [outs, priors_append, unranked_outs h.2, h.1]
    rfl
  | finishing l e, h | all l e, h => by
    rw [unranked, Bool.and_eq_true] at h
    exact unranked_outs (e := e) h.2

theorem unranked_andThen {e f : Expr A} (he : e.unranked = true) (hf : f.unranked = true) :
    (e.andThen f).unranked = true := by
  unfold andThen
  split
  · exact hf
  · simp [unranked, he, hf]

theorem unranked_next {c : UInt8} : ∀ {e : Expr A} {m : Label A × Expr A}, e.unranked = true → m ∈ e.next c →
    m.1.priors = [] ∧ m.2.unranked = true
  | eps, m, _, hm => by cases hm
  | char k, m, _, hm => by
    rw [next] at hm
    split at hm
    · rw [List.mem_singleton] at hm
      subst hm
      exact ⟨rfl, rfl⟩
    · cases hm
  | seq e f, m, h, hm => by
    rw [unranked, Bool.and_eq_true] at h
    rw [next, List.mem_append] at hm
    rcases hm with hm | hm
    · obtain ⟨m, hmf, rfl⟩ := List.mem_map.1 hm
      obtain ⟨h1, h2⟩ := unranked_next h.1 hmf
      exact ⟨h1, unranked_andThen h2 h.2⟩
    · split at hm
      · obtain ⟨m, hmf, rfl⟩ := List.mem_map.1 hm
        obtain ⟨h1, h2⟩ := unranked_next h.2 hmf
        refine ⟨?_, h2⟩
        rw [priors_append, h1, unranked_outs h.1]
        rfl
      · cases hm
  | alt e f, m, h, hm => by
    rw [unranked, Bool.and_eq_true] at h
    rw [next, List.mem_append] at hm
    rcases hm with hm | hm
    · exact unranked_next h.1 hm
    · exact unranked_next h.2 hm
  | star e, m, h, hm => by
    obtain ⟨m, hmf, rfl⟩ := List.mem_map.1 hm
    obtain ⟨h1, h2⟩ := unranked_next (e := e) h hmf
    exact ⟨h1, unranked_andThen h2 h⟩
  | entering l e, m, h, hm => by
    rw [unranked, Bool.and_eq_true, List.isEmpty_iff] at h
    obtain ⟨m, hmf, rfl⟩ := List.mem_map.1 hm
    obtain ⟨h1, h2⟩ := unranked_next h.2 hmf
    refine ⟨?_, h2⟩
    rw [priors_append, h.1, h1]
    rfl
  | finishing l e, m, h, hm => by
    rw [unranked, Bool.and_eq_true] at h
    obtain ⟨m, hmf, rfl⟩ := List.mem_map.1 hm
    obtain ⟨h1, h2⟩ := unranked_next h.2 hmf
    refine ⟨?_, by rw [unranked, h.1, h2]; rfl⟩
    simp only
    split
    · rw [priors_append, h1, List.isEmpty_iff.1 h.1]
      rfl
    · exact h1
  | leaving l e, m, h, hm => by
    rw [unranked, Bool.and_eq_true] at h
    obtain ⟨m, hmf, rfl⟩ := List.mem_map.1 hm
    obtain ⟨h1, h2⟩ := unranked_next h.2 hmf
    exact ⟨h1, by rw [unranked, h.1, h2]; rfl⟩
  | all l e, m, h, hm => by
    rw [unranked, Bool.and_eq_true] at h
    obtain ⟨m, hmf, rfl⟩ := List.mem_map.1 hm
    obtain ⟨h1, h2⟩ := unranked_next h.2 hmf
    refine ⟨?_, by rw [unranked, h.1, h2]; rfl⟩
    rw [priors_append, h1, List.isEmpty_iff.1 h.1]
    rfl

end Expr

/-! ## Runs -/

namespace State

variable [DecidableEq A]

/-- The state after a word. -/
def run (s : State A) (w : List UInt8) : State A := w.foldl (fun s c => s.step c) s

/-- The actions of a run over a text up to its end, each with its place, the first byte being at `p`. -/
def trace (s : State A) (p : Nat) : List UInt8 → List (Nat × A)
  | [] => s.eofActs.map (Prod.mk p)
  | c :: w => (s.acts c).map (Prod.mk p) ++ trace (s.step c) (p + 1) w

theorem run_snoc {s : State A} {w : List UInt8} {c : UInt8} : s.run (w ++ [c]) = (s.run w).step c := by
  rw [run, List.foldl_append]
  rfl

/-- A machine without priorities is in all the expressions its word leads to. -/
theorem mem_run {w : List UInt8} {e : Expr A} (he : e.unranked = true) :
    (∀ x, x ∈ State.run [e] w ↔ x ∈ e.reach w) ∧ ∀ x ∈ State.run [e] w, x.unranked = true := by
  induction w using List.reverseRecOn with
  | nil =>
    refine ⟨fun x => by rw [run, Expr.reach, List.foldl_nil], fun x hx => ?_⟩
    rw [run, List.foldl_nil, List.mem_singleton] at hx
    exact hx ▸ he
  | append_singleton w c ih =>
    have hstep : ∀ x, x ∈ State.run [e] (w ++ [c]) ↔ ∃ y ∈ State.run [e] w, ∃ m ∈ y.next c, m.2 = x := by
      intro x
      rw [run_snoc, mem_step]
      simp only [mem_moves fun y hy m hm => (Expr.unranked_next (ih.2 y hy) hm).1]
      constructor
      · rintro ⟨m, ⟨y, hy, hm⟩, rfl⟩
        exact ⟨y, hy, m, hm, rfl⟩
      · rintro ⟨y, hy, m, hm, rfl⟩
        exact ⟨m, ⟨y, hy, hm⟩, rfl⟩
    refine ⟨fun x => ?_, fun x hx => ?_⟩
    · rw [hstep, Expr.reach_snoc]
      simp only [ih.1]
    · obtain ⟨y, hy, m, hm, rfl⟩ := (hstep x).1 hx
      exact (Expr.unranked_next (ih.2 y hy) hm).2

omit [DecidableEq A] in
/-- A list in the order of its places, cut after the first place. -/
theorem filter_place {p : Nat} : ∀ {l : List (Nat × Nat × A)},
    l.Pairwise (fun y z => y.1 < z.1 ∨ y.1 = z.1 ∧ y.2.1 < z.2.1) → (∀ y ∈ l, p ≤ y.1) →
    l = l.filter (fun y => y.1 = p) ++ l.filter fun y => ¬ y.1 = p
  | [], _, _ => rfl
  | y :: l, hl, hp => by
    rw [List.pairwise_cons] at hl
    rw [List.forall_mem_cons] at hp
    by_cases hy : y.1 = p
    · rw [List.filter_cons_of_pos (by simpa using hy), List.filter_cons_of_neg (by simpa using hy), List.cons_append,
        ← filter_place hl.2 hp.2]
    · have hgt : ∀ z ∈ y :: l, ¬ z.1 = p := by
        intro z hz
        rcases List.mem_cons.1 hz with rfl | hz
        · exact hy
        · have := hl.1 z hz
          omega
      rw [List.filter_eq_nil_iff.2 fun z hz => by simpa using hgt z hz,
        List.filter_eq_self.2 fun z hz => by simpa using hgt z hz, List.nil_append]

omit [DecidableEq A] in
/-- Repeated elements are left out before an injection as well as behind it. -/
theorem map_eraseDups {α β : Type} [BEq α] [LawfulBEq α] [BEq β] [LawfulBEq β] {f : α → β} (hf : Function.Injective f) :
    ∀ l : List α, (l.map f).eraseDups = l.eraseDups.map f
  | [] => rfl
  | a :: l => by
    have hfilter : (l.map f).filter (fun b => !b == f a) = (l.filter fun b => !b == a).map f := by
      rw [List.filter_map]
      refine congrArg _ (List.filter_congr fun b _ => ?_)
      simp [hf.eq_iff]
    rw [List.map_cons, List.eraseDups_cons, List.eraseDups_cons, hfilter, map_eraseDups hf, List.map_cons]
termination_by l => l.length
decreasing_by exact Nat.lt_succ_of_le (List.length_filter_le ..)

/-- The actions along a text, in their order: the events of the expression, by place and number, where an action that
occurs several times at one place is done once. -/
theorem trace_eq {e : Expr A} (he : e.unranked = true) : ∀ {v u : List UInt8} {l : List (Nat × Nat × A)},
    l.Pairwise (fun y z => y.1 < z.1 ∨ y.1 = z.1 ∧ y.2.1 < z.2.1) →
    (∀ i x, (i, x) ∈ l ↔ u.length ≤ i ∧ Expr.Event x e (u ++ v) i) →
    trace (State.run [e] u) u.length v = (l.map fun y => (y.1, y.2.2)).eraseDups
  | [], u, l, hl, hmem => by
    have hplace : ∀ y ∈ l, y.1 = u.length ∧ Expr.Leaves y.2 e u := by
      intro y hy
      obtain ⟨hle, hev⟩ := (hmem y.1 y.2).1 hy
      rw [List.append_nil] at hev
      rcases hev with ⟨p, c, q, rfl, hp, -⟩ | ⟨h, hx⟩
      · rw [List.length_append, List.length_cons] at hle
        omega
      · exact ⟨h.symm, hx⟩
    have hsort : (l.map Prod.snd).Pairwise fun x y => x.1 < y.1 := by
      rw [List.pairwise_map]
      refine hl.imp_of_mem fun {y z} hy hz hyz => hyz.elim (fun h => ?_) And.right
      rw [(hplace y hy).1, (hplace z hz).1] at h
      exact absurd h (Nat.lt_irrefl _)
    -- at the end the leaving actions of the finished ways run, in the order of their numbers
    have heof : (State.run [e] u).eofActs = ((l.map Prod.snd).map Prod.snd).eraseDups := by
      rw [eofActs, numbered_eq hsort]
      intro x
      simp only [List.mem_map, List.mem_flatMap, List.mem_filter, (mem_run he).1]
      constructor
      · rintro ⟨y, hy, rfl⟩
        obtain ⟨z, hz, hfin, hx⟩ := (hplace y hy).2
        exact ⟨z, ⟨hz, hfin⟩, hx⟩
      · rintro ⟨z, ⟨hz, hfin⟩, hx⟩
        exact ⟨(u.length, x), (hmem _ _).2 ⟨le_rfl, .inr ⟨by simp, by simpa using ⟨z, hz, hfin, hx⟩⟩⟩, rfl⟩
    rw [trace, heof, ← map_eraseDups (Prod.mk_right_injective _), List.map_map, List.map_map]
    exact congrArg _ (List.map_congr_left fun y hy => by simp [(hplace y hy).1])
  | c :: v, u, l, hl, hmem => by
    have hplace : ∀ y ∈ l.filter (fun y => y.1 = u.length), y.1 = u.length := fun y hy => by
      simpa using (List.mem_filter.1 hy).2
    have hsort : ((l.filter fun y => y.1 = u.length).map Prod.snd).Pairwise fun x y => x.1 < y.1 := by
      rw [List.pairwise_map]
      refine (hl.filter _).imp_of_mem fun {y z} hy hz hyz => hyz.elim (fun h => ?_) And.right
      rw [hplace y hy, hplace z hz] at h
      exact absurd h (Nat.lt_irrefl _)
    -- the events at this place are the actions on its byte
    have hacts : (State.run [e] u).acts c =
        (((l.filter fun y => y.1 = u.length).map Prod.snd).map Prod.snd).eraseDups := by
      refine acts_eq hsort fun x => ?_
      have hcarries : (∃ m ∈ (State.run [e] u).moves c, x ∈ m.1.acts) ↔ Expr.Carries x e u c := by
        simp only [mem_moves fun y hy m hm => (Expr.unranked_next ((mem_run he).2 y hy) hm).1, (mem_run he).1]
        constructor
        · rintro ⟨m, ⟨y, hy, hm⟩, hx⟩
          exact ⟨y, hy, m, hm, hx⟩
        · rintro ⟨y, hy, m, hm, hx⟩
          exact ⟨m, ⟨y, hy, hm⟩, hx⟩
      rw [hcarries, List.mem_map]
      constructor
      · rintro ⟨⟨i, x⟩, hy, rfl⟩
        obtain ⟨hy, hi⟩ := List.mem_filter.1 hy
        obtain ⟨-, ⟨p, d, q, hw, hp, hx⟩ | ⟨hi', -⟩⟩ := (hmem i x).1 hy
        · obtain ⟨rfl, hcd⟩ := List.append_inj hw (by simpa [hp, eq_comm] using hi)
          cases hcd
          exact hx
        · simp only [decide_eq_true_eq] at hi
          rw [List.length_append, List.length_cons] at hi'
          omega
      · intro hx
        exact ⟨(u.length, x), List.mem_filter.2 ⟨(hmem _ _).2 ⟨le_rfl, .inl ⟨u, c, v, rfl, rfl, hx⟩⟩, by simp⟩, rfl⟩
    -- the later ones are those of the rest of the text
    have hrest := trace_eq he (v := v) (u := u ++ [c]) (l := l.filter fun y => ¬ y.1 = u.length)
        (hl.filter _) fun i x => by
      rw [List.mem_filter, hmem, List.length_append, List.length_singleton, List.append_assoc, List.singleton_append,
        decide_eq_true_eq]
      constructor
      · rintro ⟨⟨hle, hx⟩, hne⟩
        exact ⟨by omega, hx⟩
      · rintro ⟨hle, hx⟩
        exact ⟨⟨by omega, hx⟩, by omega⟩
    rw [run_snoc, List.length_append, List.length_singleton] at hrest
    conv_rhs => rw [filter_place hl fun y hy => ((hmem y.1 y.2).1 hy).1]
    -- what is done here is done nowhere else
    have happ : ((l.filter fun y => ¬ y.1 = u.length).map fun y => (y.1, y.2.2)).removeAll
        ((l.filter fun y => y.1 = u.length).map fun y => (y.1, y.2.2)) =
        (l.filter fun y => ¬ y.1 = u.length).map fun y => (y.1, y.2.2) := by
      rw [List.removeAll, List.filter_eq_self]
      intro z hz
      obtain ⟨y, hy, rfl⟩ := List.mem_map.1 hz
      have hne : ¬ y.1 = u.length := by simpa using (List.mem_filter.1 hy).2
      simp only [Bool.not_eq_true', List.elem_eq_mem, decide_eq_false_iff_not, List.mem_map, not_exists, not_and]
      intro y' hy' heq
      exact hne ((Prod.mk.inj heq).1.symm.trans (hplace y' hy'))
    rw [trace, hacts, hrest, List.map_append, List.eraseDups_append, happ, ← map_eraseDups (Prod.mk_right_injective _),
      List.map_map, List.map_map]
    congr 2
    exact List.map_congr_left fun y hy => by simp [hplace y hy]

end State

/-! ## Scripts -/

namespace Expr

/-- Events further on in the text. -/
def shift (k : Nat) (l : List (Nat × Nat × A)) : List (Nat × Nat × A) := l.map fun y => (k + y.1, y.2)

theorem mem_shift {k i : Nat} {x : Nat × A} {l : List (Nat × Nat × A)} :
    (i, x) ∈ shift k l ↔ ∃ j, i = k + j ∧ (j, x) ∈ l := by
  rw [shift, List.mem_map]
  constructor
  · rintro ⟨⟨j, x⟩, hj, h⟩
    cases h
    exact ⟨j, rfl, hj⟩
  · rintro ⟨j, rfl, hj⟩
    exact ⟨_, hj, rfl⟩

@[simp] theorem shift_nil {k : Nat} : shift k ([] : List (Nat × Nat × A)) = [] := rfl

@[simp] theorem shift_cons {k : Nat} {y : Nat × Nat × A} {l : List (Nat × Nat × A)} :
    shift k (y :: l) = (k + y.1, y.2) :: shift k l := rfl

@[simp] theorem shift_append {k : Nat} {l l' : List (Nat × Nat × A)} : shift k (l ++ l') = shift k l ++ shift k l' :=
  List.map_append

theorem shift_shift {k j : Nat} {l : List (Nat × Nat × A)} : shift k (shift j l) = shift (k + j) l := by
  simp [shift, Nat.add_assoc]

/-- `y` comes before `z`, by place and then by number. -/
def Earlier (y z : Nat × Nat × A) : Prop := y.1 < z.1 ∨ y.1 = z.1 ∧ y.2.1 < z.2.1

theorem sorted_shift {k : Nat} {l : List (Nat × Nat × A)} (h : l.Pairwise Earlier) : (shift k l).Pairwise Earlier := by
  rw [shift, List.pairwise_map]
  exact h.imp fun {y z} hyz => hyz.imp (Nat.add_lt_add_left · k) fun h => ⟨congrArg (k + ·) h.1, h.2⟩

/-- The events along the word, in order, under numbers from `lo` up to `hi`. -/
structure Script (e : Expr A) (w : List UInt8) (lo hi : Nat) (l : List (Nat × Nat × A)) : Prop where
  mem : ∀ i x, (i, x) ∈ l ↔ Event x e w i
  sorted : l.Pairwise Earlier
  place : ∀ y ∈ l, y.1 ≤ w.length
  number : ∀ y ∈ l, lo ≤ y.2.1 ∧ y.2.1 < hi

section Script

variable {e f g : Expr A} {u v w : List UInt8} {lo mid hi : Nat} {l l' : List (Nat × Nat × A)} {a : A}

theorem Script.of_plain (h : e.plain = true) : Script e w lo hi [] where
  mem i x := iff_of_false List.not_mem_nil (not_event_of_plain h)
  sorted := .nil
  place y hy := by cases hy
  number y hy := by cases hy

theorem Script.of_not_final (h : e.final = false) : Script e [] lo hi [] where
  mem i x := by
    refine iff_of_false List.not_mem_nil ?_
    rintro (⟨u, c, v, hw, -⟩ | ⟨-, hx⟩)
    · simp at hw
    · have hacc := accepts_of_leaves hx
      rw [accepts_nil, h] at hacc
      cases hacc
  sorted := .nil
  place y hy := by cases hy
  number y hy := by cases hy

theorem Script.mono {lo' hi' : Nat} (h : Script e w lo hi l) (hlo : lo' ≤ lo) (hhi : hi ≤ hi') :
    Script e w lo' hi' l where
  mem := h.mem
  sorted := h.sorted
  place := h.place
  number y hy := ⟨hlo.trans (h.number y hy).1, (h.number y hy).2.trans_le hhi⟩

theorem Script.of_event_iff (h : Script e w lo hi l) (hiff : ∀ i x, Event x f w i ↔ Event x e w i) :
    Script f w lo hi l where
  mem i x := (h.mem i x).trans (hiff i x).symm
  sorted := h.sorted
  place := h.place
  number := h.number

theorem Script.assoc (h : Script (seq e (seq f g)) w lo hi l) : Script (seq (seq e f) g) w lo hi l :=
  h.of_event_iff fun _ _ => event_assoc

theorem Script.alt_left (h : Script e w lo hi l) (hf : ∀ i x, ¬ Event x f w i) : Script (alt e f) w lo hi l :=
  h.of_event_iff fun i x => event_alt.trans (or_iff_left (hf i x))

theorem Script.seq (hc : Cut e f u v) (h : Script e u lo mid l) (h' : Script f v mid hi l') (hlo : lo ≤ mid)
    (hhi : mid ≤ hi) : Script (.seq e f) (u ++ v) lo hi (l ++ shift u.length l') where
  mem i x := by
    rw [List.mem_append, mem_shift, h.mem, event_seq hc]
    simp only [h'.mem]
  sorted := by
    rw [List.pairwise_append]
    refine ⟨h.sorted, ?_, ?_⟩
    · exact sorted_shift h'.sorted
    · rintro y hy ⟨i, x⟩ hz
      obtain ⟨j, rfl, hj⟩ := mem_shift.1 hz
      have h1 := h.place y hy
      have h2 := (h.number y hy).2
      have h3 := (h'.number _ hj).1
      unfold Earlier
      simp only at h3 ⊢
      omega
  place := by
    rintro ⟨i, x⟩ hy
    rw [List.length_append]
    rcases List.mem_append.1 hy with hy | hy
    · exact (h.place _ hy).trans (Nat.le_add_right _ _)
    · obtain ⟨j, rfl, hj⟩ := mem_shift.1 hy
      exact Nat.add_le_add_left (h'.place _ hj) _
  number := by
    rintro ⟨i, x⟩ hy
    rcases List.mem_append.1 hy with hy | hy
    · exact ⟨(h.number _ hy).1, (h.number _ hy).2.trans_le hhi⟩
    · obtain ⟨j, rfl, hj⟩ := mem_shift.1 hy
      exact ⟨hlo.trans (h'.number _ hj).1, (h'.number _ hj).2⟩

theorem Script.char_seq {k : ByteSet} {c : UInt8} (hk : k.has c = true) (hf : f.accepts v = true)
    (h : Script f v lo hi l) : Script (.seq (char k) f) (c :: v) lo hi (shift 1 l) where
  mem i x := by
    rw [mem_shift, event_char_seq hk hf]
    simp only [h.mem, Nat.add_comm]
  sorted := sorted_shift h.sorted
  place := by
    rintro ⟨i, x⟩ hy
    obtain ⟨j, rfl, hj⟩ := mem_shift.1 hy
    have := h.place _ hj
    rw [List.length_cons]
    simp only at this ⊢
    omega
  number := by
    rintro ⟨i, x⟩ hy
    obtain ⟨j, rfl, hj⟩ := mem_shift.1 hy
    exact h.number (j, x) hj

theorem Script.entering (h : Script e w (lo + 1) hi l) (he : e.accepts w = true) (hhi : lo < hi) :
    Script (.entering ⟨[(lo, a)], []⟩ e) w lo hi ((0, lo, a) :: l) where
  mem i x := by
    rw [event_entering he, List.mem_cons, h.mem, or_comm, Prod.mk.injEq, List.mem_singleton]
  sorted := by
    refine .cons (fun y hy => ?_) h.sorted
    have := (h.number y hy).1
    unfold Earlier
    simp only
    omega
  place := by
    rw [List.forall_mem_cons]
    exact ⟨Nat.zero_le _, h.place⟩
  number := by
    rw [List.forall_mem_cons]
    exact ⟨⟨le_rfl, hhi⟩, fun y hy => ⟨by have := (h.number y hy).1; omega, (h.number y hy).2⟩⟩

theorem Script.leaving (h : Script e w lo mid l) (he : e.accepts w = true) (hlo : lo ≤ mid) :
    Script (.leaving ⟨[(mid, a)], []⟩ e) w lo (mid + 1) (l ++ [(w.length, mid, a)]) where
  mem i x := by
    rw [event_leaving he, List.mem_append, h.mem, List.mem_singleton, Prod.mk.injEq, List.mem_singleton]
  sorted := by
    rw [List.pairwise_append]
    refine ⟨h.sorted, List.pairwise_singleton _ _, fun y hy z hz => ?_⟩
    rw [List.mem_singleton] at hz
    have h1 := h.place y hy
    have h2 := (h.number y hy).2
    unfold Earlier
    rw [hz]
    simp only
    omega
  place := by
    intro y hy
    rcases List.mem_append.1 hy with hy | hy
    · exact h.place y hy
    · rw [List.mem_singleton] at hy
      rw [hy]
  number := by
    intro y hy
    rcases List.mem_append.1 hy with hy | hy
    · exact ⟨(h.number y hy).1, (h.number y hy).2.trans (Nat.lt_succ_self _)⟩
    · rw [List.mem_singleton] at hy
      rw [hy]
      exact ⟨hlo, Nat.lt_succ_self _⟩

/-- A plain part whose text is marked at its start and taken at its end. -/
theorem Script.field {b : A} (hp : e.plain = true) (he : e.accepts w = true) :
    Script (.leaving ⟨[(lo + 1, b)], []⟩ (.entering ⟨[(lo, a)], []⟩ e)) w lo (lo + 2)
      [(0, lo, a), (w.length, lo + 1, b)] := by
  have hplain : Script e w (lo + 1) (lo + 1) [] := .of_plain hp
  exact (hplain.entering he (Nat.lt_succ_self _)).leaving (by rwa [accepts_entering]) (Nat.le_succ _)

/-- What a machine does along a text is the script of its expression. -/
theorem Script.trace_eq [DecidableEq A] (he : e.unranked = true) (h : Script e w lo hi l) :
    State.trace [e] 0 w = (l.map fun y => (y.1, y.2.2)).eraseDups :=
  State.trace_eq he (u := []) h.sorted fun i x => by
    rw [h.mem]
    exact (and_iff_right (Nat.zero_le _)).symm

end Script

end Expr

end Ragel
