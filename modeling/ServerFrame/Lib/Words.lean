/-
Words through a machine: the expressions that a word leads to, which bytes an expression can read at all, and the
machine inside one part of a concatenation, where its states are those of the part with the rest of the concatenation
after them.
-/
import ServerFrame.Lib.Ragel
import Mathlib.Data.Set.Basic

namespace Ragel

variable {A : Type}

/-- A property of all bytes is one of finitely many numbers. -/
theorem forall_byte {P : UInt8 → Prop} (h : ∀ i : Fin 256, P (UInt8.ofNat i.1)) (c : UInt8) : P c := by
  have hc := h ⟨c.toNat, c.toNat_lt⟩
  rwa [UInt8.ofNat_toNat] at hc

theorem Label.append_nil (l : Label A) : l ++ ({} : Label A) = l := by
  obtain ⟨acts, priors⟩ := l
  show (⟨acts ++ [], priors ++ []⟩ : Label A) = ⟨acts, priors⟩
  rw [List.append_nil, List.append_nil]

theorem ByteSet.has_byte {n : Nat} {c : UInt8} (hn : n < 256) :
    (ByteSet.byte n).has c = decide (c = UInt8.ofNat n) := by
  have hc := c.toNat_lt
  have heq : c = UInt8.ofNat n ↔ c.toNat = n := by rw [← UInt8.toNat_inj, UInt8.toNat_ofNat_of_lt' hn]
  rw [has, byte, BitVec.getLsbD_shiftLeft, BitVec.getLsbD_one, Bool.eq_iff_iff, decide_eq_true_eq, heq]
  simp only [Bool.and_eq_true, decide_eq_true_eq, Bool.not_eq_true', decide_eq_false_iff_not]
  omega

namespace Expr

/-! ## Concatenation -/

@[simp] theorem next_andThen (c : UInt8) (e f : Expr A) : (e.andThen f).next c = (seq e f).next c := by
  cases e with
  | eps =>
    show f.next c = [] ++ (f.next c).map fun m => (m.1, m.2)
    simp
  | _ => rfl

@[simp] theorem final_andThen (e f : Expr A) : (e.andThen f).final = (e.final && f.final) := by
  cases e <;> rfl

/-- What follows a part that is not used up takes no part in its transitions. -/
theorem next_foldl_andThen {c : UInt8} {e : Expr A} (he : e.final = false) (fs : List (Expr A)) :
    (fs.foldl andThen e).next c = (e.next c).map fun m => (m.1, fs.foldl andThen m.2) := by
  induction fs generalizing e with
  | nil => simp
  | cons f fs ih =>
    have hef : (e.andThen f).final = false := by simp [he]
    rw [List.foldl_cons, ih hef, next_andThen, next, he, if_neg Bool.false_ne_true, List.append_nil, List.map_map]
    rfl

theorem final_foldl_andThen (e : Expr A) (fs : List (Expr A)) :
    (fs.foldl andThen e).final = (e.final && fs.all final) := by
  induction fs generalizing e with
  | nil => simp
  | cons f fs ih => rw [List.foldl_cons, ih, final_andThen, List.all_cons, Bool.and_assoc]

/-! ## Words -/

/-- The expressions that a word leads to. -/
def reach : List UInt8 → Expr A → List (Expr A)
  | [], e => [e]
  | c :: w, e => (e.next c).flatMap fun m => m.2.reach w

/-- The language of the expression. -/
def accepts (e : Expr A) (w : List UInt8) : Bool := (e.reach w).any final

theorem reach_cons {c : UInt8} {w : List UInt8} {e x : Expr A} :
    x ∈ e.reach (c :: w) ↔ ∃ m ∈ e.next c, x ∈ m.2.reach w := by
  rw [reach, List.mem_flatMap]

theorem reach_append {u v : List UInt8} {e x : Expr A} : x ∈ e.reach (u ++ v) ↔ ∃ y ∈ e.reach u, x ∈ y.reach v := by
  induction u generalizing e with
  | nil => simp [reach]
  | cons c u ih =>
    rw [List.cons_append, reach_cons]
    simp only [reach_cons, ih]
    constructor
    · rintro ⟨m, hm, y, hy, h⟩
      exact ⟨y, ⟨m, hm, hy⟩, h⟩
    · rintro ⟨y, ⟨m, hm, hy⟩, h⟩
      exact ⟨m, hm, y, hy, h⟩

theorem reach_snoc {c : UInt8} {w : List UInt8} {e x : Expr A} :
    x ∈ e.reach (w ++ [c]) ↔ ∃ y ∈ e.reach w, ∃ m ∈ y.next c, m.2 = x := by
  simp [reach_append, reach, eq_comm]

theorem accepts_append {u v : List UInt8} {e : Expr A} :
    e.accepts (u ++ v) = true ↔ ∃ y ∈ e.reach u, y.accepts v = true := by
  simp only [accepts, List.any_eq_true, reach_append]
  constructor
  · rintro ⟨x, ⟨y, hy, hx⟩, hf⟩
    exact ⟨y, hy, x, hx, hf⟩
  · rintro ⟨y, hy, x, hx, hf⟩
    exact ⟨x, ⟨y, hy, hx⟩, hf⟩

theorem accepts_cons {c : UInt8} {w : List UInt8} {e : Expr A} :
    e.accepts (c :: w) = true ↔ ∃ m ∈ e.next c, m.2.accepts w = true := by
  simp only [accepts, List.any_eq_true, reach_cons]
  constructor
  · rintro ⟨x, ⟨m, hm, hx⟩, hf⟩
    exact ⟨m, hm, x, hx, hf⟩
  · rintro ⟨m, hm, x, hx, hf⟩
    exact ⟨x, ⟨m, hm, hx⟩, hf⟩

theorem accepts_nil {e : Expr A} : e.accepts [] = e.final := by simp [accepts, reach]

theorem accepts_alt {w : List UInt8} {e f : Expr A} (h : (alt e f).accepts w = true) :
    e.accepts w = true ∨ f.accepts w = true := by
  cases w with
  | nil => simpa [accepts_nil, final] using h
  | cons c w =>
    obtain ⟨m, hm, h⟩ := accepts_cons.1 h
    rw [next, List.mem_append] at hm
    rcases hm with hm | hm
    · exact .inl (accepts_cons.2 ⟨m, hm, h⟩)
    · exact .inr (accepts_cons.2 ⟨m, hm, h⟩)

theorem accepts_andThen {w : List UInt8} {e f : Expr A} (h : (e.andThen f).accepts w = true) :
    ∃ u v, w = u ++ v ∧ e.accepts u = true ∧ f.accepts v = true := by
  induction w generalizing e with
  | nil =>
    rw [accepts_nil, final_andThen, Bool.and_eq_true] at h
    exact ⟨[], [], rfl, by rw [accepts_nil]; exact h.1, by rw [accepts_nil]; exact h.2⟩
  | cons c w ih =>
    obtain ⟨m, hm, h⟩ := accepts_cons.1 h
    rw [next_andThen, next, List.mem_append] at hm
    rcases hm with hm | hm
    · obtain ⟨m, hmf, rfl⟩ := List.mem_map.1 hm
      obtain ⟨u, v, rfl, hu, hv⟩ := ih h
      exact ⟨c :: u, v, rfl, accepts_cons.2 ⟨m, hmf, hu⟩, hv⟩
    · split at hm
      · rename_i he
        obtain ⟨m, hmf, rfl⟩ := List.mem_map.1 hm
        exact ⟨[], c :: w, rfl, by rw [accepts_nil]; exact he, accepts_cons.2 ⟨m, hmf, h⟩⟩
      · cases hm

/-- An embedding does not change the language. -/
theorem accepts_leaving {l : Label A} {e : Expr A} {w : List UInt8} : (leaving l e).accepts w = e.accepts w := by
  induction w generalizing e with
  | nil => rw [accepts_nil, accepts_nil, final]
  | cons c w ih =>
    rw [Bool.eq_iff_iff, accepts_cons, accepts_cons, next]
    simp [ih]

theorem accepts_entering {l : Label A} {e : Expr A} {w : List UInt8} : (entering l e).accepts w = e.accepts w := by
  cases w with
  | nil => rw [accepts_nil, accepts_nil, final]
  | cons c w =>
    rw [Bool.eq_iff_iff, accepts_cons, accepts_cons, next]
    constructor
    · rintro ⟨_, hm, h⟩
      obtain ⟨n, hn, rfl⟩ := List.mem_map.1 hm
      exact ⟨n, hn, h⟩
    · rintro ⟨n, hn, h⟩
      exact ⟨_, List.mem_map_of_mem hn, h⟩

/-- The expressions that a word leads to, in a context. -/
def around (F : Expr A → Expr A) (e : Expr A) (w : List UInt8) : Set (Expr A) := fun x => ∃ y ∈ e.reach w, x = F y

theorem mem_around {F : Expr A → Expr A} {e x : Expr A} {w : List UInt8} :
    x ∈ around F e w ↔ ∃ y ∈ e.reach w, x = F y := Iff.rfl

theorem around_nonempty {F : Expr A → Expr A} {e : Expr A} {u v : List UInt8} (h : e.accepts (u ++ v) = true) :
    (around F e u).Nonempty := by
  obtain ⟨y, hy, -⟩ := accepts_append.1 h
  exact ⟨F y, y, hy, rfl⟩

/-! ## Expressions without embeddings -/

/-- Nothing is embedded in the expression. -/
def plain : Expr A → Bool
  | eps | char _ => true
  | seq e f | alt e f => e.plain && f.plain
  | star e => e.plain
  | entering .. | finishing .. | leaving .. | all .. => false

theorem plain_andThen {e f : Expr A} (he : e.plain = true) (hf : f.plain = true) : (e.andThen f).plain = true := by
  unfold andThen
  split
  · exact hf
  · simp [plain, he, hf]

theorem plain_outs : ∀ {e : Expr A}, e.plain = true → e.outs = {}
  | eps, _ | char _, _ => rfl
  | seq e f, h => by
    rw [plain, Bool.and_eq_true] at h
    rw [outs, plain_outs h.1, plain_outs h.2]
    rfl
  | alt e f, h => by
    rw [plain, Bool.and_eq_true] at h
    rw [outs, plain_outs h.1, plain_outs h.2]
    simp only [ite_self]
    rfl
  | star e, h => by
    rw [outs, plain_outs (e := e) h, ite_self]

theorem plain_next {c : UInt8} : ∀ {e : Expr A} {m : Label A × Expr A}, e.plain = true → m ∈ e.next c →
    m.1 = {} ∧ m.2.plain = true
  | eps, m, _, hm => by cases hm
  | char k, m, _, hm => by
    rw [next] at hm
    split at hm
    · rw [List.mem_singleton] at hm
      subst hm
      exact ⟨rfl, rfl⟩
    · cases hm
  | seq e f, m, h, hm => by
    rw [plain, Bool.and_eq_true] at h
    rw [next, List.mem_append] at hm
    rcases hm with hm | hm
    · obtain ⟨m, hmf, rfl⟩ := List.mem_map.1 hm
      obtain ⟨h1, h2⟩ := plain_next h.1 hmf
      exact ⟨h1, plain_andThen h2 h.2⟩
    · split at hm
      · obtain ⟨m, hmf, rfl⟩ := List.mem_map.1 hm
        obtain ⟨h1, h2⟩ := plain_next h.2 hmf
        refine ⟨?_, h2⟩
        rw [h1, plain_outs h.1]
        rfl
      · cases hm
  | alt e f, m, h, hm => by
    rw [plain, Bool.and_eq_true] at h
    rw [next, List.mem_append] at hm
    rcases hm with hm | hm
    · exact plain_next h.1 hm
    · exact plain_next h.2 hm
  | star e, m, h, hm => by
    obtain ⟨m, hmf, rfl⟩ := List.mem_map.1 hm
    obtain ⟨h1, h2⟩ := plain_next (e := e) h hmf
    exact ⟨h1, plain_andThen h2 h⟩

theorem plain_reach {w : List UInt8} {e x : Expr A} (h : e.plain = true) (hx : x ∈ e.reach w) : x.plain = true := by
  induction w generalizing e with
  | nil =>
    rw [reach, List.mem_singleton] at hx
    exact hx ▸ h
  | cons c w ih =>
    obtain ⟨m, hm, hx⟩ := reach_cons.1 hx
    exact ih (plain_next h hm).2 hx

/-! ## The bytes an expression can read -/

/-- The byte occurs in the expression. -/
def reads (c : UInt8) : Expr A → Bool
  | eps => false
  | char k => k.has c
  | seq e f | alt e f => e.reads c || f.reads c
  | star e | entering _ e | finishing _ e | leaving _ e | all _ e => e.reads c

theorem reads_andThen {c : UInt8} {e f : Expr A} (h : (e.andThen f).reads c = true) :
    e.reads c = true ∨ f.reads c = true := by
  unfold andThen at h
  split at h
  · exact .inr h
  · simpa [reads] using h

/-- A transition reads a byte of the expression and leads to one with no other bytes. -/
theorem reads_next {c d : UInt8} : ∀ {e : Expr A} {m : Label A × Expr A}, m ∈ e.next c →
    e.reads c = true ∧ (m.2.reads d = true → e.reads d = true)
  | eps, m, hm => by cases hm
  | char k, m, hm => by
    rw [next] at hm
    split at hm
    · rename_i hk
      rw [List.mem_singleton] at hm
      subst hm
      exact ⟨hk, fun h => by cases h⟩
    · cases hm
  | seq e f, m, hm => by
    rw [next, List.mem_append] at hm
    simp only [reads, Bool.or_eq_true]
    rcases hm with hm | hm
    · obtain ⟨m, hmf, rfl⟩ := List.mem_map.1 hm
      obtain ⟨h1, h2⟩ := reads_next (d := d) hmf
      refine ⟨.inl h1, fun h => ?_⟩
      exact (reads_andThen h).imp h2 id
    · split at hm
      · obtain ⟨m, hmf, rfl⟩ := List.mem_map.1 hm
        obtain ⟨h1, h2⟩ := reads_next (d := d) hmf
        exact ⟨.inr h1, fun h => .inr (h2 h)⟩
      · cases hm
  | alt e f, m, hm => by
    rw [next, List.mem_append] at hm
    simp only [reads, Bool.or_eq_true]
    rcases hm with hm | hm
    · obtain ⟨h1, h2⟩ := reads_next (d := d) hm
      exact ⟨.inl h1, fun h => .inl (h2 h)⟩
    · obtain ⟨h1, h2⟩ := reads_next (d := d) hm
      exact ⟨.inr h1, fun h => .inr (h2 h)⟩
  | star e, m, hm => by
    obtain ⟨m, hmf, rfl⟩ := List.mem_map.1 hm
    obtain ⟨h1, h2⟩ := reads_next (d := d) hmf
    refine ⟨h1, fun h => ?_⟩
    rcases reads_andThen h with h | h
    · exact h2 h
    · exact h
  | entering l e, m, hm | finishing l e, m, hm | leaving l e, m, hm | all l e, m, hm => by
    obtain ⟨m, hmf, rfl⟩ := List.mem_map.1 hm
    obtain ⟨h1, h2⟩ := reads_next (d := d) hmf
    exact ⟨h1, h2⟩

theorem reads_reach {c : UInt8} {w : List UInt8} {e x : Expr A} (hx : x ∈ e.reach w) (h : x.reads c = true) :
    e.reads c = true := by
  induction w generalizing e with
  | nil =>
    rw [reach, List.mem_singleton] at hx
    exact hx ▸ h
  | cons d w ih =>
    obtain ⟨m, hm, hx⟩ := reach_cons.1 hx
    exact (reads_next hm).2 (ih hx)

/-- After any word, a byte that does not occur cannot be read. -/
theorem next_eq_nil {c : UInt8} {w : List UInt8} {e x : Expr A} (h : e.reads c = false) (hx : x ∈ e.reach w) :
    x.next c = [] := by
  rw [List.eq_nil_iff_forall_not_mem]
  intro m hm
  rw [reads_reach hx (reads_next (d := c) hm).1] at h
  cases h

theorem reads_of_accepts {e : Expr A} {w : List UInt8} (h : e.accepts w = true) : ∀ c ∈ w, e.reads c = true := by
  induction w generalizing e with
  | nil =>
    intro c hc
    cases hc
  | cons d w ih =>
    obtain ⟨m, hm, h⟩ := accepts_cons.1 h
    intro c hc
    rcases List.mem_cons.1 hc with rfl | hc
    · exact (reads_next (d := c) hm).1
    · exact (reads_next hm).2 (ih h c hc)

/-- The whole machine while it is in the part `e`, with `fs` to follow and `d` embedded at its end. -/
def within (d : Label A) (fs : List (Expr A)) (e : Expr A) : Expr A := finishing d (fs.foldl andThen e)

/-- The transitions of the whole machine: those of the part, and those out of it into the next one. -/
theorem next_within {d : Label A} {c : UInt8} {e f : Expr A} {fs : List (Expr A)} (hf : f.final = false)
    (hfs : fs.all final = false) :
    (within d (f :: fs) e).next c = (e.next c).map (fun m => (m.1, within d (f :: fs) m.2)) ++
      if e.final then (f.next c).map (fun m => (e.outs ++ m.1, within d fs m.2)) else [] := by
  have hef : (e.andThen f).final = false := by simp [hf]
  have hopen : ∀ x : Expr A, (fs.foldl andThen x).final = false := fun x => by simp [final_foldl_andThen, hfs]
  rw [within, next, List.foldl_cons, next_foldl_andThen hef, next_andThen, next, List.map_map, List.map_append,
    List.map_map]
  congr 1
  · simp [Function.comp_def, hopen, within]
  · split <;> simp [Function.comp_def, hopen, within]

end Expr

/-! ## The machine in one part -/

namespace State

variable [DecidableEq A]

omit [DecidableEq A] in
theorem nodup_eraseDups {α : Type} [BEq α] [LawfulBEq α] (l : List α) : l.eraseDups.Nodup := by
  induction hn : l.length using Nat.strongRecOn generalizing l with
  | ind n ih =>
    cases l with
    | nil => exact List.nodup_nil
    | cons a l =>
      have hlen := List.length_filter_le (fun b => !b == a) l
      rw [List.eraseDups_cons, List.nodup_cons, List.mem_eraseDups]
      refine ⟨by simp, ih _ ?_ _ rfl⟩
      simp only [List.length_cons] at hn
      omega

omit [DecidableEq A] in
theorem eraseDups_eq_self {α : Type} [BEq α] [LawfulBEq α] {l : List α} (h : l.Nodup) : l.eraseDups = l := by
  induction l with
  | nil => rfl
  | cons a l ih =>
    rw [List.nodup_cons] at h
    have hself : (l.filter fun b => !b == a) = l :=
      List.filter_eq_self.2 fun b hb => by simpa using fun hba : b = a => h.1 (hba ▸ hb)
    rw [List.eraseDups_cons, hself, ih h.2]

/-- A list in the order of its numbers, given as a set. -/
theorem numbered_eq {l l' : List (Nat × A)} (hl : l.Pairwise fun x y => x.1 < y.1) (h : ∀ x, x ∈ l ↔ x ∈ l') :
    (l'.eraseDups.insertionSort fun x y => x.1 ≤ y.1) = l := by
  have hmem : ∀ x, x ∈ l'.eraseDups ↔ x ∈ l := by
    intro x
    rw [List.mem_eraseDups, h]
  have hnodup : l.Nodup := hl.imp fun {x y} hxy heq => by
    subst heq
    exact Nat.lt_irrefl _ hxy
  have hperm : (l'.eraseDups.insertionSort fun x y => x.1 ≤ y.1).Perm l :=
    (List.perm_insertionSort _ _).trans ((List.perm_ext_iff_of_nodup (nodup_eraseDups _) hnodup).2 hmem)
  have hinj : ∀ x ∈ l, ∀ y ∈ l, x.1 = y.1 → x = y := by
    intro x hx y hy hxy
    obtain ⟨i, hi, rfl⟩ := List.mem_iff_getElem.1 hx
    obtain ⟨j, hj, rfl⟩ := List.mem_iff_getElem.1 hy
    rw [List.pairwise_iff_getElem] at hl
    rcases Nat.lt_trichotomy i j with h | h | h
    · exact absurd hxy (Nat.ne_of_lt (hl i j hi hj h))
    · subst h
      rfl
    · exact absurd hxy.symm (Nat.ne_of_lt (hl j i hj hi h))
  refine hperm.eq_of_pairwise ?_ (pairwise_number _) (hl.imp fun h => Nat.le_of_lt h)
  intro x y hx hy hxy hyx
  exact hinj x (hperm.mem_iff.1 hx) y hy (Nat.le_antisymm hxy hyx)

/-- The actions of a transition, given as a set. -/
theorem acts_eq {c : UInt8} {s : State A} {l : List (Nat × A)} (hl : l.Pairwise fun x y => x.1 < y.1)
    (h : ∀ x, x ∈ l ↔ ∃ m ∈ s.moves c, x ∈ m.1.acts) : s.acts c = (l.map Prod.snd).eraseDups := by
  rw [acts, numbered_eq hl fun x => by rw [List.mem_flatMap, h]]

omit [DecidableEq A] in
/-- Where no transition has a priority, all are taken. -/
theorem mem_moves {c : UInt8} {s : State A} (h : ∀ e ∈ s, ∀ m ∈ e.next c, m.1.priors = []) {m : Label A × Expr A} :
    m ∈ s.moves c ↔ ∃ e ∈ s, m ∈ e.next c := by
  rw [moves, List.mem_filter, List.mem_flatMap]
  refine and_iff_left_of_imp ?_
  rintro ⟨e, he, hm⟩
  simp [outranks, h e he m hm]

/-- The states are those of `R` with `fs` to follow. -/
def Among (d : Label A) (fs : List (Expr A)) (R : Set (Expr A)) (s : State A) : Prop :=
  ∀ x, x ∈ s ↔ ∃ e ∈ R, x = Expr.within d fs e

section Among

variable {d : Label A} {f : Expr A} {fs : List (Expr A)} {R : Set (Expr A)} {s : State A} {c : UInt8}

omit [DecidableEq A] in
/-- The transitions of a machine that is in one part. -/
theorem Among.mem_moves (h : Among d (f :: fs) R s) (hf : f.final = false) (hfs : fs.all Expr.final = false)
    (hin : ∀ e ∈ R, ∀ m ∈ e.next c, m.1.priors = [])
    (hout : ∀ e ∈ R, e.final = true → ∀ m ∈ f.next c, (e.outs ++ m.1).priors = []) {m : Label A × Expr A} :
    m ∈ s.moves c ↔
      (∃ e ∈ R, ∃ n ∈ e.next c, m = (n.1, .within d (f :: fs) n.2)) ∨
      ∃ e ∈ R, e.final = true ∧ ∃ n ∈ f.next c, m = (e.outs ++ n.1, .within d fs n.2) := by
  have hnext : ∀ {e m}, m ∈ (Expr.within d (f :: fs) e).next c ↔
      (∃ n ∈ e.next c, m = (n.1, .within d (f :: fs) n.2)) ∨
      e.final = true ∧ ∃ n ∈ f.next c, m = (e.outs ++ n.1, .within d fs n.2) := by
    intro e m
    rw [Expr.next_within hf hfs, List.mem_append, List.mem_map]
    split
    · simp [*, eq_comm]
    · simp [*, eq_comm]
  have hpri : ∀ x ∈ s, ∀ m ∈ x.next c, m.1.priors = [] := by
    intro x hx m hm
    obtain ⟨e, he, rfl⟩ := (h x).1 hx
    rcases hnext.1 hm with ⟨n, hn, rfl⟩ | ⟨hfin, n, hn, rfl⟩
    · exact hin e he n hn
    · exact hout e he hfin n hn
  rw [State.mem_moves hpri]
  constructor
  · rintro ⟨x, hx, hm⟩
    obtain ⟨e, he, rfl⟩ := (h x).1 hx
    rcases hnext.1 hm with hm | ⟨hfin, hm⟩
    · exact .inl ⟨e, he, hm⟩
    · exact .inr ⟨e, he, hfin, hm⟩
  · rintro (⟨e, he, hm⟩ | ⟨e, he, hfin, hm⟩)
    · exact ⟨_, (h _).2 ⟨e, he, rfl⟩, hnext.2 (.inl hm)⟩
    · exact ⟨_, (h _).2 ⟨e, he, rfl⟩, hnext.2 (.inr ⟨hfin, hm⟩)⟩

/-- A byte that cannot begin what follows: the machine stays in the part. -/
theorem Among.stay (h : Among d (f :: fs) R s) (hf : f.final = false) (hfs : fs.all Expr.final = false)
    (hc : f.next c = []) {R' : Set (Expr A)} {l : List (Nat × A)} (hl : l.Pairwise fun x y => x.1 < y.1)
    (hin : ∀ e ∈ R, ∀ m ∈ e.next c, m.1.priors = [])
    (hR : ∀ x, x ∈ R' ↔ ∃ e ∈ R, ∃ m ∈ e.next c, m.2 = x)
    (hacts : ∀ x, x ∈ l ↔ ∃ e ∈ R, ∃ m ∈ e.next c, x ∈ m.1.acts) :
    Among d (f :: fs) R' (s.step c) ∧ s.acts c = (l.map Prod.snd).eraseDups := by
  have hmoves : ∀ {m}, m ∈ s.moves c ↔ ∃ e ∈ R, ∃ n ∈ e.next c, m = (n.1, Expr.within d (f :: fs) n.2) := by
    intro m
    rw [h.mem_moves hf hfs hin (by simp [hc])]
    simp [hc]
  refine ⟨fun x => ?_, acts_eq hl fun x => ?_⟩
  · rw [mem_step]
    constructor
    · rintro ⟨m, hm, rfl⟩
      obtain ⟨e, he, n, hn, rfl⟩ := hmoves.1 hm
      exact ⟨n.2, (hR _).2 ⟨e, he, n, hn, rfl⟩, rfl⟩
    · rintro ⟨y, hy, rfl⟩
      obtain ⟨e, he, n, hn, rfl⟩ := (hR y).1 hy
      exact ⟨_, hmoves.2 ⟨e, he, n, hn, rfl⟩, rfl⟩
  · rw [hacts]
    constructor
    · rintro ⟨e, he, n, hn, hx⟩
      exact ⟨_, hmoves.2 ⟨e, he, n, hn, rfl⟩, hx⟩
    · rintro ⟨m, hm, hx⟩
      obtain ⟨e, he, n, hn, rfl⟩ := hmoves.1 hm
      exact ⟨e, he, n, hn, hx⟩

/-- A byte that the part cannot read: the machine leaves it for what follows. -/
theorem Among.leave (h : Among d (f :: fs) R s) (hf : f.final = false) (hfs : fs.all Expr.final = false)
    (hc : ∀ e ∈ R, e.next c = []) {o : Label A} {g : Expr A} (ho : ∀ e ∈ R, e.final = true → e.outs = o)
    (hfin : ∃ e ∈ R, e.final = true) (hg : f.next c = [({}, g)]) (hp : o.priors = [])
    (hl : o.acts.Pairwise fun x y => x.1 < y.1) :
    Among d fs {g} (s.step c) ∧ s.acts c = (o.acts.map Prod.snd).eraseDups := by
  have hout : ∀ e ∈ R, e.final = true → ∀ m ∈ f.next c, e.outs ++ m.1 = o := by
    intro e he hef m hm
    rw [hg, List.mem_singleton] at hm
    rw [hm, ho e he hef, Label.append_nil]
  have hmoves : ∀ {m}, m ∈ s.moves c ↔ m = (o, Expr.within d fs g) := by
    intro m
    rw [h.mem_moves hf hfs (fun e he m hm => by simp [hc e he] at hm)
      (fun e he hef m hm => by rw [hout e he hef m hm, hp])]
    constructor
    · rintro (⟨e, he, n, hn, -⟩ | ⟨e, he, hef, n, hn, rfl⟩)
      · simp [hc e he] at hn
      · rw [hout e he hef n hn]
        rw [hg, List.mem_singleton] at hn
        rw [hn]
    · rintro rfl
      obtain ⟨e, he, hef⟩ := hfin
      have hmem : (({} : Label A), g) ∈ f.next c := by simp [hg]
      exact .inr ⟨e, he, hef, _, hmem, by rw [hout e he hef _ hmem]⟩
  refine ⟨fun x => ?_, acts_eq hl fun x => ?_⟩
  · rw [mem_step]
    simp only [hmoves, exists_eq_left, Set.mem_singleton_iff]
    exact eq_comm
  · simp only [hmoves, exists_eq_left]

/-- A byte on which all transitions are the same one. -/
theorem Among.turn (h : Among d (f :: fs) R s) (hf : f.final = false) (hfs : fs.all Expr.final = false)
    (hc : f.next c = []) {l : Label A} {g : Expr A} (hall : ∀ e ∈ R, ∀ m ∈ e.next c, m = (l, g))
    (hsome : ∃ e ∈ R, (l, g) ∈ e.next c) (hp : l.priors = []) (hl : l.acts.Pairwise fun x y => x.1 < y.1) :
    Among d (f :: fs) {g} (s.step c) ∧ s.acts c = (l.acts.map Prod.snd).eraseDups := by
  obtain ⟨e, he, hm⟩ := hsome
  refine h.stay hf hfs hc hl (fun e he m hm => by rw [hall e he m hm, hp]) (fun x => ?_) (fun x => ?_)
  · rw [Set.mem_singleton_iff]
    constructor
    · rintro rfl
      exact ⟨e, he, _, hm, rfl⟩
    · rintro ⟨e', he', m, hm', rfl⟩
      rw [hall e' he' m hm']
  · constructor
    · exact fun hx => ⟨e, he, _, hm, hx⟩
    · rintro ⟨e', he', m, hm', hx⟩
      rw [hall e' he' m hm'] at hx
      exact hx

/-- The first byte of an expression in a context `F`, at which `g` is entered. -/
theorem Among.enter {g e : Expr A} {F : Expr A → Expr A} {x : Nat × A} (h : Among d (f :: fs) {g} s)
    (hf : f.final = false) (hfs : fs.all Expr.final = false) (hc : f.next c = []) (he : e.plain = true)
    (hne : e.next c ≠ []) (hg : g.next c = (e.next c).map fun m => (⟨[x], []⟩ ++ m.1, F m.2)) :
    Among d (f :: fs) (Expr.around F e [c]) (s.step c) ∧ s.acts c = [x.2] := by
  have hnext : ∀ m, m ∈ g.next c ↔ ∃ n ∈ e.next c, m = (⟨[x], []⟩, F n.2) := by
    intro m
    rw [hg, List.mem_map]
    refine exists_congr fun n => and_congr_right fun hn => ?_
    rw [(Expr.plain_next he hn).1, Label.append_nil, eq_comm]
  refine h.stay (l := [x]) hf hfs hc (List.pairwise_singleton _ _) ?_ ?_ ?_
  · rintro _ rfl m hm
    obtain ⟨n, -, rfl⟩ := (hnext m).1 hm
    rfl
  · intro z
    simp only [Set.mem_singleton_iff, exists_eq_left, hnext, Expr.mem_around, Expr.reach, List.mem_flatMap,
      List.mem_singleton]
    constructor
    · rintro ⟨y, ⟨n, hn, rfl⟩, rfl⟩
      exact ⟨_, ⟨n, hn, rfl⟩, rfl⟩
    · rintro ⟨m, ⟨n, hn, rfl⟩, rfl⟩
      exact ⟨_, ⟨n, hn, rfl⟩, rfl⟩
  · intro y
    obtain ⟨n, hn⟩ := List.exists_mem_of_ne_nil _ hne
    simp only [Set.mem_singleton_iff, exists_eq_left, hnext, List.mem_singleton]
    constructor
    · rintro rfl
      exact ⟨_, ⟨n, hn, rfl⟩, List.mem_singleton_self _⟩
    · rintro ⟨m, ⟨n, -, rfl⟩, hy⟩
      exact List.mem_singleton.1 hy

/-- A further byte of it. -/
theorem Among.inside {e : Expr A} {F : Expr A → Expr A} {u : List UInt8} (h : Among d (f :: fs) (Expr.around F e u) s)
    (hf : f.final = false) (hfs : fs.all Expr.final = false) (hc : f.next c = []) (he : e.plain = true)
    (hF : ∀ y, (F y).next c = (y.next c).map fun m => (m.1, F m.2)) :
    Among d (f :: fs) (Expr.around F e (u ++ [c])) (s.step c) ∧ s.acts c = [] := by
  have hlabel : ∀ x ∈ Expr.around F e u, ∀ m ∈ x.next c, m.1 = {} := by
    rintro _ ⟨y, hy, rfl⟩ m hm
    rw [hF] at hm
    obtain ⟨n, hn, rfl⟩ := List.mem_map.1 hm
    exact (Expr.plain_next (Expr.plain_reach he hy) hn).1
  refine h.stay (l := []) hf hfs hc .nil (fun x hx m hm => by rw [hlabel x hx m hm]) ?_ ?_
  · intro x
    constructor
    · rintro ⟨z, hz, rfl⟩
      obtain ⟨y, hy, n, hn, rfl⟩ := Expr.reach_snoc.1 hz
      refine ⟨_, ⟨y, hy, rfl⟩, (n.1, F n.2), ?_, rfl⟩
      rw [hF]
      exact List.mem_map_of_mem hn
    · rintro ⟨_, ⟨y, hy, rfl⟩, m, hm, rfl⟩
      rw [hF] at hm
      obtain ⟨n, hn, rfl⟩ := List.mem_map.1 hm
      exact ⟨_, Expr.reach_snoc.2 ⟨y, hy, n, hn, rfl⟩, rfl⟩
  · intro x
    refine iff_of_false List.not_mem_nil ?_
    rintro ⟨y, hy, m, hm, hx⟩
    rw [hlabel y hy m hm] at hx
    cases hx

omit [DecidableEq A] in
/-- A part that is used up gives way to the next one. -/
theorem Among.used (h : Among d (f :: fs) {.eps} s) : Among d fs {f} s := by
  intro x
  rw [h x]
  simp only [Set.mem_singleton_iff, exists_eq_left]
  rfl

omit [DecidableEq A] in
theorem Among.ne_nil (h : Among d fs R s) (hR : R.Nonempty) : s ≠ [] := by
  obtain ⟨e, he⟩ := hR
  exact List.ne_nil_of_mem ((h _).2 ⟨e, he, rfl⟩)

/-- A state that holds one expression, each once. -/
theorem Among.eq_singleton {s' : State A} {e : Expr A} (h : Among d fs {e} (s'.step c)) :
    s'.step c = [.within d fs e] := by
  have hmem : ∀ x, x ∈ s'.step c ↔ x = .within d fs e := by
    intro x
    rw [h x]
    simp
  have hnd : (s'.step c).Nodup := nodup_eraseDups _
  exact List.perm_singleton.1 ((List.perm_ext_iff_of_nodup hnd (List.nodup_singleton _)).2 (by simpa using hmem))

end Among

end State

/-! ## Rules without embeddings -/

namespace Rule

/-- The rule embeds nothing, and so takes no number. -/
def Silent (r : Rule A) : Prop := ∀ n, r n = ((r 0).1, n)

theorem Silent.map {r : Rule A} (h : r.Silent) (g : Expr A → Expr A) : (r.map g).Silent := by
  intro n
  show (g (r n).1, (r n).2) = (g (r 0).1, n)
  rw [h n]

theorem Silent.both {r t : Rule A} (hr : r.Silent) (ht : t.Silent) (g : Expr A → Expr A → Expr A) :
    (Rule.both g r t).Silent := by
  intro n
  have h0 : (r 0).2 = 0 := congrArg Prod.snd (hr 0)
  show (g (r n).1 (t (r n).2).1, (t (r n).2).2) = (g (r 0).1 (t (r 0).2).1, n)
  rw [hr n, h0]
  show (g (r 0).1 (t n).1, (t n).2) = _
  rw [ht n]

theorem Silent.foldl {g : Expr A → Expr A → Expr A} {r : Rule A} {rs : List (Rule A)} (hr : r.Silent)
    (hrs : ∀ t ∈ rs, t.Silent) : (rs.foldl (Rule.both g) r).Silent := by
  induction rs generalizing r with
  | nil => exact hr
  | cons t rs ih =>
    exact ih (hr.both (hrs t (List.mem_cons_self ..)) g) fun u hu => hrs u (List.mem_cons_of_mem _ hu)

@[simp] theorem silent_chars (k : ByteSet) : (chars k : Rule A).Silent := fun _ => rfl

@[simp] theorem silent_cat {rs : List (Rule A)} (h : ∀ r ∈ rs, r.Silent) : (cat rs).Silent := by
  cases rs with
  | nil => exact fun _ => rfl
  | cons r rs => exact Silent.foldl (h r (List.mem_cons_self ..)) fun t ht => h t (List.mem_cons_of_mem _ ht)

@[simp] theorem silent_oneOf {rs : List (Rule A)} (h : ∀ r ∈ rs, r.Silent) : (oneOf rs).Silent := by
  cases rs with
  | nil => exact fun _ => rfl
  | cons r rs => exact Silent.foldl (h r (List.mem_cons_self ..)) fun t ht => h t (List.mem_cons_of_mem _ ht)

@[simp] theorem silent_lit (s : String) : (lit s : Rule A).Silent := by
  refine silent_cat fun r hr => ?_
  obtain ⟨c, -, rfl⟩ := List.mem_map.1 hr
  exact silent_chars _

section Repeated

variable {r : Rule A} (h : r.Silent)
include h

@[simp] theorem silent_opt : (opt r).Silent := h.map _
@[simp] theorem silent_many : (many r).Silent := h.map _
@[simp] theorem silent_many1 : (many1 r).Silent := h.map _
@[simp] theorem silent_times (n : Nat) : (times n r).Silent := h.map _
@[simp] theorem silent_atLeast (n : Nat) : (atLeast n r).Silent := h.map _
@[simp] theorem silent_between (m n : Nat) : (between m n r).Silent := h.map _

end Repeated

end Rule

end Ragel
