/-
Where along a text a machine runs which action. A transition that merges many others carries what any of them
carries; so an action runs at a byte when some way of reading the bytes up to there carries it, whether that way
can still be completed or not. For a concatenation these ways are told by how the text can be cut in two.
-/
import ServerFrame.Lib.Words
import Mathlib.Data.List.Induction

namespace Ragel

variable {A : Type}

namespace Expr

/-! ## Languages -/

theorem reach_andThen {w : List UInt8} {e f x : Expr A} : x ∈ (e.andThen f).reach w ↔
    (∃ y ∈ e.reach w, x = y.andThen f) ∨ ∃ u c v, w = u ++ c :: v ∧ e.accepts u = true ∧ x ∈ f.reach (c :: v) := by
  induction w generalizing e with
  | nil => simp [reach]
  | cons d w ih =>
    rw [reach_cons, next_andThen, next]
    simp only [List.mem_append, List.mem_map, reach_cons]
    constructor
    · rintro ⟨_, ⟨m, hm, rfl⟩ | hm, hx⟩
      · rcases ih.1 hx with ⟨y, hy, rfl⟩ | ⟨u, c, v, rfl, hu, hx⟩
        · exact .inl ⟨y, ⟨m, hm, hy⟩, rfl⟩
        · exact .inr ⟨d :: u, c, v, rfl, accepts_cons.2 ⟨m, hm, hu⟩, reach_cons.1 hx⟩
      · split at hm
        · rename_i hfin
          obtain ⟨m, hmf, rfl⟩ := List.mem_map.1 hm
          exact .inr ⟨[], d, w, rfl, by rw [accepts_nil]; exact hfin, m, hmf, hx⟩
        · cases hm
    · rintro (⟨y, ⟨m, hm, hy⟩, rfl⟩ | ⟨u, c, v, hw, hu, m, hm, hx⟩)
      · exact ⟨_, .inl ⟨m, hm, rfl⟩, ih.2 (.inl ⟨y, hy, rfl⟩)⟩
      · cases u with
        | nil =>
          obtain ⟨rfl, rfl⟩ := List.cons.inj hw
          rw [accepts_nil] at hu
          rw [if_pos hu]
          exact ⟨_, .inr (List.mem_map_of_mem hm), hx⟩
        | cons a u =>
          obtain ⟨rfl, rfl⟩ := List.cons.inj hw
          obtain ⟨m', hm', hu⟩ := accepts_cons.1 hu
          exact ⟨_, .inl ⟨m', hm', rfl⟩, ih.2 (.inr ⟨u, c, v, rfl, hu, reach_cons.2 ⟨m, hm, hx⟩⟩)⟩

/-- After the first byte a sequence is what its `andThen` is. -/
theorem reach_seq {c : UInt8} {w : List UInt8} {e f : Expr A} :
    (seq e f).reach (c :: w) = (e.andThen f).reach (c :: w) := by
  rw [reach, reach, next_andThen]

theorem reach_alt {c : UInt8} {w : List UInt8} {e f : Expr A} :
    (alt e f).reach (c :: w) = e.reach (c :: w) ++ f.reach (c :: w) := by
  rw [reach, reach, reach, next, List.flatMap_append]

theorem accepts_seq {w : List UInt8} {e f : Expr A} : (seq e f).accepts w = (e.andThen f).accepts w := by
  cases w with
  | nil => rw [accepts_nil, accepts_nil, final_andThen, final]
  | cons c w => rw [accepts, accepts, reach_seq]

theorem accepts_seq_iff {w : List UInt8} {e f : Expr A} : (seq e f).accepts w = true ↔
    ∃ u v, w = u ++ v ∧ e.accepts u = true ∧ f.accepts v = true := by
  rw [accepts_seq]
  refine ⟨accepts_andThen, ?_⟩
  rintro ⟨u, v, rfl, hu, hv⟩
  cases v with
  | nil =>
    rw [accepts_nil] at hv
    rw [List.append_nil]
    obtain ⟨y, hy, hf⟩ := List.any_eq_true.1 hu
    exact List.any_eq_true.2 ⟨_, reach_andThen.2 (.inl ⟨y, hy, rfl⟩), by rw [final_andThen, hf, hv]; rfl⟩
  | cons c v =>
    obtain ⟨y, hy, hf⟩ := List.any_eq_true.1 hv
    exact List.any_eq_true.2 ⟨y, reach_andThen.2 (.inr ⟨u, c, v, rfl, hu, hy⟩), hf⟩

theorem accepts_alt_iff {w : List UInt8} {e f : Expr A} :
    (alt e f).accepts w = true ↔ e.accepts w = true ∨ f.accepts w = true := by
  refine ⟨accepts_alt, fun h => ?_⟩
  cases w with
  | nil => simpa [accepts_nil, final] using h
  | cons c w =>
    rw [accepts_cons, next]
    rcases h with h | h
    · obtain ⟨m, hm, h⟩ := accepts_cons.1 h
      exact ⟨m, List.mem_append_left _ hm, h⟩
    · obtain ⟨m, hm, h⟩ := accepts_cons.1 h
      exact ⟨m, List.mem_append_right _ hm, h⟩

@[simp] theorem accepts_eps {w : List UInt8} : (eps : Expr A).accepts w = true ↔ w = [] := by
  cases w <;> simp [accepts, reach, next, final]

theorem accepts_char {w : List UInt8} {k : ByteSet} :
    (char k : Expr A).accepts w = true ↔ ∃ c, w = [c] ∧ k.has c = true := by
  cases w with
  | nil => simp [accepts_nil, final]
  | cons c w =>
    rw [accepts_cons, next]
    by_cases hk : k.has c = true
    · simp [hk]
    · simp [hk]

theorem accepts_star_append {e : Expr A} {u v : List UInt8} (hu : e.accepts u = true) (hne : u ≠ [])
    (hv : (star e).accepts v = true) : (star e).accepts (u ++ v) = true := by
  obtain ⟨c, u, rfl⟩ := List.exists_cons_of_ne_nil hne
  obtain ⟨m, hm, hu⟩ := accepts_cons.1 hu
  rw [List.cons_append, accepts_cons, next]
  refine ⟨_, List.mem_map_of_mem hm, ?_⟩
  have hseq := accepts_seq_iff.2 ⟨u, v, rfl, hu, hv⟩
  rwa [accepts_seq] at hseq

/-- Up to the first `k` a repetition reads what it would read without it. -/
theorem reach_star_alt {e : Expr A} {k : ByteSet} {w : List UInt8} (hw : ∀ c ∈ w, k.has c = false) :
    ∃ R : Set (Expr A), (∀ z, z ∈ (star (alt e (char k))).reach w ↔ ∃ y ∈ R, z = y.andThen (star (alt e (char k)))) ∧
      (∀ z, z ∈ (star e).reach w ↔ ∃ y ∈ R, z = y.andThen (star e)) ∧
      ∀ y ∈ R, ∀ c, y.reads c = true → e.reads c = true := by
  induction w using List.reverseRecOn with
  | nil =>
    refine ⟨{eps}, fun z => ?_, fun z => ?_, fun y hy c hc => ?_⟩
    · simp [reach, andThen]
    · simp [reach, andThen]
    · cases hy
      cases hc
  | append_singleton w c ih =>
    obtain ⟨R, h1, h2, h3⟩ := ih fun d hd => hw d (by simp [hd])
    have hk : (char k : Expr A).next c = [] := by rw [next, hw c (by simp)]; rfl
    -- a byte is read by what is open, or begins the next turn
    have hstep : ∀ f : Expr A, f.next c = e.next c → ∀ z, (∃ y ∈ R, ∃ m ∈ (y.andThen (star f)).next c, m.2 = z) ↔
        ∃ t, ((∃ y ∈ R, ∃ m ∈ y.next c, m.2 = t) ∨ (∃ y ∈ R, y.final = true) ∧ ∃ m ∈ e.next c, m.2 = t) ∧
          z = t.andThen (star f) := by
      intro f hf z
      simp only [next_andThen, next, hf, List.mem_append, List.mem_map]
      constructor
      · rintro ⟨y, hy, _, ⟨m, hm, rfl⟩ | hm, rfl⟩
        · exact ⟨m.2, .inl ⟨y, hy, m, hm, rfl⟩, rfl⟩
        · split at hm
          · rename_i hfin
            simp only [List.mem_map] at hm
            obtain ⟨_, ⟨m, hm, rfl⟩, rfl⟩ := hm
            exact ⟨m.2, .inr ⟨⟨y, hy, hfin⟩, m, hm, rfl⟩, rfl⟩
          · cases hm
      · rintro ⟨t, ⟨y, hy, m, hm, rfl⟩ | ⟨⟨y, hy, hfin⟩, m, hm, rfl⟩, rfl⟩
        · exact ⟨y, hy, _, .inl ⟨m, hm, rfl⟩, rfl⟩
        · refine ⟨y, hy, (y.outs ++ m.1, m.2.andThen (star f)), .inr ?_, rfl⟩
          rw [if_pos hfin]
          exact List.mem_map.2 ⟨(m.1, m.2.andThen (star f)), List.mem_map.2 ⟨m, hm, rfl⟩, rfl⟩
    refine ⟨{t | (∃ y ∈ R, ∃ m ∈ y.next c, m.2 = t) ∨ (∃ y ∈ R, y.final = true) ∧ ∃ m ∈ e.next c, m.2 = t},
      fun z => ?_, fun z => ?_, ?_⟩
    · rw [reach_snoc]
      refine Iff.trans ?_ (hstep (alt e (char k)) (by rw [next, hk, List.append_nil]) z)
      simp only [h1]
      constructor
      · rintro ⟨_, ⟨y, hy, rfl⟩, h⟩
        exact ⟨y, hy, h⟩
      · rintro ⟨y, hy, h⟩
        exact ⟨_, ⟨y, hy, rfl⟩, h⟩
    · rw [reach_snoc]
      refine Iff.trans ?_ (hstep e rfl z)
      simp only [h2]
      constructor
      · rintro ⟨_, ⟨y, hy, rfl⟩, h⟩
        exact ⟨y, hy, h⟩
      · rintro ⟨y, hy, h⟩
        exact ⟨_, ⟨y, hy, rfl⟩, h⟩
    · rintro t (⟨y, hy, m, hm, rfl⟩ | ⟨-, m, hm, rfl⟩) d hd
      · exact h3 y hy d ((reads_next hm).2 hd)
      · exact (reads_next hm).2 hd

theorem accepts_star_before {e : Expr A} {k : ByteSet} {w v : List UInt8} {c : UInt8} (hw : ∀ c ∈ w, k.has c = false)
    (hc : e.reads c = false) (h : (star (alt e (char k))).accepts (w ++ c :: v) = true) :
    (star e).accepts w = true := by
  obtain ⟨R, h1, h2, h3⟩ := reach_star_alt (e := e) hw
  obtain ⟨_, hz, h⟩ := accepts_append.1 h
  obtain ⟨y, hy, rfl⟩ := (h1 _).1 hz
  obtain ⟨m, hm, -⟩ := accepts_cons.1 h
  rw [next_andThen, next, List.mem_append] at hm
  have hfin : y.final = true := by
    rcases hm with hm | hm
    · obtain ⟨m, hmy, rfl⟩ := List.mem_map.1 hm
      rw [h3 y hy c (reads_next (d := c) hmy).1] at hc
      cases hc
    · by_contra hfin
      rw [if_neg hfin] at hm
      cases hm
  exact List.any_eq_true.2 ⟨_, (h2 _).2 ⟨y, hy, rfl⟩, by rw [final_andThen, hfin]; rfl⟩

/-- The byte can begin a word. -/
def starts (c : UInt8) (e : Expr A) : Bool := !(e.next c).isEmpty

theorem starts_iff {c : UInt8} {e : Expr A} : e.starts c = true ↔ ∃ m, m ∈ e.next c := by
  rw [starts, Bool.not_eq_true', List.isEmpty_eq_false_iff_exists_mem]

theorem starts_of_accepts {c : UInt8} {w : List UInt8} {e : Expr A} (h : e.accepts (c :: w) = true) :
    e.starts c = true := by
  obtain ⟨m, hm, -⟩ := accepts_cons.1 h
  exact starts_iff.2 ⟨m, hm⟩

theorem reach_of_not_starts {c : UInt8} {w : List UInt8} {e : Expr A} (h : e.starts c = false) :
    e.reach (c :: w) = [] := by
  rw [starts, Bool.not_eq_false', List.isEmpty_iff] at h
  rw [reach, h, List.flatMap_nil]

theorem reach_seq_eq_nil {w : List UInt8} {e f : Expr A} (hne : w ≠ []) (he : e.reach w = [])
    (hf : ∀ c ∈ w, f.starts c = false) : (seq e f).reach w = [] := by
  obtain ⟨d, w, rfl⟩ := List.exists_cons_of_ne_nil hne
  rw [reach_seq, List.eq_nil_iff_forall_not_mem]
  intro y hy
  rcases reach_andThen.1 hy with ⟨z, hz, -⟩ | ⟨u, c, v, hw, -, hy⟩
  · rw [he] at hz
    cases hz
  · rw [reach_of_not_starts (hf c (by rw [hw]; simp))] at hy
    cases hy

section Starts

variable {c : UInt8} {e f : Expr A} {l : Label A}

@[simp] theorem starts_char {k : ByteSet} : (char k : Expr A).starts c = k.has c := by
  rw [starts, next]
  cases k.has c <;> rfl

@[simp] theorem starts_eps : (eps : Expr A).starts c = false := rfl

@[simp] theorem starts_seq : (seq e f).starts c = (e.starts c || e.final && f.starts c) := by
  rw [starts, starts, starts, next]
  cases e.next c <;> cases e.final <;> simp

@[simp] theorem starts_alt : (alt e f).starts c = (e.starts c || f.starts c) := by
  rw [starts, starts, starts, next]
  cases e.next c <;> simp

@[simp] theorem starts_star : (star e).starts c = e.starts c := by simp [starts, next]

@[simp] theorem starts_entering : (entering l e).starts c = e.starts c := by simp [starts, next]

@[simp] theorem starts_leaving : (leaving l e).starts c = e.starts c := by simp [starts, next]

end Starts

/-! ## What the ways through an expression carry -/

/-- After `w`, some transition on `c` carries `x`. -/
def Carries (x : Nat × A) (e : Expr A) (w : List UInt8) (c : UInt8) : Prop :=
  ∃ y ∈ e.reach w, ∃ m ∈ y.next c, x ∈ m.1.acts

/-- The word is complete, and leaving it carries `x`. -/
def Leaves (x : Nat × A) (e : Expr A) (w : List UInt8) : Prop := ∃ y ∈ e.reach w, y.final = true ∧ x ∈ y.outs.acts

section Carries

variable {x : Nat × A} {e f : Expr A} {w : List UInt8} {c : UInt8} {l : Label A}

theorem carries_seq : Carries x (seq e f) w c ↔ Carries x e w c ∨ (Leaves x e w ∧ f.starts c = true) ∨
    ∃ u v, w = u ++ v ∧ e.accepts u = true ∧ Carries x f v c := by
  have hseq : Carries x (seq e f) w c ↔ Carries x (e.andThen f) w c := by
    cases w with
    | nil => simp [Carries, reach]
    | cons d w => rw [Carries, Carries, reach_seq]
  rw [hseq]
  constructor
  · rintro ⟨z, hz, m, hm, hx⟩
    rcases reach_andThen.1 hz with ⟨y, hy, rfl⟩ | ⟨u, d, v, rfl, hu, hz⟩
    · rw [next_andThen, next, List.mem_append] at hm
      rcases hm with hm | hm
      · obtain ⟨m, hme, rfl⟩ := List.mem_map.1 hm
        exact .inl ⟨y, hy, m, hme, hx⟩
      · split at hm
        · rename_i hfin
          obtain ⟨m, hmf, rfl⟩ := List.mem_map.1 hm
          rcases mem_acts_append.1 hx with hx | hx
          · exact .inr (.inl ⟨⟨y, hy, hfin, hx⟩, starts_iff.2 ⟨m, hmf⟩⟩)
          · exact .inr (.inr ⟨w, [], by simp, List.any_eq_true.2 ⟨y, hy, hfin⟩, f, by simp [reach], m, hmf, hx⟩)
        · cases hm
    · exact .inr (.inr ⟨u, d :: v, rfl, hu, z, hz, m, hm, hx⟩)
  · rintro (⟨y, hy, m, hm, hx⟩ | ⟨⟨y, hy, hfin, hx⟩, hs⟩ | ⟨u, v, rfl, hu, z, hz, m, hm, hx⟩)
    · refine ⟨_, reach_andThen.2 (.inl ⟨y, hy, rfl⟩), (m.1, m.2.andThen f), ?_, hx⟩
      rw [next_andThen, next]
      exact List.mem_append_left _ (List.mem_map_of_mem hm)
    · obtain ⟨m, hm⟩ := starts_iff.1 hs
      refine ⟨_, reach_andThen.2 (.inl ⟨y, hy, rfl⟩), (y.outs ++ m.1, m.2), ?_, mem_acts_append.2 (.inl hx)⟩
      rw [next_andThen, next, if_pos hfin]
      exact List.mem_append_right _ (List.mem_map_of_mem hm)
    · cases v with
      | nil =>
        rw [reach, List.mem_singleton] at hz
        subst hz
        obtain ⟨y, hy, hfin⟩ := List.any_eq_true.1 hu
        rw [List.append_nil]
        refine ⟨_, reach_andThen.2 (.inl ⟨y, hy, rfl⟩), (y.outs ++ m.1, m.2), ?_, mem_acts_append.2 (.inr hx)⟩
        rw [next_andThen, next, if_pos hfin]
        exact List.mem_append_right _ (List.mem_map_of_mem hm)
      | cons d v => exact ⟨z, reach_andThen.2 (.inr ⟨u, d, v, rfl, hu, hz⟩), m, hm, hx⟩

theorem mem_outs_andThen : x ∈ (e.andThen f).outs.acts ↔ x ∈ e.outs.acts ∨ x ∈ f.outs.acts := by
  cases e with
  | eps => exact (or_iff_right fun h => by cases h).symm
  | _ => exact mem_acts_append

theorem leaves_seq : Leaves x (seq e f) w ↔ (Leaves x e w ∧ f.final = true) ∨
    ∃ u v, w = u ++ v ∧ e.accepts u = true ∧ Leaves x f v := by
  have hseq : Leaves x (seq e f) w ↔ Leaves x (e.andThen f) w := by
    cases w with
    | nil => simp [Leaves, reach, final, mem_outs_andThen, outs, mem_acts_append]
    | cons d w => rw [Leaves, Leaves, reach_seq]
  rw [hseq]
  constructor
  · rintro ⟨z, hz, hfin, hx⟩
    rcases reach_andThen.1 hz with ⟨y, hy, rfl⟩ | ⟨u, d, v, rfl, hu, hz⟩
    · rw [final_andThen, Bool.and_eq_true] at hfin
      rcases mem_outs_andThen.1 hx with hx | hx
      · exact .inl ⟨⟨y, hy, hfin.1, hx⟩, hfin.2⟩
      · exact .inr ⟨w, [], by simp, List.any_eq_true.2 ⟨y, hy, hfin.1⟩, f, by simp [reach], hfin.2, hx⟩
    · exact .inr ⟨u, d :: v, rfl, hu, z, hz, hfin, hx⟩
  · rintro (⟨⟨y, hy, hfin, hx⟩, hf⟩ | ⟨u, v, rfl, hu, z, hz, hfin, hx⟩)
    · exact ⟨_, reach_andThen.2 (.inl ⟨y, hy, rfl⟩), by rw [final_andThen, hfin, hf]; rfl, mem_outs_andThen.2 (.inl hx)⟩
    · cases v with
      | nil =>
        rw [reach, List.mem_singleton] at hz
        subst hz
        obtain ⟨y, hy, hy'⟩ := List.any_eq_true.1 hu
        rw [List.append_nil]
        exact ⟨_, reach_andThen.2 (.inl ⟨y, hy, rfl⟩), by rw [final_andThen, hfin, hy']; rfl,
          mem_outs_andThen.2 (.inr hx)⟩
      | cons d v => exact ⟨z, reach_andThen.2 (.inr ⟨u, d, v, rfl, hu, hz⟩), hfin, hx⟩

theorem carries_alt : Carries x (alt e f) w c ↔ Carries x e w c ∨ Carries x f w c := by
  cases w with
  | nil => simp [Carries, reach, next, or_and_right, exists_or]
  | cons d w => simp [Carries, reach_cons, next, or_and_right, exists_or]

theorem leaves_alt : Leaves x (alt e f) w ↔ Leaves x e w ∨ Leaves x f w := by
  cases w with
  | nil =>
    simp only [Leaves, reach, List.mem_singleton, exists_eq_left, final, outs, mem_acts_append, Bool.or_eq_true]
    cases e.final <;> cases f.final <;> simp
  | cons d w => simp [Leaves, reach_cons, next, or_and_right, exists_or]

theorem mem_reach_leaving {y : Expr A} : y ∈ (leaving l e).reach w ↔ ∃ z ∈ e.reach w, y = leaving l z := by
  induction w generalizing e with
  | nil => simp [reach]
  | cons d w ih =>
    rw [reach_cons, next]
    simp only [List.mem_map, reach_cons]
    constructor
    · rintro ⟨_, ⟨m, hm, rfl⟩, hy⟩
      obtain ⟨z, hz, rfl⟩ := ih.1 hy
      exact ⟨z, ⟨m, hm, hz⟩, rfl⟩
    · rintro ⟨z, ⟨m, hm, hz⟩, rfl⟩
      exact ⟨_, ⟨m, hm, rfl⟩, ih.2 ⟨z, hz, rfl⟩⟩

theorem carries_leaving : Carries x (leaving l e) w c ↔ Carries x e w c := by
  simp only [Carries, mem_reach_leaving]
  constructor
  · rintro ⟨_, ⟨z, hz, rfl⟩, m, hm, hx⟩
    obtain ⟨m, hme, rfl⟩ := List.mem_map.1 hm
    exact ⟨z, hz, m, hme, hx⟩
  · rintro ⟨z, hz, m, hm, hx⟩
    exact ⟨_, ⟨z, hz, rfl⟩, (m.1, leaving l m.2), List.mem_map_of_mem hm, hx⟩

theorem leaves_leaving : Leaves x (leaving l e) w ↔ Leaves x e w ∨ (e.accepts w = true ∧ x ∈ l.acts) := by
  simp only [Leaves, mem_reach_leaving, accepts, List.any_eq_true]
  constructor
  · rintro ⟨_, ⟨z, hz, rfl⟩, hfin, hx⟩
    exact (mem_acts_append.1 hx).imp (fun hx => ⟨z, hz, hfin, hx⟩) fun hx => ⟨⟨z, hz, hfin⟩, hx⟩
  · rintro (⟨z, hz, hfin, hx⟩ | ⟨⟨z, hz, hfin⟩, hx⟩)
    · exact ⟨_, ⟨z, hz, rfl⟩, hfin, mem_acts_append.2 (.inl hx)⟩
    · exact ⟨_, ⟨z, hz, rfl⟩, hfin, mem_acts_append.2 (.inr hx)⟩

theorem reach_entering {d : UInt8} : (entering l e).reach (d :: w) = e.reach (d :: w) := by
  rw [reach, reach, next, List.flatMap_map]

theorem carries_entering : Carries x (entering l e) w c ↔
    Carries x e w c ∨ (w = [] ∧ e.starts c = true ∧ x ∈ l.acts) := by
  cases w with
  | nil =>
    simp only [Carries, reach, List.mem_singleton, exists_eq_left, next, List.mem_map, starts_iff, true_and]
    constructor
    · rintro ⟨_, ⟨m, hm, rfl⟩, hx⟩
      exact (mem_acts_append.1 hx).symm.imp (fun hx => ⟨m, hm, hx⟩) fun hx => ⟨⟨m, hm⟩, hx⟩
    · rintro (⟨m, hm, hx⟩ | ⟨⟨m, hm⟩, hx⟩)
      · exact ⟨_, ⟨m, hm, rfl⟩, mem_acts_append.2 (.inr hx)⟩
      · exact ⟨_, ⟨m, hm, rfl⟩, mem_acts_append.2 (.inl hx)⟩
  | cons d w => simp [Carries, reach_entering]

theorem leaves_entering : Leaves x (entering l e) w ↔
    Leaves x e w ∨ (w = [] ∧ e.final = true ∧ x ∈ l.acts) := by
  cases w with
  | nil =>
    simp only [Leaves, reach, List.mem_singleton, exists_eq_left, outs, final, mem_acts_append, true_and]
    tauto
  | cons d w => simp [Leaves, reach_entering]

theorem not_carries_of_plain (h : e.plain = true) : ¬ Carries x e w c := by
  rintro ⟨y, hy, m, hm, hx⟩
  rw [(plain_next (plain_reach h hy) hm).1] at hx
  cases hx

theorem not_leaves_of_plain (h : e.plain = true) : ¬ Leaves x e w := by
  rintro ⟨y, hy, -, hx⟩
  rw [plain_outs (plain_reach h hy)] at hx
  cases hx

end Carries

theorem accepts_of_leaves {x : Nat × A} {e : Expr A} {w : List UInt8} (h : Leaves x e w) : e.accepts w = true := by
  obtain ⟨y, hy, hfin, -⟩ := h
  exact List.any_eq_true.2 ⟨y, hy, hfin⟩

/-! ## Events -/

/-- Along the word, `x` is carried by the transition on the byte at `i`, or by those that leave the end. -/
def Event (x : Nat × A) (e : Expr A) (w : List UInt8) (i : Nat) : Prop :=
  (∃ u c v, w = u ++ c :: v ∧ u.length = i ∧ Carries x e u c) ∨ (w.length = i ∧ Leaves x e w)

section Event

variable {x : Nat × A} {e f : Expr A} {u v w : List UInt8} {i : Nat} {l l' : Label A}

theorem event_alt : Event x (alt e f) w i ↔ Event x e w i ∨ Event x f w i := by
  simp only [Event, carries_alt, leaves_alt, and_or_left, exists_or]
  exact or_or_or_comm

theorem not_event_of_plain (h : e.plain = true) : ¬ Event x e w i := by
  rintro (⟨u, c, v, -, -, hx⟩ | ⟨-, hx⟩)
  · exact not_carries_of_plain h hx
  · exact not_leaves_of_plain h hx

theorem event_leaving (h : e.accepts w = true) :
    Event x (leaving l e) w i ↔ Event x e w i ∨ (i = w.length ∧ x ∈ l.acts) := by
  simp only [Event, carries_leaving, leaves_leaving, h, true_and, and_or_left, or_assoc, eq_comm (a := w.length)]

theorem event_entering (h : e.accepts w = true) :
    Event x (entering l e) w i ↔ Event x e w i ∨ (i = 0 ∧ x ∈ l.acts) := by
  simp only [Event, carries_entering, leaves_entering]
  constructor
  · rintro (⟨u, c, v, rfl, rfl, hx | ⟨rfl, -, hx⟩⟩ | ⟨rfl, hx | ⟨rfl, -, hx⟩⟩)
    · exact .inl (.inl ⟨u, c, v, rfl, rfl, hx⟩)
    · exact .inr ⟨rfl, hx⟩
    · exact .inl (.inr ⟨rfl, hx⟩)
    · exact .inr ⟨rfl, hx⟩
  · rintro ((⟨u, c, v, rfl, rfl, hx⟩ | ⟨rfl, hx⟩) | ⟨rfl, hx⟩)
    · exact .inl ⟨u, c, v, rfl, rfl, .inl hx⟩
    · exact .inr ⟨rfl, .inl hx⟩
    · cases w with
      | nil =>
        rw [accepts_nil] at h
        exact .inr ⟨rfl, .inr ⟨rfl, h, hx⟩⟩
      | cons c w => exact .inl ⟨[], c, w, rfl, rfl, .inr ⟨rfl, starts_of_accepts h, hx⟩⟩

theorem reach_eq_nil {c : UInt8} (h : e.reads c = false) : e.reach (u ++ c :: v) = [] := by
  rw [List.eq_nil_iff_forall_not_mem]
  intro y hy
  obtain ⟨z, hz, hy⟩ := reach_append.1 hy
  obtain ⟨m, hm, -⟩ := reach_cons.1 hy
  rw [next_eq_nil h hz] at hm
  cases hm

/-- The text can be cut at `u ++ v` only: the second part cannot start before that place on what the first part
has read, and the first cannot read on after it. -/
structure Cut (e f : Expr A) (u v : List UInt8) : Prop where
  left : e.accepts u = true
  right : f.accepts v = true
  before : ∀ p c q, u = p ++ c :: q → e.accepts p = true → f.starts c = false
  after : ∀ c ∈ v.head?, e.reach (u ++ [c]) = []

/-- The second part starts with bytes that do not occur in the first. -/
theorem Cut.of_disjoint (he : e.accepts u = true) (hf : f.accepts v = true)
    (h : ∀ c, f.starts c = true → e.reads c = false) : Cut e f u v where
  left := he
  right := hf
  before := by
    rintro p c q rfl -
    by_contra hc
    have hread := reads_of_accepts he c (by simp)
    rw [h c (Bool.not_eq_false _ ▸ hc)] at hread
    cases hread
  after := by
    intro c hc
    cases v with
    | nil => cases hc
    | cons d v =>
      cases hc
      exact reach_eq_nil (h c (starts_of_accepts hf))

theorem reach_append_eq_nil (h : e.reach u = []) : e.reach (u ++ v) = [] := by
  rw [List.eq_nil_iff_forall_not_mem]
  intro y hy
  obtain ⟨z, hz, -⟩ := reach_append.1 hy
  rw [h] at hz
  cases hz

theorem Cut.reach_eq_nil (h : Cut e f u v) {d : UInt8} {q r : List UInt8} (hv : v = d :: q) :
    e.reach (u ++ d :: r) = [] := by
  rw [← List.singleton_append, ← List.append_assoc]
  exact reach_append_eq_nil (h.after d (by rw [hv]; rfl))

theorem reach_ne_nil_of_accepts (h : e.accepts w = true) : e.reach w ≠ [] := by
  obtain ⟨y, hy, -⟩ := List.any_eq_true.1 h
  exact List.ne_nil_of_mem hy

theorem Cut.unique {u' v' : List UInt8} (hc : Cut e f u v) (h : u ++ v = u' ++ v') (hu' : e.accepts u' = true)
    (hv' : ∀ c ∈ v'.head?, f.starts c = true) : u' = u ∧ v' = v := by
  rcases List.append_eq_append_iff.1 h with ⟨a, rfl, rfl⟩ | ⟨a, rfl, rfl⟩
  · cases a with
    | nil => simp
    | cons c a => exact absurd (hc.reach_eq_nil rfl) (reach_ne_nil_of_accepts hu')
  · cases a with
    | nil => simp
    | cons c a =>
      have h1 := hv' c rfl
      rw [hc.before u' c a rfl hu'] at h1
      cases h1

theorem starts_of_carries {c : UInt8} (h : Carries x f w c) : ∀ d ∈ (w ++ [c]).head?, f.starts d = true := by
  intro d hd
  obtain ⟨y, hy, m, hm, -⟩ := h
  cases w with
  | nil =>
    cases hd
    rw [reach, List.mem_singleton] at hy
    exact starts_iff.2 ⟨m, hy ▸ hm⟩
  | cons a w =>
    cases hd
    by_contra hs
    rw [reach_of_not_starts (by simpa using hs)] at hy
    cases hy

theorem reach_ne_nil_of_carries {c : UInt8} (h : Carries x e w c) : e.reach (w ++ [c]) ≠ [] := by
  obtain ⟨y, hy, m, hm, -⟩ := h
  exact List.ne_nil_of_mem (reach_snoc.2 ⟨y, hy, m, hm, rfl⟩)

/-- Along a text that can be cut in one place only, a sequence does what its parts do. -/
theorem event_seq (hc : Cut e f u v) : Event x (seq e f) (u ++ v) i ↔
    Event x e u i ∨ ∃ j, i = u.length + j ∧ Event x f v j := by
  constructor
  · rintro (⟨p, c, q, hw, rfl, hx⟩ | ⟨rfl, hx⟩)
    · rcases carries_seq.1 hx with hx | ⟨hx, hs⟩ | ⟨u', v', rfl, hu', hx⟩
      · -- the first part is still at work
        left
        rcases List.append_eq_append_iff.1 hw with ⟨a, rfl, rfl⟩ | ⟨a, rfl, ha⟩
        · exfalso
          refine reach_ne_nil_of_carries hx ?_
          cases a with
          | nil => simpa using hc.reach_eq_nil (r := []) rfl
          | cons d a => simpa using hc.reach_eq_nil (r := a ++ [c]) rfl
        · cases a with
          | nil =>
            rw [List.append_nil] at hc
            exact absurd (hc.reach_eq_nil (r := []) ha.symm) (reach_ne_nil_of_carries hx)
          | cons d a =>
            obtain ⟨rfl, rfl⟩ := List.cons.inj ha
            exact .inl ⟨p, c, a, rfl, rfl, hx⟩
      · left
        obtain ⟨rfl, -⟩ := hc.unique hw (accepts_of_leaves hx) fun d hd => by cases hd; exact hs
        exact .inr ⟨rfl, hx⟩
      · right
        have hstart := starts_of_carries hx
        rw [List.append_assoc] at hw
        obtain ⟨rfl, rfl⟩ := hc.unique hw hu' fun d hd => hstart d (by cases v' <;> exact hd)
        exact ⟨v'.length, by rw [List.length_append], .inl ⟨v', c, q, rfl, rfl, hx⟩⟩
    · rcases leaves_seq.1 hx with ⟨hxe, hfin⟩ | ⟨u', v', hw, hu', hxf⟩
      · left
        have hall : u ++ v = (u ++ v) ++ [] := by simp
        obtain ⟨-, rfl⟩ := hc.unique hall (accepts_of_leaves hxe) fun d hd => by cases hd
        rw [List.append_nil] at hxe ⊢
        exact .inr ⟨rfl, hxe⟩
      · right
        have hv' := accepts_of_leaves hxf
        obtain ⟨rfl, rfl⟩ := hc.unique hw hu' fun d hd => by
          cases v' with
          | nil => cases hd
          | cons a v' =>
            cases hd
            exact starts_of_accepts hv'
        exact ⟨v'.length, by rw [List.length_append], .inr ⟨rfl, hxf⟩⟩
  · rintro ((⟨p, c, q, rfl, rfl, hx⟩ | ⟨rfl, hx⟩) | ⟨j, rfl, ⟨p, c, q, rfl, rfl, hx⟩ | ⟨rfl, hx⟩⟩)
    · exact .inl ⟨p, c, q ++ v, by simp, rfl, carries_seq.2 (.inl hx)⟩
    · cases v with
      | nil =>
        have hf := hc.right
        rw [accepts_nil] at hf
        rw [List.append_nil]
        exact .inr ⟨rfl, leaves_seq.2 (.inl ⟨hx, hf⟩)⟩
      | cons d v => exact .inl ⟨u, d, v, rfl, rfl, carries_seq.2 (.inr (.inl ⟨hx, starts_of_accepts hc.right⟩))⟩
    · exact .inl ⟨u ++ p, c, q, by simp, by simp, carries_seq.2 (.inr (.inr ⟨u, p, rfl, hc.left, hx⟩))⟩
    · exact .inr ⟨by simp, leaves_seq.2 (.inr ⟨u, v, rfl, hc.left, hx⟩)⟩

/-! ### Sequences that are built otherwise -/

theorem carries_assoc {g : Expr A} {c : UInt8} : Carries x (seq (seq e f) g) w c ↔ Carries x (seq e (seq f g)) w c := by
  simp only [carries_seq, leaves_seq, accepts_seq_iff, starts_seq, Bool.or_eq_true, Bool.and_eq_true]
  constructor
  · rintro ((h | h | ⟨u, v, rfl, hu, h⟩) | ⟨h | ⟨u, v, rfl, hu, h⟩, hs⟩ | ⟨-, v, rfl, ⟨p, q, rfl, hp, hq⟩, h⟩)
    · exact .inl h
    · exact .inr (.inl ⟨h.1, .inl h.2⟩)
    · exact .inr (.inr ⟨u, v, rfl, hu, .inl h⟩)
    · exact .inr (.inl ⟨h.1, .inr ⟨h.2, hs⟩⟩)
    · exact .inr (.inr ⟨u, v, rfl, hu, .inr (.inl ⟨h, hs⟩)⟩)
    · exact .inr (.inr ⟨p, q ++ v, by simp, hp, .inr (.inr ⟨q, v, rfl, hq, h⟩)⟩)
  · rintro (h | ⟨h, hs | ⟨hfin, hs⟩⟩ | ⟨u, v, rfl, hu, h | ⟨h, hs⟩ | ⟨p, q, rfl, hp, h⟩⟩)
    · exact .inl (.inl h)
    · exact .inl (.inr (.inl ⟨h, hs⟩))
    · exact .inr (.inl ⟨.inl ⟨h, hfin⟩, hs⟩)
    · exact .inl (.inr (.inr ⟨u, _, rfl, hu, h⟩))
    · exact .inr (.inl ⟨.inr ⟨u, _, rfl, hu, h⟩, hs⟩)
    · exact .inr (.inr ⟨u ++ p, q, by simp, ⟨u, p, rfl, hu, hp⟩, h⟩)

theorem leaves_assoc {g : Expr A} : Leaves x (seq (seq e f) g) w ↔ Leaves x (seq e (seq f g)) w := by
  simp only [leaves_seq, accepts_seq_iff, final, Bool.and_eq_true]
  constructor
  · rintro (⟨h | ⟨u, v, rfl, hu, h⟩, hg⟩ | ⟨-, v, rfl, ⟨p, q, rfl, hp, hq⟩, h⟩)
    · exact .inl ⟨h.1, h.2, hg⟩
    · exact .inr ⟨u, v, rfl, hu, .inl ⟨h, hg⟩⟩
    · exact .inr ⟨p, q ++ v, by simp, hp, .inr ⟨q, v, rfl, hq, h⟩⟩
  · rintro (⟨h, hf, hg⟩ | ⟨u, v, rfl, hu, ⟨h, hg⟩ | ⟨p, q, rfl, hp, h⟩⟩)
    · exact .inl ⟨.inl ⟨h, hf⟩, hg⟩
    · exact .inl ⟨.inr ⟨u, _, rfl, hu, h⟩, hg⟩
    · exact .inr ⟨u ++ p, q, by simp, ⟨u, p, rfl, hu, hp⟩, h⟩

theorem event_assoc {g : Expr A} : Event x (seq (seq e f) g) w i ↔ Event x (seq e (seq f g)) w i := by
  simp only [Event, carries_assoc, leaves_assoc]

theorem event_eps_seq : Event x (seq eps f) w i ↔ Event x f w i := by
  have hc : ∀ p c, Carries x (seq eps f) p c ↔ Carries x f p c := by
    intro p c
    have h1 : ¬ Carries x eps p c := not_carries_of_plain rfl
    have h2 : ¬ Leaves x eps p := not_leaves_of_plain rfl
    simp [carries_seq, h1, h2]
  have hl : Leaves x (seq eps f) w ↔ Leaves x f w := by
    have h2 : ¬ Leaves x eps w := not_leaves_of_plain rfl
    simp [leaves_seq, h2]
  simp only [Event, hc, hl]

theorem event_alt_seq {g : Expr A} : Event x (seq (alt e f) g) w i ↔ Event x (seq e g) w i ∨ Event x (seq f g) w i := by
  have hc : ∀ p c, Carries x (seq (alt e f) g) p c ↔ Carries x (seq e g) p c ∨ Carries x (seq f g) p c := by
    intro p c
    simp only [carries_seq, carries_alt, leaves_alt, accepts_alt_iff, or_and_right, and_or_left, exists_or]
    exact (or_congr_right or_or_or_comm).trans or_or_or_comm
  have hl : Leaves x (seq (alt e f) g) w ↔ Leaves x (seq e g) w ∨ Leaves x (seq f g) w := by
    simp only [leaves_seq, leaves_alt, accepts_alt_iff, or_and_right, and_or_left, exists_or]
    exact or_or_or_comm
  simp only [Event, hc, hl, and_or_left, exists_or]
  exact or_or_or_comm

/-- A single byte in front. -/
theorem event_char_seq {k : ByteSet} {c : UInt8} (hk : k.has c = true) (hf : f.accepts v = true) :
    Event x (seq (char k) f) (c :: v) i ↔ ∃ j, i = j + 1 ∧ Event x f v j := by
  have hcut : Cut (char k) f [c] v := by
    refine ⟨accepts_char.2 ⟨c, rfl, hk⟩, hf, fun p d q hp hacc => ?_, fun d _ => ?_⟩
    · obtain ⟨b, rfl, -⟩ := accepts_char.1 hacc
      simp at hp
    · rw [List.singleton_append, reach, next, if_pos hk]
      rfl
  rw [← List.singleton_append, event_seq hcut, or_iff_right (not_event_of_plain rfl)]
  simp [Nat.add_comm]

/-- Where the second part cannot start, a sequence carries what its first part carries. -/
theorem event_seq_of_not_starts (hfin : e.accepts w = true → f.final = false)
    (hw : ∀ u c v, w = u ++ c :: v → e.accepts u = true → f.starts c = false) (h : Event x (seq e f) w i) :
    ∃ u c v, w = u ++ c :: v ∧ u.length = i ∧ Carries x e u c := by
  rcases h with ⟨u, c, v, rfl, rfl, hx⟩ | ⟨-, hx⟩
  · refine ⟨u, c, v, rfl, rfl, ?_⟩
    rcases carries_seq.1 hx with hx | ⟨hx, hs⟩ | ⟨p, q, rfl, hp, hx⟩
    · exact hx
    · rw [hw u c v rfl (accepts_of_leaves hx)] at hs
      cases hs
    · have hs := starts_of_carries hx
      cases q with
      | nil =>
        have hc := hs c rfl
        rw [hw p c v (by simp) hp] at hc
        cases hc
      | cons d q =>
        have hd := hs d rfl
        rw [hw p d (q ++ c :: v) (by simp) hp] at hd
        cases hd
  · rcases leaves_seq.1 hx with ⟨hxe, hf⟩ | ⟨p, q, rfl, hp, hx⟩
    · rw [hfin (accepts_of_leaves hxe)] at hf
      cases hf
    · have hacc := accepts_of_leaves hx
      cases q with
      | nil =>
        rw [accepts_nil, hfin (by rwa [List.append_nil])] at hacc
        cases hacc
      | cons d q =>
        have hd := starts_of_accepts hacc
        rw [hw p d q rfl hp] at hd
        cases hd

end Event

end Expr

end Ragel
