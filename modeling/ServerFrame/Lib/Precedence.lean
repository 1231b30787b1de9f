/-
Actions that run only after another. An expression is guarded when `b` is embedded in it only behind a part
that no way leaves without `a`, under smaller numbers; a machine that starts guarded has run `a` whenever it
runs `b`.
-/
import ServerFrame.Lib.Ragel

namespace Ragel

variable {A : Type} [DecidableEq A]

/-- `b` is carried only together with `a`, which has the smaller number. -/
def Label.Guarded (a b : A) (l : Label A) : Prop := ∀ n, (n, b) ∈ l.acts → ∃ k < n, (k, a) ∈ l.acts

omit [DecidableEq A] in
theorem Label.Guarded.append {a b : A} {l m : Label A} (hl : l.Guarded a b) (hm : m.Guarded a b) :
    (l ++ m).Guarded a b := by
  intro n hn
  rcases Expr.mem_acts_append.1 hn with hn | hn
  · obtain ⟨k, hk, h⟩ := hl n hn
    exact ⟨k, hk, Expr.mem_acts_append.2 (.inl h)⟩
  · obtain ⟨k, hk, h⟩ := hm n hn
    exact ⟨k, hk, Expr.mem_acts_append.2 (.inr h)⟩

namespace Expr

variable (a b : A)

/-- Numbers under which every way out of the expression carries `a`. -/
def sure : Expr A → List Nat
  | eps | char _ | alt _ _ | star _ => []
  | seq _ f => f.sure
  | leaving l e => (l.acts.filter fun x => x.2 = a).map Prod.fst ++ e.sure
  | entering _ e | finishing _ e | all _ e => e.sure

def guarded : Expr A → Bool
  | eps | char _ => true
  | seq e f =>
    e.guarded && (f.guarded ||
      (!e.embedded.contains b && (e.sure a).any fun k => f.embeddings.all fun x => x.2 != b || k < x.1))
  | alt e f => e.guarded && f.guarded
  | star e => e.guarded
  | entering l e | finishing l e | leaving l e | all l e => !(l.acts.map Prod.snd).contains b && e.guarded

variable {a b}

theorem sure_outs {k : Nat} : ∀ {e : Expr A}, k ∈ e.sure a → (k, a) ∈ e.outs.acts
  | eps, h | char _, h | alt _ _, h | star _, h => by cases h
  | seq e f, h => mem_acts_append.2 (.inr (sure_outs (e := f) h))
  | leaving l e, h => by
    rw [sure, List.mem_append] at h
    refine mem_acts_append.2 (h.symm.imp sure_outs fun h => ?_)
    obtain ⟨x, hx, rfl⟩ := List.mem_map.1 h
    simp only [List.mem_filter, decide_eq_true_eq] at hx
    rw [← hx.2]
    exact hx.1
  | entering l e, h => mem_acts_append.2 (.inr (sure_outs (e := e) h))
  | finishing l e, h | all l e, h => sure_outs (e := e) h

theorem sure_andThen {k : Nat} {e f : Expr A} (h : k ∈ f.sure a) : k ∈ (e.andThen f).sure a := by
  unfold andThen
  split <;> exact h

theorem sure_next {k : Nat} {c : UInt8} : ∀ {e : Expr A} {m : Label A × Expr A}, m ∈ e.next c → k ∈ e.sure a →
    k ∈ m.2.sure a
  | eps, m, _, h | char _, m, _, h | alt _ _, m, _, h | star _, m, _, h => by cases h
  | seq e f, m, hs, h => by
    rw [next, List.mem_append] at hs
    rcases hs with hs | hs
    · obtain ⟨m, -, rfl⟩ := List.mem_map.1 hs
      exact sure_andThen h
    · split at hs
      · obtain ⟨m, hm, rfl⟩ := List.mem_map.1 hs
        exact sure_next (e := f) (m := m) hm h
      · cases hs
  | leaving l e, m, hs, h => by
    obtain ⟨m, hm, rfl⟩ := List.mem_map.1 hs
    rw [sure, List.mem_append] at h ⊢
    exact h.imp id (sure_next hm)
  | entering l e, m, hs, h | finishing l e, m, hs, h | all l e, m, hs, h => by
    obtain ⟨m, hm, rfl⟩ := List.mem_map.1 hs
    exact sure_next (e := e) (m := m) hm h

/-- The two ways for a sequence to be guarded. -/
theorem guarded_seq {e f : Expr A} : (seq e f).guarded a b = true ↔ e.guarded a b = true ∧
    (f.guarded a b = true ∨ b ∉ e.embedded ∧ ∃ k ∈ e.sure a, ∀ n, (n, b) ∈ f.embeddings → k < n) := by
  rw [guarded, Bool.and_eq_true, Bool.or_eq_true, Bool.and_eq_true, List.any_eq_true]
  simp only [Bool.not_eq_true', List.contains_eq_mem, decide_eq_false_iff_not, List.all_eq_true, Bool.or_eq_true,
    bne_iff_ne, decide_eq_true_eq, Prod.forall]
  refine and_congr_right fun _ =>
    or_congr_right (and_congr_right fun _ => exists_congr fun k => and_congr_right fun _ => ?_)
  constructor
  · intro h n hn
    exact (h n b hn).resolve_left fun hb => hb rfl
  · intro h n x hx
    by_cases hxb : x = b
    · subst hxb
      exact .inr (h n hx)
    · exact .inl hxb

theorem guarded_embedding {l : Label A} (h : (!(l.acts.map Prod.snd).contains b) = true) : l.Guarded a b := by
  intro n hn
  exfalso
  rw [Bool.not_eq_true', List.contains_eq_mem, decide_eq_false_iff_not] at h
  exact h (List.mem_map_of_mem hn)

theorem guarded_outs : ∀ {e : Expr A}, e.guarded a b = true → e.outs.Guarded a b
  | eps, _ | char _, _ => fun n hn => by cases hn
  | seq e f, h => by
    rw [guarded_seq] at h
    obtain ⟨he, hf | ⟨hno, k, hk, hlt⟩⟩ := h
    · exact (guarded_outs he).append (guarded_outs hf)
    · intro n hn
      rcases mem_acts_append.1 hn with hn | hn
      · exact absurd (embedded_eq e ▸ List.mem_map_of_mem (mem_embeddings_of_mem_outs hn)) hno
      · exact ⟨k, hlt n (mem_embeddings_of_mem_outs hn), mem_acts_append.2 (.inl (sure_outs hk))⟩
  | alt e f, h => by
    rw [guarded, Bool.and_eq_true] at h
    rw [outs]
    refine Label.Guarded.append ?_ ?_ <;> split
    · exact guarded_outs h.1
    · exact fun n hn => by cases hn
    · exact guarded_outs h.2
    · exact fun n hn => by cases hn
  | star e, h => by
    rw [outs]
    split
    · exact guarded_outs (e := e) h
    · exact fun n hn => by cases hn
  | entering l e, h => by
    rw [guarded, Bool.and_eq_true] at h
    exact (guarded_embedding h.1).append (guarded_outs h.2)
  | leaving l e, h => by
    rw [guarded, Bool.and_eq_true] at h
    exact (guarded_outs h.2).append (guarded_embedding h.1)
  | finishing l e, h | all l e, h => by
    rw [guarded, Bool.and_eq_true] at h
    exact guarded_outs (e := e) h.2

theorem guarded_andThen {e f : Expr A} (he : e.guarded a b = true) (hf : f.guarded a b = true) :
    (e.andThen f).guarded a b = true := by
  unfold andThen
  split
  · exact hf
  · exact guarded_seq.2 ⟨he, .inl hf⟩

/-- A transition is guarded, and leads to what is guarded or carries `a`. -/
theorem guarded_next {c : UInt8} : ∀ {e : Expr A} {m : Label A × Expr A}, m ∈ e.next c → e.guarded a b = true →
    m.1.Guarded a b ∧ (m.2.guarded a b = true ∨ ∃ k, (k, a) ∈ m.1.acts)
  | eps, m, hs, _ => by cases hs
  | char k, m, hs, _ => by
    rw [next] at hs
    split at hs
    · rw [List.mem_singleton] at hs
      subst hs
      exact ⟨fun n hn => (by cases hn), .inl rfl⟩
    · cases hs
  | seq e f, m, hs, h => by
    rw [next, List.mem_append] at hs
    obtain ⟨he, hf⟩ := guarded_seq.1 h
    rcases hs with hs | hs
    · obtain ⟨m, hm, rfl⟩ := List.mem_map.1 hs
      obtain ⟨hl, ht⟩ := guarded_next hm he
      refine ⟨hl, ht.imp_left fun ht => ?_⟩
      rcases hf with hf | ⟨hno, k, hk, hlt⟩
      · exact guarded_andThen ht hf
      · have hk' := sure_next hm hk
        have hno' : b ∉ m.2.embedded := fun hb => hno ((next_embedded hm).2 b hb)
        -- a part with a number of `a` on its way out is not used up
        simp only
        unfold andThen
        split
        · rename_i heps
          rw [heps] at hk'
          cases hk'
        · exact guarded_seq.2 ⟨ht, .inr ⟨hno', k, hk', hlt⟩⟩
    · split at hs
      · obtain ⟨m, hm, rfl⟩ := List.mem_map.1 hs
        rcases hf with hf | ⟨hno, k, hk, hlt⟩
        · obtain ⟨hl, ht⟩ := guarded_next hm hf
          exact ⟨(guarded_outs he).append hl, ht.imp_right (Exists.imp fun k hk => mem_acts_append.2 (.inr hk))⟩
        · have hka : (k, a) ∈ (e.outs ++ m.1).acts := mem_acts_append.2 (.inl (sure_outs hk))
          refine ⟨fun n hn => ⟨k, hlt n ?_, hka⟩, .inr ⟨k, hka⟩⟩
          rcases mem_acts_append.1 hn with hn | hn
          · exact absurd (embedded_eq e ▸ List.mem_map_of_mem (mem_embeddings_of_mem_outs hn)) hno
          · exact next_embeddings hm (.inl hn)
      · cases hs
  | alt e f, m, hs, h => by
    rw [next, List.mem_append] at hs
    rw [guarded, Bool.and_eq_true] at h
    rcases hs with hs | hs
    · exact guarded_next hs h.1
    · exact guarded_next hs h.2
  | star e, m, hs, h => by
    obtain ⟨m, hm, rfl⟩ := List.mem_map.1 hs
    obtain ⟨hl, ht⟩ := guarded_next (e := e) hm h
    exact ⟨hl, ht.imp_left fun ht => guarded_andThen ht h⟩
  | entering l e, m, hs, h => by
    obtain ⟨m, hm, rfl⟩ := List.mem_map.1 hs
    rw [guarded, Bool.and_eq_true] at h
    obtain ⟨hl, ht⟩ := guarded_next hm h.2
    exact ⟨(guarded_embedding h.1).append hl, ht.imp_right (Exists.imp fun k hk => mem_acts_append.2 (.inr hk))⟩
  | finishing l e, m, hs, h => by
    obtain ⟨m, hm, rfl⟩ := List.mem_map.1 hs
    rw [guarded, Bool.and_eq_true] at h
    obtain ⟨hl, ht⟩ := guarded_next hm h.2
    simp only
    split
    · refine ⟨hl.append (guarded_embedding h.1), ?_⟩
      exact ht.imp (fun ht => by rw [guarded, h.1, ht, Bool.and_true])
        (Exists.imp fun k hk => mem_acts_append.2 (.inl hk))
    · exact ⟨hl, ht.imp_left fun ht => by rw [guarded, h.1, ht, Bool.and_true]⟩
  | leaving l e, m, hs, h => by
    obtain ⟨m, hm, rfl⟩ := List.mem_map.1 hs
    rw [guarded, Bool.and_eq_true] at h
    obtain ⟨hl, ht⟩ := guarded_next hm h.2
    exact ⟨hl, ht.imp_left fun ht => by rw [guarded, h.1, ht, Bool.and_true]⟩
  | all l e, m, hs, h => by
    obtain ⟨m, hm, rfl⟩ := List.mem_map.1 hs
    rw [guarded, Bool.and_eq_true] at h
    obtain ⟨hl, ht⟩ := guarded_next hm h.2
    refine ⟨hl.append (guarded_embedding h.1), ?_⟩
    exact ht.imp (fun ht => by rw [guarded, h.1, ht, Bool.and_true]) (Exists.imp fun k hk =>
      mem_acts_append.2 (.inl hk))

end Expr

namespace State

variable {a b : A} {c : UInt8} {s : State A}

def Guarded (a b : A) (s : State A) : Prop := ∀ e ∈ s, e.guarded a b = true

/-- A transition that runs `b` runs `a` first. -/
theorem Guarded.before (h : s.Guarded a b) {pre post : List A} (hs : s.acts c = pre ++ b :: post) : a ∈ pre := by
  obtain ⟨n, ⟨m, hm, hn⟩, hlt⟩ := acts_split hs
  obtain ⟨e, he, hme⟩ := exists_of_mem_moves hm
  obtain ⟨k, hk, hka⟩ := (Expr.guarded_next hme (h e he)).1 n hn
  exact hlt m hm _ hka hk

/-- A machine that has not run `a` is still guarded. -/
theorem Guarded.step (h : s.Guarded a b) (ha : a ∉ s.acts c) : (s.step c).Guarded a b := by
  intro x hx
  obtain ⟨m, hm, rfl⟩ := mem_step.1 hx
  obtain ⟨e, he, hme⟩ := exists_of_mem_moves hm
  refine (Expr.guarded_next hme (h e he)).2.resolve_right ?_
  rintro ⟨k, hk⟩
  exact ha (mem_acts.2 ⟨m, hm, k, hk⟩)

/-- The finishing action of the whole machine, with a number above all others. -/
def ClosedBy (z : A) (n : Nat) (s : State A) : Prop :=
  ∀ e ∈ s, ∃ f, e = .finishing ⟨[(n, z)], []⟩ f ∧ ∀ x ∈ f.embeddings, x.1 < n ∧ x.2 ≠ z

theorem ClosedBy.step {z : A} {n : Nat} (h : s.ClosedBy z n) : (s.step c).ClosedBy z n := by
  intro x hx
  obtain ⟨m, hm, rfl⟩ := mem_step.1 hx
  obtain ⟨e, he, hme⟩ := exists_of_mem_moves hm
  obtain ⟨f, rfl, hf⟩ := h e he
  obtain ⟨m, hmf, rfl⟩ := List.mem_map.1 hme
  exact ⟨m.2, rfl, fun x hx => hf x (Expr.next_embeddings hmf (.inr hx))⟩

/-- What a transition carries beside the finishing action, it runs before. -/
theorem ClosedBy.before {z : A} {n : Nat} (h : s.ClosedBy z n) {pre post : List A}
    (hs : s.acts c = pre ++ z :: post) (ha : a ∈ s.acts c) (hne : a ≠ z) : a ∈ pre := by
  have hmem : ∀ m ∈ s.moves c, ∀ x ∈ m.1.acts, x = (n, z) ∨ x.1 < n ∧ x.2 ≠ z := by
    intro m hm x hx
    obtain ⟨e, he, hme⟩ := exists_of_mem_moves hm
    obtain ⟨f, rfl, hf⟩ := h e he
    rcases List.mem_append.1 (Expr.next_embeddings hme (.inl hx)) with hx | hx
    · exact .inl (List.mem_singleton.1 hx)
    · exact .inr (hf x hx)
  obtain ⟨n', ⟨m', hm', hn'⟩, hlt⟩ := acts_split hs
  obtain ⟨m, hm, k, hk⟩ := mem_acts.1 ha
  obtain ⟨rfl, -⟩ | ⟨-, hz⟩ := (hmem m' hm' _ hn').imp_left Prod.mk.inj
  · obtain hka | ⟨hka, -⟩ := (hmem m hm _ hk).imp_left Prod.mk.inj
    · exact absurd hka.2 hne
    · exact hlt m hm _ hk hka
  · exact absurd rfl hz

end State

end Ragel
