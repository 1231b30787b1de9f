/-
Machines written as rules with embedded actions, with the meaning the Ragel compiler gives them. A
rule is a regular expression over bytes whose transitions carry actions and priorities; the compiled
machine is in all the states at once that the bytes read so far lead to, a transition of it runs the
actions of every transition it merges, each of them once, and among merged transitions that compete
under one priority name only the highest ones are taken. A state is what is left of the rule after the bytes read.
-/
import Mathlib.Data.List.Sort

namespace Ragel

/-! ## Sets of bytes -/

/-- A set of bytes, the alphabet being `char`. -/
abbrev ByteSet := BitVec 256

namespace ByteSet

def has (k : ByteSet) (c : UInt8) : Bool := k.getLsbD c.toNat

/-- A number stands for the byte of that value. -/
def byte (n : Nat) : ByteSet := 1#256 <<< n

/-- Any one character of the text. -/
def anyOf (s : String) : ByteSet := s.toList.foldl (fun k c => k ||| byte c.toNat) 0#256

/-- `"a".."z"`. -/
def range (lo hi : Char) : ByteSet := (1#256 <<< (hi.toNat + 1) - 1#256) &&& ~~~(1#256 <<< lo.toNat - 1#256)

/-- The difference `k - l`, which for sets of single bytes is also the strong difference `k -- l`. -/
def diff (k l : ByteSet) : ByteSet := k &&& ~~~l

def any : ByteSet := ~~~0#256

def ascii : ByteSet := 1#256 <<< 128 - 1#256

def upper : ByteSet := range 'A' 'Z'

def alpha : ByteSet := range 'a' 'z' ||| upper

def digit : ByteSet := range '0' '9'

def xdigit : ByteSet := digit ||| range 'a' 'f' ||| range 'A' 'F'

def space : ByteSet := byte 9 ||| byte 10 ||| byte 11 ||| byte 12 ||| byte 13 ||| byte 32

end ByteSet

/-! ## Expressions -/

/-- What a transition carries: its actions, each under the number of its embedding, and its
priorities, each under its name. -/
structure Label (A : Type) where
  acts : List (Nat × A) := []
  priors : List (Nat × Nat) := []
deriving DecidableEq

instance {A : Type} : Append (Label A) := ⟨fun l m => ⟨l.acts ++ m.acts, l.priors ++ m.priors⟩⟩

inductive Expr (A : Type) where
  | eps
  | char (k : ByteSet)
  | seq (e f : Expr A)
  | alt (e f : Expr A)
  | star (e : Expr A)
  /-- `>`: the transitions out of the start state. -/
  | entering (l : Label A) (e : Expr A)
  /-- `@`: the transitions into a final state. -/
  | finishing (l : Label A) (e : Expr A)
  /-- `%`: the transitions that go on from a final state into what follows. -/
  | leaving (l : Label A) (e : Expr A)
  /-- `$`: every transition. -/
  | all (l : Label A) (e : Expr A)
deriving DecidableEq

namespace Expr

variable {A : Type}

def final : Expr A → Bool
  | eps => true
  | char _ => false
  | seq e f => e.final && f.final
  | alt e f => e.final || f.final
  | star _ => true
  | entering _ e | finishing _ e | leaving _ e | all _ e => e.final

/-- What a final state puts on the transitions by which it is left. A start state that is final is
also left without having been entered, and then carries what entering it carries. -/
def outs : Expr A → Label A
  | eps | char _ => {}
  | seq e f => e.outs ++ f.outs
  | alt e f => (if e.final then e.outs else {}) ++ (if f.final then f.outs else {})
  | star e => if e.final then e.outs else {}
  | entering l e => l ++ e.outs
  | leaving l e => e.outs ++ l
  | finishing _ e | all _ e => e.outs

/-- `seq`, with nothing kept of a first part that is used up. -/
def andThen : Expr A → Expr A → Expr A
  | eps, f => f
  | e, f => seq e f

/-- The transitions on a byte: what each carries and the state it leads to. -/
def next (c : UInt8) : Expr A → List (Label A × Expr A)
  | eps => []
  | char k => if k.has c then [({}, eps)] else []
  | seq e f =>
    (e.next c).map (fun m => (m.1, m.2.andThen f)) ++
      if e.final then (f.next c).map (fun m => (e.outs ++ m.1, m.2)) else []
  | alt e f => e.next c ++ f.next c
  | star e => (e.next c).map fun m => (m.1, m.2.andThen (star e))
  | entering l e => (e.next c).map fun m => (l ++ m.1, m.2)
  | finishing l e => (e.next c).map fun m => (if m.2.final then m.1 ++ l else m.1, finishing l m.2)
  | leaving l e => (e.next c).map fun m => (m.1, leaving l m.2)
  | all l e => (e.next c).map fun m => (m.1 ++ l, all l m.2)

end Expr

/-! ## What is embedded where -/

namespace Expr

variable {A : Type}

def embedded : Expr A → List A
  | eps | char _ => []
  | seq e f | alt e f => e.embedded ++ f.embedded
  | star e => e.embedded
  | entering l e | finishing l e | leaving l e | all l e => l.acts.map Prod.snd ++ e.embedded

/-- The embedded actions, each under the number of its embedding. -/
def embeddings : Expr A → List (Nat × A)
  | eps | char _ => []
  | seq e f | alt e f => e.embeddings ++ f.embeddings
  | star e => e.embeddings
  | entering l e | finishing l e | leaving l e | all l e => l.acts ++ e.embeddings

theorem mem_acts_append {l m : Label A} {x : Nat × A} : x ∈ (l ++ m).acts ↔ x ∈ l.acts ∨ x ∈ m.acts := List.mem_append

theorem embedded_eq : ∀ e : Expr A, e.embedded = e.embeddings.map Prod.snd
  | eps | char _ => rfl
  | seq e f | alt e f => by rw [embedded, embeddings, List.map_append, embedded_eq e, embedded_eq f]
  | star e => embedded_eq e
  | entering l e | finishing l e | leaving l e | all l e => by
    rw [embedded, embeddings, List.map_append, embedded_eq e]

theorem mem_embeddings_of_mem_outs {x : Nat × A} : ∀ {e : Expr A}, x ∈ e.outs.acts → x ∈ e.embeddings
  | eps, h | char _, h => by cases h
  | seq e f, h => by
    rw [embeddings, List.mem_append]
    exact (mem_acts_append.1 h).imp mem_embeddings_of_mem_outs mem_embeddings_of_mem_outs
  | alt e f, h => by
    rw [embeddings, List.mem_append]
    rcases mem_acts_append.1 h with h | h <;> split at h
    · exact .inl (mem_embeddings_of_mem_outs h)
    · cases h
    · exact .inr (mem_embeddings_of_mem_outs h)
    · cases h
  | star e, h => by
    rw [outs] at h
    split at h
    · exact mem_embeddings_of_mem_outs (e := e) h
    · cases h
  | entering l e, h => by
    rw [embeddings, List.mem_append]
    exact (mem_acts_append.1 h).imp id mem_embeddings_of_mem_outs
  | leaving l e, h => by
    rw [embeddings, List.mem_append]
    exact (mem_acts_append.1 h).symm.imp id mem_embeddings_of_mem_outs
  | finishing l e, h | all l e, h => by
    rw [embeddings, List.mem_append]
    exact .inr (mem_embeddings_of_mem_outs (e := e) h)

theorem embeddings_andThen {x : Nat × A} {e f : Expr A} (h : x ∈ (e.andThen f).embeddings) :
    x ∈ e.embeddings ∨ x ∈ f.embeddings := by
  unfold andThen at h
  split at h
  · exact .inr h
  · simpa [embeddings] using h

/-- A transition carries, and leads to, nothing but what is embedded in the expression. -/
theorem next_embeddings {c : UInt8} {x : Nat × A} : ∀ {e : Expr A} {m : Label A × Expr A}, m ∈ e.next c →
    x ∈ m.1.acts ∨ x ∈ m.2.embeddings → x ∈ e.embeddings
  | eps, m, h, _ => by cases h
  | char k, m, h, hx => by
    rw [next] at h
    split at h
    · rw [List.mem_singleton] at h
      subst h
      rcases hx with hx | hx <;> cases hx
    · cases h
  | seq e f, m, h, hx => by
    rw [next, List.mem_append] at h
    rw [embeddings, List.mem_append]
    rcases h with h | h
    · obtain ⟨m, hm, rfl⟩ := List.mem_map.1 h
      rcases hx with hx | hx
      · exact .inl (next_embeddings hm (.inl hx))
      · exact (embeddings_andThen hx).imp (fun hx => next_embeddings hm (.inr hx)) id
    · split at h
      · obtain ⟨m, hm, rfl⟩ := List.mem_map.1 h
        rcases hx with hx | hx
        · exact (mem_acts_append.1 hx).imp mem_embeddings_of_mem_outs fun hx => next_embeddings hm (.inl hx)
        · exact .inr (next_embeddings hm (.inr hx))
      · cases h
  | alt e f, m, h, hx => by
    rw [next, List.mem_append] at h
    rw [embeddings, List.mem_append]
    exact h.imp (fun h => next_embeddings h hx) fun h => next_embeddings h hx
  | star e, m, h, hx => by
    obtain ⟨m, hm, rfl⟩ := List.mem_map.1 h
    rcases hx with hx | hx
    · exact next_embeddings (e := e) hm (.inl hx)
    · rcases embeddings_andThen hx with hx | hx
      · exact next_embeddings (e := e) hm (.inr hx)
      · exact hx
  | entering l e, m, h, hx => by
    obtain ⟨m, hm, rfl⟩ := List.mem_map.1 h
    rw [embeddings, List.mem_append]
    rcases hx with hx | hx
    · exact (mem_acts_append.1 hx).imp id fun hx => next_embeddings hm (.inl hx)
    · exact .inr (next_embeddings hm (.inr hx))
  | finishing l e, m, h, hx => by
    obtain ⟨m, hm, rfl⟩ := List.mem_map.1 h
    rw [embeddings, List.mem_append]
    rcases hx with hx | hx
    · simp only at hx
      split at hx
      · exact (mem_acts_append.1 hx).symm.imp id fun hx => next_embeddings hm (.inl hx)
      · exact .inr (next_embeddings hm (.inl hx))
    · exact (List.mem_append.1 hx).imp id fun hx => next_embeddings hm (.inr hx)
  | leaving l e, m, h, hx => by
    obtain ⟨m, hm, rfl⟩ := List.mem_map.1 h
    rw [embeddings, List.mem_append]
    rcases hx with hx | hx
    · exact .inr (next_embeddings hm (.inl hx))
    · exact (List.mem_append.1 hx).imp id fun hx => next_embeddings hm (.inr hx)
  | all l e, m, h, hx => by
    obtain ⟨m, hm, rfl⟩ := List.mem_map.1 h
    rw [embeddings, List.mem_append]
    rcases hx with hx | hx
    · exact (mem_acts_append.1 hx).symm.imp id fun hx => next_embeddings hm (.inl hx)
    · exact (List.mem_append.1 hx).imp id fun hx => next_embeddings hm (.inr hx)

theorem next_embedded {c : UInt8} {e : Expr A} {m : Label A × Expr A} (h : m ∈ e.next c) :
    (∀ x ∈ m.1.acts, x.2 ∈ e.embedded) ∧ ∀ a ∈ m.2.embedded, a ∈ e.embedded := by
  simp only [embedded_eq]
  refine ⟨fun x hx => List.mem_map_of_mem (next_embeddings h (.inl hx)), fun a ha => ?_⟩
  obtain ⟨x, hx, rfl⟩ := List.mem_map.1 ha
  exact List.mem_map_of_mem (next_embeddings h (.inr hx))

end Expr

/-! ## The machine -/

section Machine

variable {A : Type}

/-- The states of the expression the machine is in; with none of them it has failed. -/
abbrev State (A : Type) := List (Expr A)

/-- `p` has a higher priority than `q` under a name they share. -/
def outranks (p q : List (Nat × Nat)) : Bool := p.any fun x => q.any fun y => x.1 == y.1 && y.2 < x.2

namespace State

def final (s : State A) : Bool := s.any Expr.final

/-- The transitions the machine takes on a byte. -/
def moves (c : UInt8) (s : State A) : List (Label A × Expr A) :=
  let ms := s.flatMap (Expr.next c)
  ms.filter fun m => !ms.any fun o => outranks o.1.priors m.1.priors

variable [DecidableEq A]

/-- The actions of the transition on a byte, in the order of their embeddings, an action that is embedded several
times only at the first of them. -/
def acts (c : UInt8) (s : State A) : List A :=
  ((((s.moves c).flatMap fun m => m.1.acts).eraseDups.insertionSort fun x y => x.1 ≤ y.1).map Prod.snd).eraseDups

/-- The actions at the end of the text, by which the final states are left. -/
def eofActs (s : State A) : List A :=
  ((((s.filter Expr.final).flatMap fun e => e.outs.acts).eraseDups.insertionSort
    fun x y => x.1 ≤ y.1).map Prod.snd).eraseDups

/-- The state after a byte. -/
def step (c : UInt8) (s : State A) : State A := ((s.moves c).map Prod.snd).eraseDups

theorem mem_acts {c : UInt8} {s : State A} {a : A} : a ∈ s.acts c ↔ ∃ m ∈ s.moves c, ∃ n, (n, a) ∈ m.1.acts := by
  simp only [acts, List.mem_eraseDups, List.mem_map, List.mem_insertionSort, List.mem_flatMap]
  constructor
  · rintro ⟨⟨n, _⟩, ⟨m, hm, hx⟩, rfl⟩
    exact ⟨m, hm, n, hx⟩
  · rintro ⟨m, hm, n, hx⟩
    exact ⟨(n, a), ⟨m, hm, hx⟩, rfl⟩

omit [DecidableEq A] in
theorem pairwise_number (l : List (Nat × A)) :
    (l.insertionSort fun x y => x.1 ≤ y.1).Pairwise fun x y => x.1 ≤ y.1 :=
  haveI : Std.Total fun x y : Nat × A => x.1 ≤ y.1 := ⟨fun x y => Nat.le_total x.1 y.1⟩
  haveI : IsTrans (Nat × A) fun x y => x.1 ≤ y.1 := ⟨fun _ _ _ => Nat.le_trans⟩
  List.pairwise_insertionSort _ _

omit [DecidableEq A] in
/-- What stands before an element where the repeated ones are left out is all that stood before it. -/
theorem eraseDups_split {α : Type} [BEq α] [LawfulBEq α] {a : α} {post : List α} : ∀ {pre l : List α},
    l.eraseDups = pre ++ a :: post → ∃ l1 l2, l = l1 ++ a :: l2 ∧ ∀ x ∈ l1, x ∈ pre
  | pre, [], h => by
    rw [List.eraseDups_nil, List.nil_eq_append_iff] at h
    cases h.2
  | [], b :: l, h => by
    rw [List.eraseDups_cons, List.nil_append] at h
    obtain ⟨rfl, -⟩ := List.cons.inj h
    exact ⟨[], l, rfl, fun x hx => by cases hx⟩
  | b :: pre, c :: l, h => by
    rw [List.eraseDups_cons, List.cons_append] at h
    obtain ⟨rfl, htail⟩ := List.cons.inj h
    obtain ⟨l1, l2, hl, hpre⟩ := eraseDups_split htail
    obtain ⟨m1, m2, rfl, hm1, hm2⟩ := List.filter_eq_append_iff.1 hl
    obtain ⟨n1, n2, rfl, hn1, -, -⟩ := List.filter_eq_cons_iff.1 hm2
    refine ⟨c :: (m1 ++ n1), n2, by simp, fun x hx => ?_⟩
    rcases List.mem_cons.1 hx with rfl | hx
    · exact List.mem_cons_self ..
    by_cases hxc : x = c
    · exact hxc ▸ List.mem_cons_self ..
    rcases List.mem_append.1 hx with hx | hx
    · exact List.mem_cons_of_mem _ (hpre x (hm1 ▸ List.mem_filter.2 ⟨hx, by simpa using hxc⟩))
    · exact absurd (by simpa using hxc) (hn1 x hx)

/-- The actions of smaller numbers run first. -/
theorem acts_split {c : UInt8} {s : State A} {a : A} {pre post : List A} (h : s.acts c = pre ++ a :: post) :
    ∃ n, (∃ m ∈ s.moves c, (n, a) ∈ m.1.acts) ∧ ∀ m ∈ s.moves c, ∀ x ∈ m.1.acts, x.1 < n → x.2 ∈ pre := by
  rw [acts] at h
  have hsort := pairwise_number ((s.moves c).flatMap fun m => m.1.acts).eraseDups
  have hmem : ∀ x, x ∈ ((s.moves c).flatMap fun m => m.1.acts).eraseDups.insertionSort (fun x y => x.1 ≤ y.1) ↔
      ∃ m ∈ s.moves c, x ∈ m.1.acts := by
    intro x
    rw [List.mem_insertionSort, List.mem_eraseDups, List.mem_flatMap]
  generalize ((s.moves c).flatMap fun m => m.1.acts).eraseDups.insertionSort (fun x y => x.1 ≤ y.1) = l at h hsort hmem
  obtain ⟨k1, k2, hk, hpre⟩ := eraseDups_split h
  obtain ⟨l1, l2, rfl, rfl, h2⟩ := List.map_eq_append_iff.1 hk
  obtain ⟨⟨n, a⟩, l2, rfl, rfl, rfl⟩ := List.map_eq_cons_iff.1 h2
  refine ⟨n, (hmem _).1 (by simp), fun m hm x hx hlt => ?_⟩
  rcases List.mem_append.1 ((hmem x).2 ⟨m, hm, hx⟩) with hx | hx
  · exact hpre _ (List.mem_map_of_mem hx)
  · exfalso
    rcases List.mem_cons.1 hx with rfl | hx
    · exact Nat.lt_irrefl _ hlt
    · have := List.rel_of_pairwise_cons (List.pairwise_append.1 hsort).2.1 hx
      exact Nat.not_lt_of_le this hlt

theorem mem_step {c : UInt8} {s : State A} {e : Expr A} : e ∈ s.step c ↔ ∃ m ∈ s.moves c, m.2 = e := by
  rw [step, List.mem_eraseDups, List.mem_map]

theorem final_step {c : UInt8} {s : State A} : (s.step c).final = true ↔ ∃ m ∈ s.moves c, m.2.final = true := by
  simp only [final, List.any_eq_true, mem_step]
  constructor
  · rintro ⟨_, ⟨m, hm, rfl⟩, hf⟩
    exact ⟨m, hm, hf⟩
  · rintro ⟨m, hm, hf⟩
    exact ⟨m.2, ⟨m, hm, rfl⟩, hf⟩

omit [DecidableEq A] in
theorem exists_of_mem_moves {c : UInt8} {s : State A} {m : Label A × Expr A} (h : m ∈ s.moves c) :
    ∃ e ∈ s, m ∈ e.next c :=
  List.mem_flatMap.1 (List.mem_filter.1 h).1

/-- Every state has the action as the finishing action of the whole machine and nowhere else. -/
def Closes (a : A) (n : Nat) (s : State A) : Prop :=
  ∀ e ∈ s, ∃ f, e = .finishing ⟨[(n, a)], []⟩ f ∧ a ∉ f.embedded

omit [DecidableEq A] in
theorem Closes.moves {a : A} {n : Nat} {c : UInt8} {s : State A} (h : s.Closes a n) {m : Label A × Expr A}
    (hm : m ∈ s.moves c) : (∃ f, m.2 = .finishing ⟨[(n, a)], []⟩ f ∧ a ∉ f.embedded) ∧
      ((∃ k, (k, a) ∈ m.1.acts) ↔ m.2.final = true) := by
  obtain ⟨e, he, hm⟩ := exists_of_mem_moves hm
  obtain ⟨f, rfl, hf⟩ := h e he
  obtain ⟨m, hmf, rfl⟩ := List.mem_map.1 hm
  obtain ⟨h1, h2⟩ := Expr.next_embedded hmf
  refine ⟨⟨m.2, rfl, fun ha => hf (h2 a ha)⟩, ?_⟩
  have hno : ∀ k, (k, a) ∉ m.1.acts := fun k hk => hf (h1 _ hk)
  rw [Expr.final]
  split
  · rename_i hfin
    exact iff_of_true ⟨n, Expr.mem_acts_append.2 (.inr (by simp))⟩ hfin
  · rename_i hfin
    exact iff_of_false (fun ⟨k, hk⟩ => hno k hk) hfin

theorem Closes.step {a : A} {n : Nat} {c : UInt8} {s : State A} (h : s.Closes a n) : (s.step c).Closes a n := by
  intro e he
  obtain ⟨m, hm, rfl⟩ := mem_step.1 he
  exact (h.moves hm).1

/-- The closing action runs on exactly the transitions into a final state. -/
theorem Closes.mem_acts_iff {a : A} {n : Nat} {c : UInt8} {s : State A} (h : s.Closes a n) :
    a ∈ s.acts c ↔ (s.step c).final = true := by
  rw [mem_acts, final_step]
  exact exists_congr fun m => and_congr_right fun hm => (h.moves hm).2

end State

end Machine

/-! ## Rules -/

section Rules

variable {A : Type}

/-- An expression in the making: the counter numbers the embeddings in the order in which the
compiler walks the rules, a rule that is named twice being walked twice. -/
def Rule (A : Type) := Nat → Expr A × Nat

namespace Rule

def map (g : Expr A → Expr A) (r : Rule A) : Rule A := fun n => (g (r n).1, (r n).2)

def both (g : Expr A → Expr A → Expr A) (r t : Rule A) : Rule A := fun n =>
  (g (r n).1 (t (r n).2).1, (t (r n).2).2)

/-- An embedding that is numbered after the rule it is embedded in. -/
def numbered (g : Nat → Expr A → Expr A) (r : Rule A) : Rule A := fun n => (g (r n).2 (r n).1, (r n).2 + 1)

end Rule

def chars (k : ByteSet) : Rule A := fun n => (.char k, n)

/-- Concatenation, from the left. -/
def cat : List (Rule A) → Rule A
  | [] => fun n => (.eps, n)
  | r :: rs => rs.foldl (Rule.both .seq) r

/-- A literal text. -/
def lit (s : String) : Rule A := cat (s.toList.map fun c => chars (.byte c.toNat))

/-- Union. -/
def oneOf : List (Rule A) → Rule A
  | [] => fun n => (.eps, n)
  | r :: rs => rs.foldl (Rule.both .alt) r

/-- `r?`. -/
def opt (r : Rule A) : Rule A := r.map fun e => .alt e .eps

/-- `r*`, for a rule that does not accept the empty text. -/
def many (r : Rule A) : Rule A := r.map .star

/-- `r+`. -/
def many1 (r : Rule A) : Rule A := r.map fun e => .seq e (.star e)

def repeated (e : Expr A) (n : Nat) (last : Expr A) : Expr A := (List.replicate n e).foldr Expr.andThen last

/-- At most `n` times. -/
def upTo (e : Expr A) : Nat → Expr A
  | 0 => .eps
  | n + 1 => .alt (.seq e (upTo e n)) .eps

/-- `r{n}`. -/
def times (n : Nat) (r : Rule A) : Rule A := r.map fun e => repeated e n .eps

/-- `r{n,}`. -/
def atLeast (n : Nat) (r : Rule A) : Rule A := r.map fun e => repeated e n (.star e)

/-- `r{m,n}`. -/
def between (m n : Nat) (r : Rule A) : Rule A := r.map fun e => repeated e m (upTo e (n - m))

/-- `r >a`, numbered before the rule it is embedded in. -/
def entering (a : A) (r : Rule A) : Rule A := fun n => (.entering ⟨[(n, a)], []⟩ (r (n + 1)).1, (r (n + 1)).2)

/-- `r @a`. -/
def finishing (a : A) (r : Rule A) : Rule A := r.numbered fun n => .finishing ⟨[(n, a)], []⟩

/-- `r %a`. -/
def leaving (a : A) (r : Rule A) : Rule A := r.numbered fun n => .leaving ⟨[(n, a)], []⟩

/-- `r :> t`: `t` wins as soon as it can start. -/
def entryGuarded (r t : Rule A) : Rule A := fun n =>
  (.seq (.all ⟨[], [(n, 0)]⟩ (r (n + 1)).1) (.entering ⟨[], [(n, 1)]⟩ (t (r (n + 1)).2).1), (t (r (n + 1)).2).2)

/-- `r :>> t`: `t` wins as soon as it can end. -/
def finishGuarded (r t : Rule A) : Rule A := fun n =>
  (.seq (.all ⟨[], [(n, 0)]⟩ (r (n + 1)).1) (.finishing ⟨[], [(n, 1)]⟩ (t (r (n + 1)).2).1), (t (r (n + 1)).2).2)

/-- The start state of the machine of a rule. -/
def Rule.start (r : Rule A) : State A := [(r 0).1]

end Rules

end Ragel
