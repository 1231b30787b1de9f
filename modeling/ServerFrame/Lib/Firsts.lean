/-
The bytes on which an expression has a transition, as a set that is computed once: expressions of a state that have
none on a byte take no part in what the machine does there.
-/
import ServerFrame.Lib.Events

namespace Ragel

variable {A : Type}

namespace ByteSet

/-- The set of the bytes of a list. -/
def ofList (l : List UInt8) : ByteSet := l.foldr (fun c k => byte c.toNat ||| k) 0#256

theorem has_or (k l : ByteSet) (c : UInt8) : (k ||| l).has c = (k.has c || l.has c) := BitVec.getLsbD_or

theorem has_empty (c : UInt8) : has 0#256 c = false := BitVec.getLsbD_zero

theorem has_ofList {l : List UInt8} {c : UInt8} : (ofList l).has c = true ↔ c ∈ l := by
  induction l with
  | nil =>
    rw [ofList, List.foldr_nil, has_empty]
    simp
  | cons d l ih =>
    rw [ofList, List.foldr_cons, has_or, Bool.or_eq_true, has_byte d.toNat_lt, decide_eq_true_eq, UInt8.ofNat_toNat,
      List.mem_cons]
    exact or_congr_right ih

/-- A set within another has only bytes of it. -/
theorem has_of_diff {k l : ByteSet} (h : k &&& ~~~l = 0#256) {c : UInt8} (hc : k.has c = true) : l.has c = true := by
  have hbit : (k &&& ~~~l).getLsbD c.toNat = false := by rw [h, BitVec.getLsbD_zero]
  unfold has at hc ⊢
  have h256 : c.toNat < 256 := c.toNat_lt
  rw [BitVec.getLsbD_and, hc, Bool.true_and, BitVec.getLsbD_not, decide_eq_true h256, Bool.true_and,
    Bool.not_eq_false'] at hbit
  exact hbit

end ByteSet

namespace Expr

/-- The bytes on which the expression has a transition. -/
def firsts : Expr A → ByteSet
  | eps => 0#256
  | char k => k
  | seq e f => e.firsts ||| if e.final then f.firsts else 0#256
  | alt e f => e.firsts ||| f.firsts
  | star e => e.firsts
  | entering _ e | finishing _ e | leaving _ e | all _ e => e.firsts

theorem next_eq_nil_iff {c : UInt8} : ∀ {e : Expr A}, e.next c = [] ↔ e.firsts.has c = false
  | eps => by simp only [next, firsts, ByteSet.has_empty]
  | char k => by
    rw [next, firsts]
    cases k.has c <;> simp
  | seq e f => by
    rw [firsts, ByteSet.has_or, next, List.append_eq_nil_iff, List.map_eq_nil_iff, next_eq_nil_iff (e := e),
      Bool.or_eq_false_iff]
    refine and_congr_right fun _ => ?_
    split
    · rw [List.map_eq_nil_iff, next_eq_nil_iff (e := f)]
    · simp only [ByteSet.has_empty]
  | alt e f => by
    rw [firsts, ByteSet.has_or, next, List.append_eq_nil_iff, next_eq_nil_iff (e := e), next_eq_nil_iff (e := f),
      Bool.or_eq_false_iff]
  | star e | entering _ e | finishing _ e | leaving _ e | all _ e => by
    rw [firsts, next, List.map_eq_nil_iff, next_eq_nil_iff (e := e)]

end Expr

namespace State

variable [DecidableEq A] {c : UInt8} {s t : State A}

omit [DecidableEq A] in
theorem moves_append_of_firsts (h : ∀ e ∈ s, e.firsts.has c = false) : moves c (s ++ t) = moves c t := by
  have hnil : s.flatMap (Expr.next c) = [] := List.flatMap_eq_nil_iff.2 fun e he => Expr.next_eq_nil_iff.2 (h e he)
  rw [moves, moves, List.flatMap_append, hnil, List.nil_append]

/-- What has no transition on a byte takes no part in the step. -/
theorem step_append_of_firsts (h : ∀ e ∈ s, e.firsts.has c = false) : step c (s ++ t) = step c t := by
  rw [step, step, moves_append_of_firsts h]

theorem acts_append_of_firsts (h : ∀ e ∈ s, e.firsts.has c = false) : acts c (s ++ t) = acts c t := by
  rw [acts, acts, moves_append_of_firsts h]

end State

end Ragel
