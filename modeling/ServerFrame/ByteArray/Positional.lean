/-
`ByteArray::read(buf, size, position) const`: a read that leaves the cursor. It starts in the cursor's node, at
the offset that `position` has in its own.
-/
import ServerFrame.ByteArray.Gather

namespace ServerFrame.Buffers

open Blocks

namespace ByteArray

variable (s : ByteArray)

/-- `ByteArray::read(buf, size, position)`: the bytes. The loop is that of `read(buf, size)`. -/
def readAt (size position : Nat) : Except Fault (List UInt8) :=
  if size > sub64 s.size position then .error .outOfRange
  else
    match s.cur with
    | none => .error .nullNode
    | some c =>
      let npos := position % s.baseSize
      match s.nodes.drop c with
      | [] => .error .nullNode
      | node :: rest =>
        match readLoop (node :: rest) npos (node.length - npos) position size with
        | .error f => .error f
        | .ok (buf, _, _) => .ok buf

/-- `ByteArray::toString()`. -/
def toString : Except Fault (List UInt8) :=
  if s.getReadSize = 0 then .ok [] else s.readAt s.getReadSize s.position

end ByteArray

variable {s : ByteArray}

/-- The loop of `read` follows the null node when the chain is too short. -/
theorem readLoop_null {b : Nat} : ∀ {chain : List (List UInt8)} {npos p n : Nat}, Uniform b chain → npos < b → 0 < n →
    chain.length * b < npos + n → ByteArray.readLoop chain npos (b - npos) p n = .error .nullNode
  | chain, npos, p, 0, _, _, h0, _ => absurd h0 (Nat.lt_irrefl 0)
  | [], npos, p, n + 1, _, _, _, _ => rfl
  | [node], npos, p, n + 1, hu, hn, _, hlt => by
    rw [List.length_singleton, Nat.one_mul] at hlt
    rw [ByteArray.readLoop.eq_def]
    simp only [if_neg (show ¬ b - npos ≥ n + 1 by omega)]
  | node :: next :: rest, npos, p, n + 1, hu, hn, _, hlt => by
    simp only [List.length_cons, Nat.succ_mul] at hlt
    have hroom : (next :: rest).length * b < 0 + (n + 1 - (b - npos)) := by
      simp only [List.length_cons, Nat.succ_mul]
      omega
    have hrun := readLoop_null (p := p + (b - npos)) hu.tail (by omega) (by omega) hroom
    rw [Nat.sub_zero] at hrun
    rw [ByteArray.readLoop.eq_def]
    simp only [if_neg (show ¬ b - npos ≥ n + 1 by omega), hu.tail.head, hrun]

/-- Where `position` starts in the cursor's node. -/
def ByteArray.start (s : ByteArray) (position : Nat) : Nat :=
  s.position / s.baseSize * s.baseSize + position % s.baseSize

/-- Past the check the bytes are those from the cursor's node on. -/
theorem readAt_of_le (h : WF s) {n p : Nat} (hn : 0 < n) (hle : n ≤ sub64 s.size p) : s.readAt n p =
    if s.position < s.capacity ∧ s.start p + n ≤ s.capacity then .ok ((s.flat.drop (s.start p)).take n)
    else .error .nullNode := by
  rw [ByteArray.readAt, if_neg (Nat.not_lt.2 hle)]
  by_cases hp : s.position < s.capacity
  · obtain ⟨⟨node, rest, hd, hnode⟩, hrest⟩ := chain_spec h hp
    have hu := h.blocks.drop (s.position / s.baseSize)
    have hmod := Nat.mod_lt p h.base
    have hdm := Nat.div_add_mod' s.position s.baseSize
    simp only [h.cur_of_lt hp]
    by_cases hend : s.start p + n ≤ s.capacity
    · have hrun := readLoop_spec h.base (p := p) (n := n) hu hmod (by unfold ByteArray.start at hend; omega)
      rw [if_pos ⟨hp, hend⟩]
      rw [← h.blocks.drop_flatten (h.div_lt hp).le, List.drop_drop] at hrun
      rw [hd] at hrun ⊢
      simp only [hnode, hrun]
      rfl
    · have hrun := readLoop_null (p := p) hu hmod hn (by unfold ByteArray.start at hend; omega)
      rw [if_neg fun hc => hend hc.2]
      rw [hd] at hrun ⊢
      simp only [hnode, hrun]
  · have hcur : s.cur = none := by rw [h.cur, if_pos (by have := h.position_le; omega)]
    rw [if_neg fun hc => hp hc.1]
    simp only [hcur]

/-- In the cursor's block the start is the position itself. -/
theorem start_of_same_block {p : Nat} (h : p / s.baseSize = s.position / s.baseSize) : s.start p = p := by
  rw [ByteArray.start, ← h, Nat.div_add_mod']

/-- `toString()` returns what is unread: there the position is the cursor's. -/
theorem toString_eq (h : WF s) : s.toString = .ok s.unread := by
  have hposition := h.position
  have hsize := h.size
  rw [ByteArray.toString, ByteArray.getReadSize, ByteArray.unread]
  by_cases h0 : s.size - s.position = 0
  · rw [if_pos h0, h0, List.take_zero]
  · have hstart : s.start s.position = s.position := start_of_same_block rfl
    rw [if_neg h0, readAt_of_le h (by omega) (by rw [sub64, if_pos hposition]), hstart, if_pos (by omega)]

/-- A positional read is right exactly where its check does not wrap and, past it, the cursor's node is not null and
leads to the same bytes, as it does when the position lies in its block. -/
theorem readAt_exact (h : WF s) {n p : UInt64} (hn : 1 ≤ n) :
    ((s.readAt n.toNat p.toNat = .error .outOfRange ↔ s.size < p.toNat + n.toNat) ∧
      (p.toNat + n.toNat ≤ s.size → s.readAt n.toNat p.toNat = .ok ((s.flat.drop p.toNat).take n.toNat))) ↔
    (s.size < p.toNat + n.toNat ∧ (s.size < p.toNat → s.size + 2 ^ 64 < p.toNat + n.toNat)) ∨
      (p.toNat + n.toNat ≤ s.size ∧ s.position < s.capacity ∧ s.start p.toNat + n.toNat ≤ s.capacity ∧
        (s.flat.drop (s.start p.toNat)).take n.toNat = (s.flat.drop p.toNat).take n.toNat) := by
  have hpos : 0 < n.toNat := UInt64.le_iff_toNat_le.1 hn
  have hp := p.toNat_lt
  have hn := n.toNat_lt
  generalize n.toNat = n at *
  generalize p.toNat = p at *
  rcases Nat.lt_or_ge s.size (p + n) with hlt | hge
  -- beyond the end the call has to throw, which it does unless the subtraction wraps around
  · have hcheck : n > sub64 s.size p ↔ (s.size < p → s.size + 2 ^ 64 < p + n) := by
      rw [sub64]
      split <;> omega
    rw [← hcheck]
    by_cases hw : n > sub64 s.size p
    · have hthrow : s.readAt n p = .error .outOfRange := by rw [ByteArray.readAt, if_pos hw]
      exact iff_of_true ⟨iff_of_true hthrow hlt, fun hle => absurd hlt (by omega)⟩ (.inl ⟨hlt, hw⟩)
    · refine iff_of_false (fun hex => ?_) ?_
      · have hthrow := hex.1.2 hlt
        rw [readAt_of_le h hpos (Nat.not_lt.1 hw)] at hthrow
        split at hthrow <;> cases hthrow
      · rintro (⟨-, hw'⟩ | ⟨hle, -⟩)
        · exact hw hw'
        · omega
  -- within the bounds the check passes, and the walk begins at the cursor's block
  · have hle : n ≤ sub64 s.size p := by rw [sub64, if_pos (by omega)]; omega
    rw [readAt_of_le h hpos hle]
    constructor
    · rintro ⟨-, hex⟩
      have hex := hex hge
      split at hex
      · rename_i hc
        exact .inr ⟨hge, hc.1, hc.2, Except.ok.inj hex⟩
      · cases hex
    · rintro (⟨hlt, -⟩ | ⟨-, hc1, hc2, heq⟩)
      · omega
      · rw [if_pos ⟨hc1, hc2⟩, heq]
        exact ⟨iff_of_false (fun he => by cases he) (by omega), fun _ => rfl⟩

theorem readAt_exact_same_block : WF twoBlocks ∧ (1 : UInt64) ≤ 2 ∧ twoBlocks.readAt 2 1 = .ok [2, 3] :=
  ⟨twoBlocks_wf, by decide, ((readAt_exact twoBlocks_wf (n := 2) (p := 1) (by decide)).2 (.inr (by decide))).2
    (by decide)⟩

/-- With the cursor in the first block, the bytes of the first block are read at 5. -/
theorem other_block_read : ¬ ∀ s : ByteArray, WF s → ∀ n p : UInt64, 1 ≤ n →
    (s.readAt n.toNat p.toNat = .error .outOfRange ↔ s.size < p.toNat + n.toNat) ∧
      (p.toNat + n.toNat ≤ s.size → s.readAt n.toNat p.toNat = .ok ((s.flat.drop p.toNat).take n.toNat)) := by
  intro h
  have hread := (h twoBlocks twoBlocks_wf 2 5 (by decide)).2 (by decide)
  revert hread
  decide

end ServerFrame.Buffers
