/-
`ByteArray::getReadBuffers`: the unread bytes as a list of buffers for `sendmsg`. The overload without a
position compares what a node holds with the length asked for at first, not with the length left.
-/
import ServerFrame.ByteArray.Scatter
import ServerFrame.Lib.Fallible
import Mathlib.Data.List.GetD

namespace ServerFrame.Buffers

open Blocks

/-- `a - b` of `uint64_t`. -/
def sub64 (a b : Nat) : Nat := if b ≤ a then a - b else a + 2 ^ 64 - b

namespace ByteArray

variable (s : ByteArray)

/-- The loop of `getReadBuffers(buffers, len)` over the chain from the node of number `i` on. -/
def readBuffersLoop (size : Nat) : List (List UInt8) → (i npos ncap len : Nat) → Except Fault (List IoVec)
  | _, _, _, _, 0 => .ok []
  | [], _, _, _, _ + 1 => .error .nullNode
  | _ :: rest, i, npos, ncap, len =>
    if ncap ≥ size then .ok [⟨i, npos, len⟩]
    else
      match rest with
      | [] => .error .nullNode
      | next :: _ =>
        match readBuffersLoop size rest (i + 1) 0 next.length (sub64 len ncap) with
        | .error f => .error f
        | .ok buffers => .ok (⟨i, npos, ncap⟩ :: buffers)

/-- `ByteArray::getReadBuffers(buffers, len)`: the result, the buffers and the state after. -/
def getReadBuffers (buffers : List IoVec) (len : Nat) : Except Fault (Nat × List IoVec × ByteArray) :=
  let len := if len > s.getReadSize then s.getReadSize else len
  if len = 0 then .ok (0, buffers, s)
  else
    match s.cur with
    | none => .error .nullNode
    | some c =>
      let npos := s.position % s.baseSize
      match s.nodes.drop c with
      | [] => .error .nullNode
      | node :: rest =>
        match readBuffersLoop len (node :: rest) c npos (node.length - npos) len with
        | .error f => .error f
        | .ok new => .ok (len, buffers ++ new, s)

/-- `ByteArray::getReadBuffers(buffers, len, position)`. Its loop is that of `getWriteBuffers`. -/
def getReadBuffersAt (buffers : List IoVec) (len position : Nat) : Except Fault (Nat × List IoVec) :=
  let len := if len > s.getReadSize then s.getReadSize else len
  if len = 0 then .ok (0, buffers)
  else
    let npos := position % s.baseSize
    let count := position / s.baseSize
    match s.nodes.drop count with
    | [] => .error .nullNode
    | node :: rest =>
      match buffersLoop (node :: rest) count npos (node.length - npos) len with
      | .error f => .error f
      | .ok new => .ok (len, buffers ++ new)

end ByteArray

/-! ## What buffers hold -/

/-- The byte of a node. -/
def byteAt (nodes : List (List UInt8)) (c : Nat × Nat) : UInt8 := (nodes.getD c.1 []).getD c.2 0

/-- The bytes that the buffers point at, one buffer after the other. -/
def gathered (nodes : List (List UInt8)) (vs : List IoVec) : List UInt8 := (vs.flatMap IoVec.cells).map (byteAt nodes)

theorem byteAt_cell {b : Nat} (hb : 0 < b) : ∀ {nodes : List (List UInt8)} {p : Nat}, Uniform b nodes →
    byteAt nodes (cell b p) = nodes.flatten.getD p 0
  | [], p, _ => by simp [byteAt]
  | node :: nodes, p, hu => by
    have hnode := hu.head
    rw [List.flatten_cons]
    by_cases hp : p < b
    · rw [byteAt, cell, Nat.div_eq_of_lt hp, Nat.mod_eq_of_lt hp, List.getD_cons_zero,
        List.getD_append _ _ _ _ (by rw [hnode]; exact hp)]
    · obtain ⟨q, rfl⟩ := Nat.exists_eq_add_of_le' (Nat.not_lt.1 hp)
      have hq := byteAt_cell hb (p := q) hu.tail
      rw [byteAt, cell, Nat.add_div_right _ hb, Nat.add_mod_right, List.getD_cons_succ,
        List.getD_append_right _ _ _ _ (by rw [hnode]; exact Nat.le_add_left _ _), hnode, Nat.add_sub_cancel]
      exact hq

/-- Buffers over a range of flat positions. -/
theorem gathered_range {b p n : Nat} {nodes : List (List UInt8)} {vs : List IoVec} (hb : 0 < b) (hu : Uniform b nodes)
    (hvs : vs.flatMap IoVec.cells = (List.range n).map fun j => cell b (p + j)) (hn : p + n ≤ nodes.flatten.length) :
    gathered nodes vs = (nodes.flatten.drop p).take n := by
  rw [gathered, hvs, List.map_map]
  refine List.ext_getElem ?_ fun j h1 h2 => ?_
  · rw [List.length_map, List.length_range, List.length_take, List.length_drop]
    omega
  · rw [List.length_map, List.length_range] at h1
    simp only [List.getElem_map, List.getElem_range, Function.comp_apply, byteAt_cell hb hu, List.getElem_take,
      List.getElem_drop]
    exact List.getD_eq_getElem _ _ _

theorem length_gathered {nodes : List (List UInt8)} {vs : List IoVec} :
    (gathered nodes vs).length = (vs.flatMap IoVec.cells).length := List.length_map ..

/-! ## The loops -/

section Loops

variable {b size : Nat}

section Step

variable {node next : List UInt8} {rest : List (List UInt8)} {i npos ncap len : Nat}

theorem buffersLoop_holds (h : ncap ≥ len + 1) :
    ByteArray.buffersLoop (node :: rest) i npos ncap (len + 1) = .ok [⟨i, npos, len + 1⟩] := by
  unfold ByteArray.buffersLoop
  rw [if_pos h]

theorem buffersLoop_next (h : ¬ ncap ≥ len + 1) :
    ByteArray.buffersLoop (node :: next :: rest) i npos ncap (len + 1) =
      (ByteArray.buffersLoop (next :: rest) (i + 1) 0 next.length (len + 1 - ncap)).map (⟨i, npos, ncap⟩ :: ·) := by
  rw [ByteArray.buffersLoop.eq_def]
  simp only [if_neg h]
  cases ByteArray.buffersLoop (next :: rest) (i + 1) 0 next.length (len + 1 - ncap) <;> rfl

theorem readBuffersLoop_holds (h : ncap ≥ size) :
    ByteArray.readBuffersLoop size (node :: rest) i npos ncap (len + 1) = .ok [⟨i, npos, len + 1⟩] := by
  unfold ByteArray.readBuffersLoop
  rw [if_pos h]

theorem readBuffersLoop_next (h : ¬ ncap ≥ size) :
    ByteArray.readBuffersLoop size (node :: next :: rest) i npos ncap (len + 1) =
      (ByteArray.readBuffersLoop size (next :: rest) (i + 1) 0 next.length (sub64 (len + 1) ncap)).map
        (⟨i, npos, ncap⟩ :: ·) := by
  rw [ByteArray.readBuffersLoop.eq_def]
  simp only [if_neg h]
  cases ByteArray.readBuffersLoop size (next :: rest) (i + 1) 0 next.length (sub64 (len + 1) ncap) <;> rfl

theorem readBuffersLoop_last (h : ¬ ncap ≥ size) :
    ByteArray.readBuffersLoop size [node] i npos ncap (len + 1) = .error .nullNode := by
  rw [ByteArray.readBuffersLoop.eq_def]
  simp only [if_neg h]

theorem buffersLoop_last (h : ¬ ncap ≥ len + 1) :
    ByteArray.buffersLoop [node] i npos ncap (len + 1) = .error .nullNode := by
  rw [ByteArray.buffersLoop.eq_def]
  simp only [if_neg h]

end Step

theorem length_cells {v : IoVec} : v.cells.length = v.length := by rw [IoVec.cells, List.length_map, List.length_range]

/-- The buffers of the loop with a position hold what is asked for, or the loop runs off the chain. -/
theorem length_buffersLoop : ∀ {chain : List (List UInt8)} {i npos ncap len : Nat} {vs : List IoVec},
    ByteArray.buffersLoop chain i npos ncap len = .ok vs → (vs.flatMap IoVec.cells).length = len
  | chain, i, npos, ncap, 0, vs, h => by
    rw [ByteArray.buffersLoop] at h
    cases h
    rfl
  | [], i, npos, ncap, len + 1, vs, h => by cases h
  | node :: rest, i, npos, ncap, len + 1, vs, h => by
    by_cases hge : ncap ≥ len + 1
    · rw [buffersLoop_holds hge] at h
      cases h
      rw [List.flatMap_singleton, length_cells]
    · cases rest with
      | nil =>
        rw [buffersLoop_last hge] at h
        cases h
      | cons next rest =>
        rw [buffersLoop_next hge] at h
        obtain ⟨us, hrun, rfl⟩ := Except.map_eq_ok h
        rw [List.flatMap_cons, List.length_append, length_cells, length_buffersLoop hrun]
        simp only
        omega

/-- Where one node could hold everything, the comparison with the first length does no harm. -/
theorem readBuffersLoop_small {chain : List (List UInt8)} {i npos : Nat} (hu : Uniform b chain) (hs : size ≤ b) :
    ByteArray.readBuffersLoop size chain i npos (b - npos) size =
      ByteArray.buffersLoop chain i npos (b - npos) size := by
  cases size with
  | zero => rw [ByteArray.readBuffersLoop, ByteArray.buffersLoop]
  | succ n =>
    rcases chain with _ | ⟨node, _ | ⟨next, rest⟩⟩
    · rfl
    · by_cases hge : b - npos ≥ n + 1
      · rw [readBuffersLoop_holds hge, buffersLoop_holds hge]
      · rw [readBuffersLoop_last hge, buffersLoop_last hge]
    · by_cases hge : b - npos ≥ n + 1
      · rw [readBuffersLoop_holds hge, buffersLoop_holds hge]
      · -- the next node holds what is left of them
        obtain ⟨k, hk⟩ : ∃ k, n + 1 - (b - npos) = k + 1 := ⟨n - (b - npos), by omega⟩
        rw [readBuffersLoop_next hge, buffersLoop_next hge, sub64, if_pos (by omega), hk, hu.tail.head,
          readBuffersLoop_holds hs, buffersLoop_holds (by omega)]

/-- Where the bytes end with a node that is not the last one, every node is taken whole. -/
theorem readBuffersLoop_whole (hb : 0 < b) (hs : b < size) : ∀ {chain : List (List UInt8)} {i npos len : Nat},
    Uniform b chain → npos < b → (npos + len) % b = 0 → npos + len < chain.length * b →
    ByteArray.readBuffersLoop size chain i npos (b - npos) len = ByteArray.buffersLoop chain i npos (b - npos) len
  | chain, i, npos, 0, _, _, _, _ => by rw [ByteArray.readBuffersLoop, ByteArray.buffersLoop]
  | [], i, npos, len + 1, _, _, _, hlt => by simp at hlt
  | [node], i, npos, len + 1, _, hn, hmod, hlt => by
    rw [List.length_singleton, Nat.one_mul] at hlt
    rw [Nat.mod_eq_of_lt hlt] at hmod
    omega
  | node :: next :: rest, i, npos, len + 1, hu, hn, hmod, hlt => by
    have hle : b - npos ≤ len + 1 := by
      by_contra hlt
      rw [Nat.mod_eq_of_lt (by omega)] at hmod
      omega
    have hrest : (0 + (len + 1 - (b - npos))) % b = 0 := by
      rw [show npos + (len + 1) = 0 + (len + 1 - (b - npos)) + b by omega, Nat.add_mod_right] at hmod
      exact hmod
    have hroom : 0 + (len + 1 - (b - npos)) < (next :: rest).length * b := by
      simp only [List.length_cons, Nat.succ_mul] at hlt ⊢
      omega
    have hrun := readBuffersLoop_whole hb hs (i := i + 1) hu.tail hb hrest hroom
    rw [Nat.sub_zero] at hrun
    rw [readBuffersLoop_next (by omega), sub64, if_pos hle, hu.tail.head, hrun]
    by_cases heq : b - npos = len + 1
    · -- the last node that is taken
      rw [buffersLoop_holds heq.ge, ← heq, Nat.sub_self, ByteArray.buffersLoop]
      rfl
    · rw [buffersLoop_next (by omega), hu.tail.head]

/-- More than a block is gathered only if it ends with a node that is not the last one. -/
theorem readBuffersLoop_ends (hb : 0 < b) (hs : b < size) : ∀ {chain : List (List UInt8)} {i npos len : Nat}
    {vs : List IoVec}, Uniform b chain → npos < b → 0 < len →
    ByteArray.readBuffersLoop size chain i npos (b - npos) len = .ok vs → (vs.flatMap IoVec.cells).length = len →
    (npos + len) % b = 0 ∧ npos + len < chain.length * b
  | chain, i, npos, 0, vs, _, _, h0, _, _ => absurd h0 (Nat.lt_irrefl 0)
  | [], i, npos, len + 1, vs, _, _, _, hrun, _ => by cases hrun
  | [node], i, npos, len + 1, vs, _, _, _, hrun, _ => by
    rw [readBuffersLoop_last (by omega)] at hrun
    cases hrun
  | node :: next :: rest, i, npos, len + 1, vs, hu, hn, _, hrun, htotal => by
    rw [readBuffersLoop_next (by omega), hu.tail.head] at hrun
    obtain ⟨us, hrest, rfl⟩ := Except.map_eq_ok hrun
    rw [List.flatMap_cons, List.length_append, length_cells] at htotal
    simp only at htotal
    rw [sub64, if_pos (by omega)] at hrest
    rcases Nat.eq_zero_or_pos (len + 1 - (b - npos)) with hzero | hpos
    · rw [show npos + (len + 1) = b by omega, Nat.mod_self]
      refine ⟨rfl, ?_⟩
      simp only [List.length_cons, Nat.succ_mul]
      omega
    · have hrest : ByteArray.readBuffersLoop size (next :: rest) (i + 1) 0 (b - 0)
        (len + 1 - (b - npos)) = .ok us := hrest
      obtain ⟨hmod, hlt⟩ := readBuffersLoop_ends hb hs hu.tail hb hpos hrest (by omega)
      constructor
      · rw [show npos + (len + 1) = 0 + (len + 1 - (b - npos)) + b by omega, Nat.add_mod_right]
        exact hmod
      · simp only [List.length_cons, Nat.succ_mul] at hlt ⊢
        omega

end Loops

/-! ## The operations -/

section Ops

variable {s : ByteArray} {n : Nat}

/-- The comparison with the first length does no harm: the bytes fit into one node, or end with a node that is not
the last one. -/
def Gathers (s : ByteArray) (n : Nat) : Prop :=
  n ≤ s.baseSize ∨ ((s.position + n) % s.baseSize = 0 ∧ s.position + n < s.capacity)

instance : Decidable (Gathers s n) := inferInstanceAs (Decidable (_ ∨ _))

/-- What is asked for, cut to what is unread. -/
theorem readLength_eq (s : ByteArray) (len : Nat) :
    (if len > s.getReadSize then s.getReadSize else len) = min len (s.size - s.position) := by
  rw [ByteArray.getReadSize]
  split <;> omega

theorem getReadBuffers_eq (h : WF s) (buffers : List IoVec) {len : Nat} (hn : 0 < min len (s.size - s.position)) :
    s.getReadBuffers buffers len =
      (ByteArray.readBuffersLoop (min len (s.size - s.position)) (s.nodes.drop (s.position / s.baseSize))
        (s.position / s.baseSize) (s.position % s.baseSize) (s.baseSize - s.position % s.baseSize)
        (min len (s.size - s.position))).map fun vs => (min len (s.size - s.position), buffers ++ vs, s) := by
  have hp : s.position < s.capacity := by
    have := h.size
    omega
  obtain ⟨⟨node, rest, hd, hnode⟩, -⟩ := chain_spec h hp
  simp only [ByteArray.getReadBuffers, readLength_eq, if_neg hn.ne', h.cur_of_lt hp, hd, hnode]
  cases ByteArray.readBuffersLoop _ _ _ _ _ _ <;> rfl

theorem getReadBuffersAt_eq (h : WF s) (buffers : List IoVec) {len p : Nat} (hn : 0 < min len (s.size - s.position)) :
    s.getReadBuffersAt buffers len p =
      (ByteArray.buffersLoop (s.nodes.drop (p / s.baseSize)) (p / s.baseSize) (p % s.baseSize)
        (s.baseSize - p % s.baseSize) (min len (s.size - s.position))).map fun vs =>
          (min len (s.size - s.position), buffers ++ vs) := by
  simp only [ByteArray.getReadBuffersAt, readLength_eq, if_neg hn.ne']
  obtain ⟨k, hk⟩ := Nat.exists_eq_succ_of_ne_zero hn.ne'
  cases hd : s.nodes.drop (p / s.baseSize) with
  | nil => rw [hk]; rfl
  | cons node rest =>
    have hnode : node.length = s.baseSize := h.blocks node (List.mem_of_mem_drop (hd ▸ List.mem_cons_self ..))
    simp only [hnode]
    cases ByteArray.buffersLoop _ _ _ _ _ <;> rfl

/-- The loop with a position gathers the bytes from there on. -/
theorem buffersLoop_gathers (h : WF s) {p : Nat} (hle : p + n ≤ s.capacity) :
    ∃ vs, ByteArray.buffersLoop (s.nodes.drop (p / s.baseSize)) (p / s.baseSize) (p % s.baseSize)
        (s.baseSize - p % s.baseSize) n = .ok vs ∧ gathered s.nodes vs = (s.flat.drop p).take n := by
  have hdm := Nat.div_add_mod' p s.baseSize
  have hroom : p % s.baseSize + n ≤ (s.nodes.drop (p / s.baseSize)).length * s.baseSize := by
    rw [List.length_drop, Nat.sub_mul, ← h.capacity]
    omega
  obtain ⟨vs, hrun, -, hcells⟩ := buffersLoop_spec h.base (h.blocks.drop (p / s.baseSize)) (Nat.mod_lt p h.base) hroom
  refine ⟨vs, hrun, gathered_range h.base h.blocks ?_ ?_⟩
  · rw [hcells, hdm]
  · exact hle.trans_eq h.length_flat.symm

theorem readBuffersLoop_eq (h : WF s) (hp : s.position < s.capacity) (hg : Gathers s n) :
    ByteArray.readBuffersLoop n (s.nodes.drop (s.position / s.baseSize)) (s.position / s.baseSize)
        (s.position % s.baseSize) (s.baseSize - s.position % s.baseSize) n =
      ByteArray.buffersLoop (s.nodes.drop (s.position / s.baseSize)) (s.position / s.baseSize)
        (s.position % s.baseSize) (s.baseSize - s.position % s.baseSize) n := by
  have hu := h.blocks.drop (s.position / s.baseSize)
  obtain ⟨-, hrest⟩ := chain_spec h hp
  by_cases hs : n ≤ s.baseSize
  · exact readBuffersLoop_small hu hs
  · obtain ⟨hmod, hlt⟩ := hg.resolve_left hs
    refine readBuffersLoop_whole h.base (Nat.not_le.1 hs) hu (Nat.mod_lt _ h.base) ?_ (by omega)
    rwa [Nat.mod_add_mod]

/-- `getReadBuffers(buffers, len)` gathers the next bytes exactly where one node could hold them or they end with a
node that is not the last one. -/
theorem gathers_next (h : WF s) (buffers : List IoVec) (len : Nat) :
    (∃ vs, s.getReadBuffers buffers len = .ok (min len (s.size - s.position), buffers ++ vs, s) ∧
      gathered s.nodes vs = (s.flat.drop s.position).take (min len (s.size - s.position))) ↔
    Gathers s (min len (s.size - s.position)) := by
  have hsize := h.size
  rcases Nat.eq_zero_or_pos (min len (s.size - s.position)) with hzero | hpos
  · have hlen : (if len > s.getReadSize then s.getReadSize else len) = 0 := (readLength_eq s len).trans hzero
    rw [hzero]
    refine iff_of_true ⟨[], ?_, by simp [gathered]⟩ (.inl (Nat.zero_le _))
    simp [ByteArray.getReadBuffers, hlen]
  · have hle : s.position + min len (s.size - s.position) ≤ s.capacity := by omega
    rw [getReadBuffers_eq h buffers hpos]
    constructor
    · rintro ⟨vs, hrun, hbytes⟩
      by_cases hs : min len (s.size - s.position) ≤ s.baseSize
      · exact .inl hs
      · obtain ⟨us, hloop, heq⟩ := Except.map_eq_ok hrun
        obtain rfl : us = vs := List.append_cancel_left (Prod.mk.inj (Prod.mk.inj heq).2).1
        have htotal := congrArg List.length hbytes
        rw [length_gathered, List.length_take, List.length_drop, h.length_flat] at htotal
        obtain ⟨hmod, hlt⟩ := readBuffersLoop_ends h.base (Nat.not_le.1 hs) (h.blocks.drop _) (Nat.mod_lt _ h.base) hpos
          hloop (by omega)
        obtain ⟨-, hrest⟩ := chain_spec h (show s.position < s.capacity by omega)
        rw [Nat.mod_add_mod] at hmod
        exact .inr ⟨hmod, by omega⟩
    · intro hg
      obtain ⟨vs, hrun, hbytes⟩ := buffersLoop_gathers h hle
      exact ⟨vs, by rw [readBuffersLoop_eq h (by omega) hg, hrun]; rfl, hbytes⟩

/-- Eight bytes in two blocks of four, all unread. -/
def twoBlocks : ByteArray :=
  { baseSize := 4, position := 0, capacity := 8, size := 8, nodes := [[1, 2, 3, 4], [5, 6, 7, 8]], cur := some 0 }

theorem twoBlocks_wf : WF twoBlocks where
  base := by decide
  root := by decide
  blocks := by unfold Uniform; decide
  capacity := by decide
  position := by decide
  size := by decide
  cur := by decide

theorem gathers_next_three : WF twoBlocks ∧
    ∃ vs, twoBlocks.getReadBuffers [] 3 = .ok (3, vs, twoBlocks) ∧ gathered twoBlocks.nodes vs = [1, 2, 3] :=
  ⟨twoBlocks_wf, (gathers_next twoBlocks_wf [] 3).2 (by decide)⟩

/-- All eight bytes are not gathered: the loop follows the null node behind the last block. -/
theorem whole_chain_not_gathered : ¬ ∀ s : ByteArray, WF s → ∀ buffers len,
    ∃ vs, s.getReadBuffers buffers len = .ok (min len (s.size - s.position), buffers ++ vs, s) ∧
      gathered s.nodes vs = (s.flat.drop s.position).take (min len (s.size - s.position)) := by
  intro h
  obtain ⟨vs, hrun, -⟩ := h twoBlocks twoBlocks_wf [] 8
  cases hrun

/-! ## From a position on -/

theorem gathers_at_iff (h : WF s) (buffers : List IoVec) (len : Nat) {p : Nat} (hp : p ≤ s.size) :
    (∃ r vs, s.getReadBuffersAt buffers len p = .ok (r, buffers ++ vs) ∧
      gathered s.nodes vs = (s.flat.drop p).take (min len (s.size - p))) ↔
    min len (s.size - s.position) = min len (s.size - p) := by
  have hsize := h.size
  have hslice : ((s.flat.drop p).take (min len (s.size - p))).length = min len (s.size - p) := by
    rw [List.length_take, List.length_drop, h.length_flat]
    omega
  rcases Nat.eq_zero_or_pos (min len (s.size - s.position)) with hzero | hpos
  · have hlen : (if len > s.getReadSize then s.getReadSize else len) = 0 := (readLength_eq s len).trans hzero
    have hrun : s.getReadBuffersAt buffers len p = .ok (0, buffers) := by simp [ByteArray.getReadBuffersAt, hlen]
    rw [hrun, hzero]
    constructor
    · rintro ⟨r, vs, hrun, hbytes⟩
      have hnil : vs = [] := List.append_right_eq_self.1 (Prod.mk.inj (Except.ok.inj hrun)).2.symm
      have htotal := congrArg List.length hbytes
      rw [hslice, hnil] at htotal
      exact htotal
    · intro heq
      rw [← heq]
      exact ⟨0, [], by rw [List.append_nil], rfl⟩
  · rw [getReadBuffersAt_eq h buffers hpos]
    constructor
    · rintro ⟨r, vs, hrun, hbytes⟩
      obtain ⟨us, hloop, heq⟩ := Except.map_eq_ok hrun
      obtain rfl : us = vs := List.append_cancel_left (Prod.mk.inj heq).2
      have htotal := congrArg List.length hbytes
      rwa [length_gathered, length_buffersLoop hloop, hslice] at htotal
    · intro heq
      have hle : p + min len (s.size - s.position) ≤ s.capacity := by omega
      obtain ⟨vs, hrun, hbytes⟩ := buffersLoop_gathers h hle
      exact ⟨_, vs, by rw [hrun]; rfl, by rw [← heq]; exact hbytes⟩

/-- At the position itself the overloads agree exactly where the other one gathers. -/
theorem overloads_agree_iff (h : WF s) (buffers : List IoVec) (len : Nat) :
    (s.getReadBuffers buffers len).map (fun r => (r.1, r.2.1)) = s.getReadBuffersAt buffers len s.position ↔
    Gathers s (min len (s.size - s.position)) := by
  rcases Nat.eq_zero_or_pos (min len (s.size - s.position)) with hzero | hpos
  · have hlen : (if len > s.getReadSize then s.getReadSize else len) = 0 := (readLength_eq s len).trans hzero
    rw [hzero]
    refine iff_of_true ?_ (.inl (Nat.zero_le _))
    simp [ByteArray.getReadBuffers, ByteArray.getReadBuffersAt, hlen]
    rfl
  · have hsize := h.size
    have hle : s.position + min len (s.size - s.position) ≤ s.capacity := by omega
    obtain ⟨vs, hrun, hbytes⟩ := buffersLoop_gathers h hle
    rw [getReadBuffersAt_eq h buffers hpos, hrun]
    constructor
    · intro hagree
      obtain ⟨⟨r, us, t⟩, hread, heq⟩ := Except.map_eq_ok hagree
      obtain ⟨rfl, rfl⟩ := Prod.mk.inj heq
      refine (gathers_next h buffers len).1 ⟨vs, ?_, hbytes⟩
      rw [hread]
      rw [getReadBuffers_eq h buffers hpos] at hread
      obtain ⟨_, -, heq⟩ := Except.map_eq_ok hread
      rw [(Prod.mk.inj (Prod.mk.inj heq).2).2]
    · intro hg
      rw [getReadBuffers_eq h buffers hpos, readBuffersLoop_eq h (by omega) hg, hrun]
      rfl

/-- `getReadBuffers(buffers, len, position)` gathers the bytes from there on, and as the other overload does where it
is at the position: the length is cut to what is unread of the cursor, not to what follows the argument. -/
theorem gathers_at (h : WF s) (buffers : List IoVec) (len : Nat) {p : Nat} (hp : p ≤ s.size) :
    ((∃ r vs, s.getReadBuffersAt buffers len p = .ok (r, buffers ++ vs) ∧
        gathered s.nodes vs = (s.flat.drop p).take (min len (s.size - p))) ∧
      (p = s.position →
        (s.getReadBuffers buffers len).map (fun r => (r.1, r.2.1)) = s.getReadBuffersAt buffers len p)) ↔
    (p = s.position ∧ Gathers s (min len (s.size - s.position))) ∨
      (p ≠ s.position ∧ len ≤ s.size - s.position ∧ len ≤ s.size - p) := by
  have hposition := h.position
  rw [gathers_at_iff h buffers len hp]
  by_cases heq : p = s.position
  · subst heq
    simp [overloads_agree_iff h buffers len]
  · simp only [heq, false_and, false_or, ne_eq, not_false_eq_true, true_and, false_imp_iff, and_true]
    omega

theorem gathers_at_two : WF twoBlocks ∧ 5 ≤ twoBlocks.size ∧
    (∃ r vs, twoBlocks.getReadBuffersAt [] 2 5 = .ok (r, vs) ∧ gathered twoBlocks.nodes vs = [6, 7]) :=
  ⟨twoBlocks_wf, by decide, ((gathers_at twoBlocks_wf [] 2 (by decide)).2 (.inr (by decide))).1⟩

/-- From 5 on three bytes are there; four are gathered, past the size, and the null node is followed. -/
theorem length_of_cursor : ¬ ∀ s : ByteArray, WF s → ∀ buffers len p, p ≤ s.size →
    ((∃ r vs, s.getReadBuffersAt buffers len p = .ok (r, buffers ++ vs) ∧
        gathered s.nodes vs = (s.flat.drop p).take (min len (s.size - p))) ∧
      (p = s.position →
        (s.getReadBuffers buffers len).map (fun r => (r.1, r.2.1)) = s.getReadBuffersAt buffers len p)) := by
  intro h
  obtain ⟨⟨r, vs, hrun, -⟩, -⟩ := h twoBlocks twoBlocks_wf [] 4 5 (by decide)
  cases hrun

end Ops

end ServerFrame.Buffers
