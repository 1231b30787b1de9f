/-
`ByteArray::getWriteBuffers`: the memory behind the position as a list of buffers for `recvmsg`, which
the kernel fills before the caller moves the position. `iov_base` is a node's number and an offset in its
block.
-/
import ServerFrame.ByteArray.Chain

namespace ServerFrame.Buffers

open Blocks

/-- `iovec`. -/
structure IoVec where
  node : Nat
  offset : Nat
  length : Nat
  deriving DecidableEq, Repr

namespace ByteArray

/-- The loop of `getWriteBuffers` over the chain from the node of number `i` on. -/
def buffersLoop : List (List UInt8) → (i npos ncap len : Nat) → Except Fault (List IoVec)
  | _, _, _, _, 0 => .ok []
  | [], _, _, _, _ + 1 => .error .nullNode
  | _ :: rest, i, npos, ncap, len =>
    if ncap ≥ len then .ok [⟨i, npos, len⟩]
    else
      match rest with
      | [] => .error .nullNode
      | next :: _ =>
        match buffersLoop rest (i + 1) 0 next.length (len - ncap) with
        | .error f => .error f
        | .ok buffers => .ok (⟨i, npos, ncap⟩ :: buffers)

/-- `ByteArray::getWriteBuffers(buffers, len)`: the result, the buffers and the state after. -/
def getWriteBuffers (s : ByteArray) (memory : Nat → UInt8) (buffers : List IoVec) (len : Nat) :
    Except Fault (Nat × List IoVec × ByteArray) :=
  if len = 0 then .ok (0, buffers, s)
  else
    let s := s.addCapacity memory len
    match s.cur with
    | none => .error .nullNode
    | some c =>
      let npos := s.position % s.baseSize
      match s.nodes.drop c with
      | [] => .error .nullNode
      | node :: rest =>
        match buffersLoop (node :: rest) c npos (node.length - npos) len with
        | .error f => .error f
        | .ok new => .ok (len, buffers ++ new, s)

end ByteArray

/-- What `recvmsg` does with the bytes it has received: they fill one buffer after the other. -/
def fill (nodes : List (List UInt8)) : List IoVec → List UInt8 → List (List UInt8)
  | [], _ => nodes
  | v :: vs, buf => fill (nodes.modify v.node fun x => store x v.offset (buf.take v.length)) vs (buf.drop v.length)

/-- `SocketStream::read(ba, length)` on a connected socket from which `recvmsg` returns these bytes. -/
def socketRead (s : ByteArray) (memory : Nat → UInt8) (length : Nat) (received : List UInt8) :
    Except Fault (Nat × ByteArray) :=
  match s.getWriteBuffers memory [] length with
  | .error f => .error f
  | .ok (_, iovs, s) =>
    let s := { s with nodes := fill s.nodes iovs received }
    if received = [] then .ok (0, s)
    else
      match s.setPosition (s.position + received.length) with
      | .error f => .error f
      | .ok s => .ok (received.length, s)

theorem modify_append_cons {α : Type} (f : α → α) (x : α) (rest : List α) : ∀ pre : List α,
    (pre ++ x :: rest).modify pre.length f = pre ++ f x :: rest
  | [] => rfl
  | y :: pre => by
    rw [List.cons_append, List.length_cons, List.modify_succ_cons, modify_append_cons f x rest pre, List.cons_append]

/-! ## Where buffers lie -/

/-- The node and the offset of a flat position. -/
def cell (b p : Nat) : Nat × Nat := (p / b, p % b)

/-- The bytes of a buffer, in order. -/
def IoVec.cells (v : IoVec) : List (Nat × Nat) := (List.range v.length).map fun j => (v.node, v.offset + j)

theorem cell_injective {b : Nat} : Function.Injective (cell b) := by
  intro p q h
  simp only [cell, Prod.mk.injEq] at h
  rw [← Nat.div_add_mod p b, ← Nat.div_add_mod q b, h.1, h.2]

theorem cell_of_lt {b i o : Nat} (ho : o < b) : cell b (i * b + o) = (i, o) := by
  rw [cell, Nat.add_comm, Nat.add_mul_div_right _ _ (by omega), Nat.div_eq_of_lt ho, Nat.add_mul_mod_self_right,
    Nat.mod_eq_of_lt ho, Nat.zero_add]

/-- A buffer inside one block. -/
theorem cells_eq {b i o n : Nat} (h : o + n ≤ b) :
    IoVec.cells ⟨i, o, n⟩ = (List.range n).map fun j => cell b (i * b + o + j) := by
  rw [IoVec.cells]
  refine List.map_congr_left fun j hj => ?_
  have hj : j < n := List.mem_range.1 hj
  rw [Nat.add_assoc, cell_of_lt (by omega)]

section Loop

variable {b : Nat}

/-- The loop returns buffers that are not empty and that make up the bytes from the offset on. -/
theorem buffersLoop_spec (hb : 0 < b) : ∀ {chain : List (List UInt8)} {i npos n : Nat},
    Uniform b chain → npos < b → npos + n ≤ chain.length * b →
    ∃ vs, ByteArray.buffersLoop chain i npos (b - npos) n = .ok vs ∧ (∀ v ∈ vs, 0 < v.length) ∧
      vs.flatMap IoVec.cells = (List.range n).map fun j => cell b (i * b + npos + j)
  | chain, i, npos, 0, hu, hn, hle => ⟨[], by simp [ByteArray.buffersLoop]⟩
  | [], i, npos, n + 1, hu, hn, hle => by simp at hle
  | node :: rest, i, npos, n + 1, hu, hn, hle => by
    unfold ByteArray.buffersLoop
    split
    · rename_i hge
      refine ⟨_, rfl, by simp, ?_⟩
      rw [List.flatMap_singleton, cells_eq (b := b) (by omega)]
    · rename_i hlt
      match rest, hle with
      | [], hle =>
        simp only [List.length_cons, List.length_nil] at hle
        omega
      | next :: rest, hle =>
        -- the rest of this node, and the buffers from the start of the next one on
        have hroom : 0 + (n + 1 - (b - npos)) ≤ (next :: rest).length * b := by
          simp only [List.length_cons, Nat.succ_mul] at hle ⊢
          omega
        obtain ⟨vs, hrun, hne, hcells⟩ := buffersLoop_spec hb (i := i + 1) hu.tail hb hroom
        rw [Nat.sub_zero] at hrun
        simp only [hu.tail.head, hrun]
        refine ⟨_, rfl, ?_, ?_⟩
        · intro v hv
          rcases List.mem_cons.1 hv with rfl | hv
          · simp only
            omega
          · exact hne v hv
        · have hsum : n + 1 = (b - npos) + (n + 1 - (b - npos)) := by omega
          rw [List.flatMap_cons, hcells, cells_eq (b := b) (by omega)]
          conv_rhs => rw [hsum, List.range_add, List.map_append, List.map_map]
          congr 1
          refine List.map_congr_left fun j _ => ?_
          rw [Function.comp_apply]
          congr 1
          rw [Nat.add_mul]
          omega

/-- Filling the buffers of the loop with at most as many bytes as they hold stores the bytes from the offset on. -/
theorem fill_buffersLoop (hb : 0 < b) : ∀ {chain : List (List UInt8)} {i npos n : Nat} {vs : List IoVec}
    {buf : List UInt8}, Uniform b chain → npos < b → npos + n ≤ chain.length * b → buf.length ≤ n →
    ByteArray.buffersLoop chain i npos (b - npos) n = .ok vs →
    ∃ chain', (∀ pre : List (List UInt8), pre.length = i → fill (pre ++ chain) vs buf = pre ++ chain') ∧
      Uniform b chain' ∧ chain'.length = chain.length ∧ chain'.flatten = store chain.flatten npos buf
  | chain, i, npos, 0, vs, buf, hu, hn, hle, hbuf, hrun => by
    obtain rfl : buf = [] := List.length_eq_zero_iff.1 (Nat.le_zero.1 hbuf)
    rw [ByteArray.buffersLoop] at hrun
    cases hrun
    exact ⟨chain, fun _ _ => rfl, hu, rfl, by simp [store]⟩
  | [], i, npos, n + 1, vs, buf, hu, hn, hle, hbuf, hrun => by simp at hle
  | node :: rest, i, npos, n + 1, vs, buf, hu, hn, hle, hbuf, hrun => by
    have hnode := hu.head
    unfold ByteArray.buffersLoop at hrun
    split at hrun
    · rename_i hge
      cases hrun
      have hlen : (store node npos buf).length = b := by rw [length_store (by omega), hnode]
      refine ⟨store node npos buf :: rest, fun pre hpre => ?_, hu.tail.cons hlen, rfl, ?_⟩
      · rw [fill, fill, List.take_of_length_le hbuf, ← hpre, modify_append_cons]
      · rw [List.flatten_cons, List.flatten_cons, store_append_left (by omega)]
    · rename_i hlt
      rcases rest with _ | ⟨next, rest⟩
      · simp only [List.length_cons, List.length_nil] at hle
        omega
      · simp only [hu.tail.head] at hrun
        split at hrun
        · cases hrun
        · rename_i us hrest
          cases hrun
          have hroom : 0 + (n + 1 - (b - npos)) ≤ (next :: rest).length * b := by
            simp only [List.length_cons, Nat.succ_mul] at hle ⊢
            omega
          have hmore : (buf.drop (b - npos)).length ≤ n + 1 - (b - npos) := by
            rw [List.length_drop]
            omega
          obtain ⟨chain', hfill, hu', hl', hf'⟩ :=
            fill_buffersLoop hb hu.tail hb hroom hmore (by rw [Nat.sub_zero]; exact hrest)
          have hlen : (store node npos (buf.take (b - npos))).length = b := by
            rw [length_store (by simp; omega), hnode]
          refine ⟨store node npos (buf.take (b - npos)) :: chain', fun pre hpre => ?_, hu'.cons hlen, by simp [hl'], ?_⟩
          · rw [fill, ← hpre, modify_append_cons, List.append_cons, hfill _ (by simp [hpre]), List.append_assoc,
              List.singleton_append]
          · rw [List.flatten_cons, hf', List.flatten_cons (l := node)]
            by_cases hfit : npos + buf.length ≤ node.length
            · have hnil : buf.drop (b - npos) = [] := List.drop_eq_nil_of_le (by omega)
              rw [store_append_left hfit, hnil, List.take_of_length_le (by omega)]
              simp [store]
            · rw [store_append (by omega) (by omega), hnode]

end Loop

/-! ## The operations -/

section Ops

variable {s : ByteArray}

/-- `getWriteBuffers` returns buffers for the bytes behind the position, growing the chain as far as they need, and
filling them stores there. -/
theorem getWriteBuffers_spec (h : WF s) (memory : Nat → UInt8) (buffers : List IoVec) {len : Nat} (hlen : 0 < len) :
    ∃ vs, s.getWriteBuffers memory buffers len = .ok (len, buffers ++ vs, s.addCapacity memory len) ∧
      (∀ v ∈ vs, 0 < v.length) ∧
      vs.flatMap IoVec.cells = (List.range len).map (fun j => cell s.baseSize (s.position + j)) ∧
      ∀ buf : List UInt8, buf.length ≤ len →
        let nodes := fill (s.addCapacity memory len).nodes vs buf
        Uniform s.baseSize nodes ∧ nodes.length = (s.addCapacity memory len).nodes.length ∧
          nodes.flatten = store (s.addCapacity memory len).flat s.position buf := by
  obtain ⟨ht, hbase, hpos, hsize, hcap, -⟩ := addCapacity_spec h memory len
  unfold ByteArray.getWriteBuffers
  rw [if_neg (by omega)]
  generalize s.addCapacity memory len = t at *
  have hround := le_ceilDiv_mul h.base (s.position + len)
  have hroom : (s.position + len) ⌈/⌉ s.baseSize * s.baseSize ≤ t.capacity := by
    rw [hcap]
    exact le_max_right _ _
  have hp : t.position < t.capacity := by omega
  obtain ⟨⟨node, rest, hd, hnode⟩, hrest⟩ := chain_spec ht hp
  have hu := ht.blocks.drop (t.position / t.baseSize)
  have hmod := Nat.mod_lt t.position ht.base
  have hdm := Nat.div_add_mod' t.position t.baseSize
  have hle : t.position % t.baseSize + len ≤ (t.nodes.drop (t.position / t.baseSize)).length * t.baseSize := by omega
  obtain ⟨vs, hrun, hne, hcells⟩ := buffersLoop_spec ht.base (i := t.position / t.baseSize) hu hmod hle
  have hfill := fun (buf : List UInt8) (hbuf : buf.length ≤ len) => fill_buffersLoop ht.base hu hmod hle hbuf hrun
  simp only [ht.cur_of_lt hp]
  rw [hd] at hrun
  simp only [hd, hnode, hrun]
  refine ⟨vs, rfl, hne, ?_, ?_⟩
  · rw [hcells, hdm, hbase, hpos]
  · intro buf hbuf
    obtain ⟨chain', hfill, hu', hl', hf'⟩ := hfill buf hbuf
    have hdiv := ht.div_lt hp
    have hnodes := hfill (t.nodes.take (t.position / t.baseSize)) (by rw [List.length_take]; omega)
    rw [List.take_append_drop] at hnodes
    simp only [hnodes]
    refine ⟨?_, ?_, ?_⟩
    · rw [← hbase]
      exact (ht.blocks.take _).append hu'
    · rw [List.length_append, hl', List.length_take, List.length_drop]
      omega
    · rw [List.flatten_append, hf', ht.blocks.store_flatten hdiv.le, hdm, hpos, ByteArray.flat]

/-- Moving the position over what was filled. -/
theorem setPosition_filled (h : WF s) (memory : Nat → UInt8) {len : Nat} {vs : List IoVec} {buf : List UInt8}
    (hbuf : buf.length ≤ len)
    (hfill : Uniform s.baseSize (fill (s.addCapacity memory len).nodes vs buf) ∧
      (fill (s.addCapacity memory len).nodes vs buf).length = (s.addCapacity memory len).nodes.length ∧
      (fill (s.addCapacity memory len).nodes vs buf).flatten = store (s.addCapacity memory len).flat s.position buf) :
    ∃ u, ByteArray.setPosition
        { s.addCapacity memory len with nodes := fill (s.addCapacity memory len).nodes vs buf }
        (s.position + buf.length) = .ok u ∧ WF u ∧
      u.flat = store (s.addCapacity memory len).flat s.position buf ∧ u.baseSize = s.baseSize ∧
      u.capacity = (s.addCapacity memory len).capacity ∧ u.position = s.position + buf.length ∧
      u.size = max s.size (s.position + buf.length) := by
  obtain ⟨ht, hbase, -, hsize, hcap, -⟩ := addCapacity_spec h memory len
  obtain ⟨hu, hl, hf⟩ := hfill
  have hround := le_ceilDiv_mul h.base (s.position + len)
  generalize s.addCapacity memory len = t at *
  have hwf : WF { t with nodes := fill t.nodes vs buf } := by
    refine ⟨ht.base, ?_, hbase ▸ hu, ?_, ht.position, ht.size, ht.cur⟩
    · rw [← List.length_pos_iff, hl, List.length_pos_iff]
      exact ht.root
    · simp only [hl]
      exact ht.capacity
  have hroom : s.position + buf.length ≤ t.capacity := by
    rw [hcap]
    exact le_max_of_le_right (by omega)
  obtain ⟨u, hset, hu', huflat, hubase, hupos, husize, hucap⟩ := setPosition_spec hwf hroom
  refine ⟨u, hset, hu', huflat.trans hf, hubase.trans hbase, hucap, hupos, ?_⟩
  rw [husize, hsize]

/-- The well-formed states as an invariant of the reading side. Nothing dereferences a null node; `read` returns
the bytes at the position, `addCapacity` grows by as few blocks as it can, and an exception leaves the state. -/
theorem cursor_invariant (h : WF s) :
    (∀ n, 0 < n →
      (n ≤ s.size - s.position → ∃ s', s.read n = .ok ((s.flat.drop s.position).take n, s') ∧ WF s') ∧
      (s.size - s.position < n → exec s (.read n) = .ok (s, .threw))) ∧
    (∀ v, (v ≤ s.capacity → ∃ s', s.setPosition v = .ok s' ∧ WF s') ∧
      (s.capacity < v → exec s (.setPosition v) = .ok (s, .threw))) ∧
    WF s.clear ∧
    (∀ memory n, WF (s.addCapacity memory n) ∧
      (∃ j, (s.addCapacity memory n).capacity = (s.nodes.length + j) * s.baseSize ∧
        n ≤ (s.addCapacity memory n).capacity - s.position ∧
        ∀ i, n ≤ (s.nodes.length + i) * s.baseSize - s.position → j ≤ i) ∧
      s.flat <+: (s.addCapacity memory n).flat ∧ (s.addCapacity memory n).position = s.position ∧
      (s.addCapacity memory n).size = s.size) ∧
    (∀ memory buffers n, 0 < n → ∃ r vs s', s.getWriteBuffers memory buffers n = .ok (r, vs, s') ∧ WF s') := by
  refine ⟨fun n hn => ⟨fun hle => ?_, fun hlt => ?_⟩, fun v => ⟨fun hle => ?_, fun hlt => ?_⟩, (clear_spec h).1,
    fun memory n => ?_, fun memory buffers n hn => ?_⟩
  · obtain ⟨s', hread, hwf, -⟩ := read_spec h hle (fun h0 => absurd h0 hn.ne')
    exact ⟨s', hread, hwf⟩
  · rw [exec, ByteArray.read, if_pos (by unfold ByteArray.getReadSize; omega)]
  · obtain ⟨s', hset, hwf, -⟩ := setPosition_spec h hle
    exact ⟨s', hset, hwf⟩
  · rw [exec, ByteArray.setPosition, if_pos hlt]
  · obtain ⟨hwf, -, hpos, hsize, hcap, hflat⟩ := addCapacity_spec h memory n
    have hp := h.position_le
    refine ⟨hwf, ?_, ⟨_, hflat.symm⟩, hpos, hsize⟩
    refine ⟨(s.position + n) ⌈/⌉ s.baseSize - s.nodes.length, ?_, ?_, ?_⟩
    · rw [hcap, h.capacity, ← max_mul_of_nonneg _ _ (Nat.zero_le s.baseSize)]
      congr 1
      omega
    · have hround := le_ceilDiv_mul h.base (s.position + n)
      rw [hcap]
      omega
    · intro i hi
      have hmore : s.nodes.length * s.baseSize ≤ (s.nodes.length + i) * s.baseSize :=
        Nat.mul_le_mul_right _ (Nat.le_add_right ..)
      have hblocks : (s.position + n) ⌈/⌉ s.baseSize ≤ s.nodes.length + i := by
        rw [ceilDiv_le_iff_le_mul h.base, Nat.mul_comm]
        rw [h.capacity] at hp
        omega
      omega
  · obtain ⟨vs, hrun, -⟩ := getWriteBuffers_spec h memory buffers hn
    exact ⟨_, _, _, hrun, (addCapacity_spec h memory n).1⟩

/-- A state in the middle of the second of two blocks. -/
def midway : ByteArray :=
  { baseSize := 2, position := 3, capacity := 4, size := 4, nodes := [[1, 2], [3, 4]], cur := some 1 }

theorem midway_wf : WF midway :=
  ⟨by decide, by decide, by unfold Uniform; decide, by decide, by decide, by decide, by decide⟩

theorem cursor_invariant_midway : WF midway ∧ WF midway.clear ∧
    ∃ s', midway.read 1 = .ok ([4], s') ∧ WF s' := by
  have h := cursor_invariant midway_wf
  exact ⟨midway_wf, h.2.2.1, (h.1 1 (by decide)).1 (by decide)⟩

/-- The buffers are put behind those that are there. -/
theorem getWriteBuffers_append (s : ByteArray) (memory : Nat → UInt8) (buffers : List IoVec) (len : Nat) :
    s.getWriteBuffers memory buffers len =
      (s.getWriteBuffers memory [] len).map fun r => (r.1, buffers ++ r.2.1, r.2.2) := by
  unfold ByteArray.getWriteBuffers
  split
  · exact congrArg (fun l => Except.ok (0, l, s)) (List.append_nil buffers).symm
  · dsimp only
    split
    · rfl
    · split
      · rfl
      · split <;> rfl

/-- Storing through buffers: they are the bytes behind the position, in order and without overlap, and once any part
of them is filled and the position moved over it, as `SocketStream::read` does, the state is the one after a write of
these bytes. -/
theorem scatter_write (h : WF s) (memory : Nat → UInt8) (buffers : List IoVec) {len : Nat} (hlen : 0 < len) :
    ∃ vs t, s.getWriteBuffers memory buffers len = .ok (len, buffers ++ vs, t) ∧
      (∀ v ∈ vs, 0 < v.length) ∧ (vs.Pairwise fun v w => ∀ c ∈ v.cells, c ∉ w.cells) ∧
      (vs.map IoVec.length).sum = len ∧
      vs.flatMap IoVec.cells = (List.range len).map (fun j => cell s.baseSize (s.position + j)) ∧
      t.position = s.position ∧ t.size = s.size ∧ s.flat <+: t.flat ∧
      ∀ buf : List UInt8, buf.length ≤ len →
        ∃ u, ByteArray.setPosition { t with nodes := fill t.nodes vs buf } (s.position + buf.length) = .ok u ∧ WF u ∧
          u.flat = store t.flat s.position buf ∧ u.baseSize = s.baseSize ∧ u.capacity = t.capacity ∧
          u.position = s.position + buf.length ∧ u.size = max s.size (s.position + buf.length) ∧
          (buf ≠ [] → socketRead s memory len buf = .ok (buf.length, u)) := by
  obtain ⟨ht, hbase, hpos, hsize, hcap, hflat⟩ := addCapacity_spec h memory len
  obtain ⟨vs, hrun, hne, hcells, hfill⟩ := getWriteBuffers_spec h memory [] hlen
  refine ⟨vs, _, by rw [getWriteBuffers_append, hrun]; rfl, hne, ?_, ?_, hcells, hpos, hsize, ⟨_, hflat.symm⟩, ?_⟩
  · -- the cells of all buffers are those of distinct positions
    have hnodup : (vs.flatMap IoVec.cells).Nodup := by
      rw [hcells]
      refine List.Nodup.map ?_ List.nodup_range
      intro i j hij
      have := cell_injective hij
      omega
    refine (List.nodup_flatMap.1 hnodup).2.imp ?_
    intro v w hvw c hv hw
    exact hvw hv hw
  · have hlength := congrArg List.length hcells
    rw [List.length_flatMap, List.length_map, List.length_range] at hlength
    rw [← hlength]
    congr 1
    refine List.map_congr_left fun v _ => ?_
    simp [IoVec.cells]
  · intro buf hbuf
    obtain ⟨u, hset, hwf, huflat, hubase, hucap, hupos, husize⟩ := setPosition_filled h memory hbuf (hfill buf hbuf)
    refine ⟨u, hset, hwf, huflat, hubase, hucap, hupos, husize, fun hreceived => ?_⟩
    have hmove := hset
    rw [← hpos] at hmove
    rw [socketRead, hrun]
    simp only [if_neg hreceived, List.nil_append, hmove]

theorem scatter_write_midway : WF midway ∧
    ∃ vs t, midway.getWriteBuffers (fun _ => 0) [] 3 = .ok (3, [] ++ vs, t) ∧ vs = [⟨1, 1, 1⟩, ⟨2, 0, 2⟩] := by
  obtain ⟨vs, t, hrun, -⟩ := scatter_write midway_wf (fun _ => 0) [] (show 0 < 3 by decide)
  refine ⟨midway_wf, vs, t, hrun, ?_⟩
  have heval : midway.getWriteBuffers (fun _ => 0) [] 3 =
      .ok (3, [⟨1, 1, 1⟩, ⟨2, 0, 2⟩], midway.addCapacity (fun _ => 0) 3) := by decide
  rw [heval] at hrun
  cases hrun
  rfl

end Ops

end ServerFrame.Buffers
