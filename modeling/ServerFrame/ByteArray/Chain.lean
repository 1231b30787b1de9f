/-
The block chain: well-formed states, in which the cached node is the one the position lies in, and
what the loops and the operations compute on them in terms of the flat content.
-/
import ServerFrame.ByteArray.Basic

namespace ServerFrame.Buffers

open Blocks

/-- The bytes of all nodes, in order. -/
def ByteArray.flat (s : ByteArray) : List UInt8 := s.nodes.flatten

/-- The bytes from the position up to the size. -/
def ByteArray.unread (s : ByteArray) : List UInt8 := (s.flat.drop s.position).take (s.size - s.position)

/-- A well-formed state: blocks of the base size that make up the capacity, position and size in
order, and the current node that of the position, null exactly at the end of the chain. -/
structure WF (s : ByteArray) : Prop where
  base : 0 < s.baseSize
  root : s.nodes ≠ []
  blocks : Uniform s.baseSize s.nodes
  capacity : s.capacity = s.nodes.length * s.baseSize
  position : s.position ≤ s.size
  size : s.size ≤ s.capacity
  cur : s.cur = if s.position = s.capacity then none else some (s.position / s.baseSize)

namespace WF

variable {s : ByteArray}

theorem position_le (h : WF s) : s.position ≤ s.capacity := h.position.trans h.size

theorem length_flat (h : WF s) : s.flat.length = s.capacity := by
  rw [ByteArray.flat, h.blocks.length_flatten, h.capacity]

theorem length_unread (h : WF s) : s.unread.length = s.size - s.position := by
  have hsize := h.size
  rw [ByteArray.unread, List.length_take, List.length_drop, h.length_flat]
  omega

/-- The node the position lies in. -/
theorem div_lt (h : WF s) (hp : s.position < s.capacity) : s.position / s.baseSize < s.nodes.length := by
  rw [Nat.div_lt_iff_lt_mul h.base, ← h.capacity]
  exact hp

theorem cur_of_lt (h : WF s) (hp : s.position < s.capacity) : s.cur = some (s.position / s.baseSize) := by
  rw [h.cur, if_neg (by omega)]

/-- The pointer to the node of a position, as the loops compute it. -/
theorem nodeAt_div (h : WF s) {v : Nat} (hv : v ≤ s.capacity) :
    s.nodeAt (v / s.baseSize) = if v = s.capacity then none else some (v / s.baseSize) := by
  have hlt : v / s.baseSize < s.nodes.length ↔ v < s.capacity := by rw [Nat.div_lt_iff_lt_mul h.base, h.capacity]
  unfold ByteArray.nodeAt
  by_cases hc : v = s.capacity
  · rw [if_neg (by omega), if_pos hc]
  · rw [if_pos (by omega), if_neg hc]

end WF

theorem uniform_newNode (memory : Nat → UInt8) (b k n : Nat) :
    Uniform b ((List.range n).map fun i => newNode memory b (k + i)) := by
  intro x hx
  obtain ⟨i, -, rfl⟩ := List.mem_map.1 hx
  simp [newNode]

theorem init_wf (memory : Nat → UInt8) {b : Nat} (hb : 0 < b) : WF (ByteArray.init memory b) where
  base := hb
  root := by simp [ByteArray.init]
  blocks := by
    intro x hx
    rw [List.mem_singleton.1 hx]
    simp [newNode, ByteArray.init]
  capacity := by simp [ByteArray.init]
  position := le_rfl
  size := Nat.zero_le _
  cur := by
    simp only [ByteArray.init, Nat.zero_div]
    rw [if_neg (by omega)]

/-! ## Growing -/

/-- The flat bytes of new memory from a position on. -/
def fresh (memory : Nat → UInt8) (start n : Nat) : List UInt8 := (List.range n).map fun j => memory (start + j)

theorem flatten_newNode (memory : Nat → UInt8) (b k : Nat) : ∀ n,
    ((List.range n).map fun i => newNode memory b (k + i)).flatten = fresh memory (k * b) (n * b)
  | 0 => by simp [fresh]
  | n + 1 => by
    rw [List.range_succ, List.map_append, List.flatten_append, flatten_newNode memory b k n]
    simp only [fresh, newNode, List.map_cons, List.map_nil, List.flatten_cons, List.flatten_nil, List.append_nil]
    rw [Nat.succ_mul, List.range_add, List.map_append, List.map_map]
    congr 1
    refine List.map_congr_left fun j _ => ?_
    simp only [Function.comp_apply]
    congr 1
    ring

/-- `addCapacity(n)` makes room for `n` bytes behind the position, in whole blocks and no more than it
has to, and leaves content, position and size. -/
theorem addCapacity_spec {s : ByteArray} (h : WF s) (memory : Nat → UInt8) (n : Nat) :
    WF (s.addCapacity memory n) ∧
    (s.addCapacity memory n).baseSize = s.baseSize ∧
    (s.addCapacity memory n).position = s.position ∧
    (s.addCapacity memory n).size = s.size ∧
    (s.addCapacity memory n).capacity = max s.capacity ((s.position + n) ⌈/⌉ s.baseSize * s.baseSize) ∧
    (s.addCapacity memory n).flat =
      s.flat ++ fresh memory s.capacity ((s.addCapacity memory n).capacity - s.capacity) := by
  have hp := h.position_le
  have hround : ∀ m, (s.capacity + m) ⌈/⌉ s.baseSize = s.nodes.length + m ⌈/⌉ s.baseSize := fun m => by
    rw [h.capacity, ceilDiv_mul_add h.base]
  have hstay : s.position + n ≤ s.capacity →
      max s.capacity ((s.position + n) ⌈/⌉ s.baseSize * s.baseSize) = s.capacity := by
    intro hle
    refine max_eq_left ?_
    rw [h.capacity] at hle ⊢
    refine Nat.mul_le_mul_right _ ?_
    rw [ceilDiv_le_iff_le_mul h.base, Nat.mul_comm]
    exact hle
  unfold ByteArray.addCapacity
  split
  · exact ⟨h, rfl, rfl, rfl, by rw [hstay (by omega)], by simp [fresh]⟩
  · simp only
    split
    · rename_i hc
      unfold ByteArray.getCapacity at hc
      exact ⟨h, rfl, rfl, rfl, by rw [hstay (by omega)], by simp [fresh]⟩
    · rename_i hn hc
      unfold ByteArray.getCapacity at hc ⊢
      -- the bytes that do not fit, in blocks
      generalize hk : (n - (s.capacity - s.position)) ⌈/⌉ s.baseSize = k
      have hcap : s.capacity + k * s.baseSize = (s.position + n) ⌈/⌉ s.baseSize * s.baseSize := by
        rw [show s.position + n = s.capacity + (n - (s.capacity - s.position)) by omega, hround, hk, Nat.add_mul,
          ← h.capacity]
      have hpos : 0 < k := by
        by_contra h0
        have h0 : k ≤ 0 := by omega
        rw [← hk, ceilDiv_le_iff_le_mul h.base] at h0
        omega
      have hlt : s.position < s.capacity + k * s.baseSize := by
        have := Nat.mul_pos hpos h.base
        omega
      refine ⟨⟨h.base, by simp [h.root], h.blocks.append (uniform_newNode _ _ _ _), ?_, h.position, ?_, ?_⟩, rfl,
        rfl, rfl, ?_, ?_⟩
      · simp [Nat.add_mul, h.capacity]
      · exact h.size.trans (Nat.le_add_right _ _)
      · simp only [if_neg hlt.ne, if_neg hpos.ne']
        split
        · rename_i h0
          rw [show s.position = s.nodes.length * s.baseSize by rw [← h.capacity]; omega, Nat.mul_div_cancel _ h.base]
        · exact h.cur_of_lt (by omega)
      · rw [← hcap]
        exact (max_eq_right (Nat.le_add_right _ _)).symm
      · simp only [ByteArray.flat, List.flatten_append, flatten_newNode, ← h.capacity, Nat.add_sub_cancel_left]

/-! ## The loops -/

section Loops

variable {b : Nat}

/-- The loop of `write` stores the bytes, and moves the position on to the end of the block it stops in. -/
theorem writeLoop_spec (hb : 0 < b) : ∀ {chain : List (List UInt8)} {npos p : Nat} {buf : List UInt8},
    Uniform b chain → npos < b → buf ≠ [] → npos + buf.length ≤ chain.length * b →
    ∃ chain', ByteArray.writeLoop chain npos (b - npos) p buf =
        .ok (chain', p + ((npos + buf.length) ⌈/⌉ b * b - npos), (npos + buf.length) / b) ∧
      Uniform b chain' ∧ chain'.length = chain.length ∧ chain'.flatten = store chain.flatten npos buf
  | [], npos, p, buf, hu, hn, hbuf, hle => by
    have := List.length_pos_iff.2 hbuf
    simp only [List.length_nil, Nat.zero_mul] at hle
    omega
  | node :: rest, npos, p, buf, hu, hn, hbuf, hle => by
    obtain ⟨x, xs, rfl⟩ := List.exists_cons_of_ne_nil hbuf
    have hnode := hu.head
    unfold ByteArray.writeLoop
    split
    · rename_i hge
      -- the rest fits into this node
      have hfit : npos + (x :: xs).length ≤ b := by omega
      have hlen : (store node npos (x :: xs)).length = b := by rw [length_store (by omega), hnode]
      refine ⟨store node npos (x :: xs) :: rest, ?_, hu.tail.cons hlen, rfl, ?_⟩
      · have hpos : 0 < (x :: xs).length := List.length_pos_iff.2 hbuf
        rw [ceilDiv_of_le (by omega) hfit, Nat.one_mul, hnode]
        congr 3
        split
        · rename_i he
          rw [← he, Nat.div_self hb]
        · rw [Nat.div_eq_of_lt (by omega)]
      · rw [List.flatten_cons, List.flatten_cons, store_append_left (by omega)]
    · rename_i hlt
      match rest, hle with
      | [], hle =>
        simp only [List.length_cons, List.length_nil] at hle hlt
        omega
      | next :: rest, hle =>
        -- this node is filled up, and the loop goes on at the start of the next one
        generalize hbuf' : x :: xs = buf at *
        have hlen : (buf.drop (b - npos)).length = buf.length - (b - npos) := List.length_drop ..
        have hne : buf.drop (b - npos) ≠ [] := by
          rw [← List.length_pos_iff, hlen]; omega
        have hsum : npos + buf.length = 1 * b + (0 + (buf.drop (b - npos)).length) := by rw [hlen]; omega
        obtain ⟨chain', hrun, hu', hl', hf'⟩ := writeLoop_spec hb (p := p + (b - npos)) hu.tail hb hne (by
          rw [hlen]; simp only [List.length_cons, Nat.succ_mul] at hle ⊢; omega)
        refine ⟨store node npos (buf.take (b - npos)) :: chain', ?_, hu'.cons ?_, by simp [hl'], ?_⟩
        · rw [Nat.sub_zero] at hrun
          simp only [hu.tail.head, hrun]
          rw [hsum, ceilDiv_mul_add hb, Nat.add_comm (1 * b), Nat.add_mul_div_right _ _ hb, Nat.add_mul]
          congr 3
          omega
        · rw [length_store (by simp; omega), hnode]
        · rw [List.flatten_cons, List.flatten_cons (l := node), hf', store_append (by omega) (by omega), hnode]

/-- The loop of `read` collects the bytes and moves the position over them. -/
theorem readLoop_spec (hb : 0 < b) : ∀ {chain : List (List UInt8)} {npos p n : Nat},
    Uniform b chain → npos < b → npos + n ≤ chain.length * b →
    ByteArray.readLoop chain npos (b - npos) p n = .ok ((chain.flatten.drop npos).take n, p + n, (npos + n) / b)
  | chain, npos, p, 0, hu, hn, hle => by
    simp [ByteArray.readLoop, Nat.div_eq_of_lt hn]
  | [], npos, p, n + 1, hu, hn, hle => by
    simp at hle
  | node :: rest, npos, p, n + 1, hu, hn, hle => by
    have hnode := hu.head
    unfold ByteArray.readLoop
    split
    · rename_i hge
      rw [List.flatten_cons, List.drop_append_of_le_length (by omega),
        List.take_append_of_le_length (by simp; omega), hnode]
      congr 3
      split
      · rename_i he
        rw [← he, Nat.div_self hb]
      · rw [Nat.div_eq_of_lt (by omega)]
    · rename_i hlt
      match rest, hle with
      | [], hle =>
        simp only [List.length_cons, List.length_nil] at hle
        omega
      | next :: rest, hle =>
        -- the rest of this node is taken, and the loop goes on at the start of the next one
        have hrun := readLoop_spec hb (p := p + (b - npos)) (n := n + 1 - (b - npos)) hu.tail hb (by
          simp only [List.length_cons, Nat.succ_mul] at hle ⊢; omega)
        rw [Nat.sub_zero] at hrun
        have hsum : npos + (n + 1) = (0 + (n + 1 - (b - npos))) + 1 * b := by omega
        have hsplit : ((node :: next :: rest).flatten.drop npos).take (n + 1) =
            (node.drop npos).take (b - npos) ++ ((next :: rest).flatten.drop 0).take (n + 1 - (b - npos)) := by
          have h1 : (node.drop npos).take (n + 1) = node.drop npos := List.take_of_length_le (by simp; omega)
          have h2 : (node.drop npos).take (b - npos) = node.drop npos := List.take_of_length_le (by simp; omega)
          rw [List.flatten_cons, List.drop_append_of_le_length (by omega), List.take_append, List.length_drop, hnode,
            List.drop_zero, h1, h2]
        simp only [hu.tail.head, hrun]
        rw [hsplit, hsum, Nat.add_mul_div_right _ _ hb]
        congr 3
        omega

/-- The walk of `setPosition` ends at the node of the position. -/
theorem seek_spec (hb : 0 < b) : ∀ {chain : List (List UInt8)} {v i : Nat}, Uniform b chain → chain ≠ [] →
    v ≤ chain.length * b → ByteArray.seek chain v i = .ok (i + v / b)
  | [], v, i, hu, hne, hv => absurd rfl hne
  | node :: rest, v, i, hu, hne, hv => by
    unfold ByteArray.seek
    rw [hu.head]
    split
    · rename_i hgt
      have hrest : rest ≠ [] := by
        rintro rfl
        simp at hv
        omega
      rw [seek_spec hb hu.tail hrest (by simp only [List.length_cons, Nat.succ_mul] at hv; omega)]
      have : v / b = (v - b) / b + 1 := by
        rw [← Nat.add_div_right _ hb, Nat.sub_add_cancel (by omega)]
      rw [this]
      congr 1
      omega
    · congr 1
      split
      · rename_i he
        rw [he, Nat.div_self hb]
      · rw [Nat.div_eq_of_lt (by omega)]; rfl

end Loops

/-! ## The operations -/

section Ops

variable {s : ByteArray}

/-- The chain from the node of the position on. -/
theorem chain_spec (h : WF s) (hp : s.position < s.capacity) :
    (∃ node rest, s.nodes.drop (s.position / s.baseSize) = node :: rest ∧ node.length = s.baseSize) ∧
    s.position % s.baseSize + (s.capacity - s.position) =
      (s.nodes.drop (s.position / s.baseSize)).length * s.baseSize := by
  have hlt := h.div_lt hp
  constructor
  · obtain ⟨node, rest, hd⟩ := List.exists_cons_of_ne_nil (l := s.nodes.drop (s.position / s.baseSize))
      (by rw [← List.length_pos_iff, List.length_drop]; omega)
    exact ⟨node, rest, hd, h.blocks node (List.mem_of_mem_drop (hd ▸ List.mem_cons_self ..))⟩
  · have := Nat.div_add_mod' s.position s.baseSize
    rw [List.length_drop, Nat.sub_mul, ← h.capacity]
    omega

/-- A write of at least one byte: the bytes are stored at the position, but the position moves on to
the end of the block in which they end. -/
theorem write_spec (h : WF s) (memory : Nat → UInt8) {buf : List UInt8} (hbuf : buf ≠ []) :
    ∃ s', s.write memory buf = .ok s' ∧ s'.baseSize = s.baseSize ∧
      s'.capacity = (s.addCapacity memory buf.length).capacity ∧
      s'.position = (s.position + buf.length) ⌈/⌉ s.baseSize * s.baseSize ∧ s'.size = max s.size s'.position ∧
      s'.flat = store (s.addCapacity memory buf.length).flat s.position buf ∧
      ((s.position + buf.length) % s.baseSize = 0 → WF s') := by
  obtain ⟨ht, hbase, hpos, hsize, hcap, -⟩ := addCapacity_spec h memory buf.length
  unfold ByteArray.write
  rw [if_neg hbuf]
  generalize s.addCapacity memory buf.length = t at *
  have hlen := List.length_pos_iff.2 hbuf
  have hround := le_ceilDiv_mul h.base (s.position + buf.length)
  have hroom : (s.position + buf.length) ⌈/⌉ s.baseSize * s.baseSize ≤ t.capacity := by
    rw [hcap]; exact le_max_right _ _
  have hp : t.position < t.capacity := by omega
  obtain ⟨⟨node, rest, hd, hnode⟩, hrest⟩ := chain_spec ht hp
  obtain ⟨chain', hrun, hu, hl, hf⟩ := writeLoop_spec ht.base (p := t.position)
    (ht.blocks.drop (t.position / t.baseSize))
    (Nat.mod_lt t.position ht.base) hbuf (by omega)
  simp only [ht.cur_of_lt hp]
  rw [hd] at hrun ⊢
  simp only [hnode, hrun]
  have hdm := Nat.div_add_mod' t.position t.baseSize
  -- the blocks before the current one only shift the rounding and the number of the last block
  have hend : t.position + buf.length =
      t.position / t.baseSize * t.baseSize + (t.position % t.baseSize + buf.length) := by
    omega
  have hceil : t.position +
      ((t.position % t.baseSize + buf.length) ⌈/⌉ t.baseSize * t.baseSize - t.position % t.baseSize) =
      (s.position + buf.length) ⌈/⌉ s.baseSize * s.baseSize := by
    have := le_ceilDiv_mul ht.base (t.position % t.baseSize + buf.length)
    rw [← hpos, ← hbase, hend, ceilDiv_mul_add ht.base, Nat.add_mul]
    omega
  have hmoved : t.position / t.baseSize + (t.position % t.baseSize + buf.length) / t.baseSize =
      (s.position + buf.length) / s.baseSize := by
    rw [← hpos, ← hbase, hend, Nat.add_comm (_ * _), Nat.add_mul_div_right _ _ ht.base, Nat.add_comm]
  have hnodes : (t.nodes.take (t.position / t.baseSize) ++ chain').length = t.nodes.length := by
    rw [List.length_append, hl, List.length_take, List.length_drop]
    have := ht.div_lt hp
    omega
  rw [hceil, hmoved, hsize]
  refine ⟨_, rfl, hbase, rfl, rfl, ?_, ?_, fun hal => ?_⟩
  · simp only
    split <;> omega
  · simp only [ByteArray.flat, List.flatten_append, hf]
    rw [ht.blocks.store_flatten (ht.div_lt hp).le, hdm, hpos]
  · -- on a boundary nothing is rounded, so the node the loop ends at is that of the position
    have hal := (ceilDiv_mul_eq_iff h.base _).2 hal
    refine ⟨ht.base, ?_, (ht.blocks.take _).append hu, ?_, ?_, ?_, ?_⟩
    · rw [← List.length_pos_iff, hnodes, List.length_pos_iff]
      exact ht.root
    · rw [hnodes]
      exact ht.capacity
    · simp only
      split <;> omega
    · have := ht.size
      simp only
      split <;> omega
    · simp only [hal]
      rw [← hbase, ht.nodeAt_div (by omega)]

/-- A read of as many bytes as there are: at least one, or the position is not at the end of the chain. -/
theorem read_spec (h : WF s) {n : Nat} (hn : n ≤ s.size - s.position) (hc : n = 0 → s.position ≠ s.capacity) :
    ∃ s', s.read n = .ok ((s.flat.drop s.position).take n, s') ∧ WF s' ∧ s'.flat = s.flat ∧
      s'.baseSize = s.baseSize ∧ s'.position = s.position + n ∧ s'.size = s.size ∧ s'.capacity = s.capacity := by
  have h1 := h.position
  have h2 := h.size
  have hp : s.position < s.capacity := by
    rcases Nat.eq_zero_or_pos n with h0 | h0
    · have := hc h0; omega
    · omega
  obtain ⟨⟨node, rest, hd, hnode⟩, hrest⟩ := chain_spec h hp
  have hrun := readLoop_spec h.base (p := s.position) (n := n) (h.blocks.drop (s.position / s.baseSize))
    (Nat.mod_lt s.position h.base) (by omega)
  have hdm := Nat.div_add_mod' s.position s.baseSize
  have hbytes : (s.nodes.drop (s.position / s.baseSize)).flatten.drop (s.position % s.baseSize) =
      s.flat.drop s.position := by
    rw [← h.blocks.drop_flatten (h.div_lt hp).le, List.drop_drop, hdm, ByteArray.flat]
  have hmoved : s.position / s.baseSize + (s.position % s.baseSize + n) / s.baseSize =
      (s.position + n) / s.baseSize := by
    rw [show s.position + n = (s.position % s.baseSize + n) + s.position / s.baseSize * s.baseSize by omega,
      Nat.add_mul_div_right _ _ h.base, Nat.add_comm]
  rw [hbytes, hd] at hrun
  unfold ByteArray.read
  rw [if_neg (by unfold ByteArray.getReadSize; omega)]
  simp only [h.cur_of_lt hp, hd, hnode, hrun, hmoved]
  refine ⟨_, rfl, ⟨h.base, h.root, h.blocks, h.capacity, ?_, h.size, ?_⟩, rfl, rfl, rfl, rfl, rfl⟩
  · simp only
    omega
  · exact h.nodeAt_div (by omega)

theorem setPosition_spec (h : WF s) {v : Nat} (hv : v ≤ s.capacity) :
    ∃ s', s.setPosition v = .ok s' ∧ WF s' ∧ s'.flat = s.flat ∧ s'.baseSize = s.baseSize ∧ s'.position = v ∧
      s'.size = max s.size v ∧ s'.capacity = s.capacity := by
  unfold ByteArray.setPosition
  rw [if_neg (by omega), seek_spec h.base h.blocks h.root (by rw [← h.capacity]; exact hv), Nat.zero_add]
  have hsize : (if v > s.size then v else s.size) = max s.size v := by split <;> omega
  refine ⟨_, rfl, ⟨h.base, h.root, h.blocks, h.capacity, ?_, ?_, h.nodeAt_div hv⟩, rfl, rfl, rfl, hsize, rfl⟩
  · simp only [hsize]
    exact le_max_right _ _
  · simp only [hsize]
    exact max_le h.size hv

theorem clear_spec (h : WF s) : WF s.clear ∧ s.clear.flat = s.flat.take s.baseSize := by
  obtain ⟨node, rest, hd⟩ := List.exists_cons_of_ne_nil h.root
  have hnode : node.length = s.baseSize := h.blocks node (by rw [hd]; exact List.mem_cons_self ..)
  refine ⟨⟨h.base, by simp [ByteArray.clear, hd], h.blocks.take 1, ?_, le_rfl, Nat.zero_le _, ?_⟩, ?_⟩
  · simp [ByteArray.clear, hd]
  · have := h.base
    simp only [ByteArray.clear, Nat.zero_div]
    rw [if_neg (by omega)]
  · simp [ByteArray.clear, ByteArray.flat, hd, ← hnode]

end Ops

end ServerFrame.Buffers
