/-
`ByteArray::writeToFile` and `ByteArray::readFromFile`. A stream takes and gives bytes without failing once it
is open.
-/
import ServerFrame.ByteArray.Flat
import ServerFrame.ByteArray.Gather

namespace ServerFrame.Buffers

open Blocks

/-- How a call of `ofs.write(cur->ptr + diff, len)` goes wrong. -/
inductive FileFault
  | nullNode
  | outsideNode
  | negativeLength
  deriving DecidableEq, Repr

/-- `int diff = v`. -/
def toInt (v : Nat) : Int := (v : Int).bmod (2 ^ 32)

namespace ByteArray

/-- The loop of `writeToFile` over the chain from the current node on. -/
def dumpLoop (baseSize : Nat) : List (List UInt8) → (pos read_size : Nat) → Except FileFault (List UInt8)
  | _, _, 0 => .ok []
  | [], _, _ + 1 => .error .nullNode
  | node :: rest, pos, read_size =>
    let diff := toInt (pos % baseSize)
    let len : Int := (if read_size > baseSize then baseSize else read_size) - diff
    if diff < 0 then .error .outsideNode
    else if len < 0 then .error .negativeLength
    else
      match dumpLoop baseSize rest (pos + len.toNat) (read_size - len.toNat) with
      | .error f => .error f
      | .ok file => .ok ((node.drop diff.toNat).take len.toNat ++ file)

/-- `ByteArray::writeToFile(name)`: the result, and what the file holds when it could be opened. -/
def writeToFile (s : ByteArray) (opened : Bool) : Except FileFault (Bool × List UInt8) :=
  if opened then
    match dumpLoop s.baseSize (match s.cur with | none => [] | some c => s.nodes.drop c) s.position s.getReadSize with
    | .error f => .error f
    | .ok file => .ok (true, file)
  else .ok (false, [])

end ByteArray

/-- What `readFromFile` hands to `write`: the file in parts of the base size, and what is left at its end. -/
def parts (baseSize : Nat) (file : List UInt8) : List (List UInt8) :=
  if file.length < baseSize ∨ baseSize = 0 then [file]
  else file.take baseSize :: parts baseSize (file.drop baseSize)
termination_by file.length
decreasing_by
  rw [List.length_drop]
  omega

/-- `readFromFile` into a flat buffer. -/
def Flat.readFromFile (f : Flat) (memory : Nat → UInt8) (file : List UInt8) : Flat :=
  (parts f.baseSize file).foldl (fun f buf => f.write memory buf) f

/-! ## Reading back -/

theorem flatten_parts {b : Nat} (file : List UInt8) : (parts b file).flatten = file := by
  induction file using parts.induct b with
  | case1 file h => rw [parts, if_pos h, List.flatten_singleton]
  | case2 file h ih => rw [parts, if_neg h, List.flatten_cons, ih, List.take_append_drop]

/-- The flat buffer holds these bytes, all written one after the other. -/
structure Flat.Holds (f : Flat) (file : List UInt8) : Prop where
  position : f.position = file.length
  size : f.size = file.length
  bytes : file <+: f.bytes

theorem Flat.Holds.write {f : Flat} {file : List UInt8} (h : f.Holds file) (memory : Nat → UInt8) (hb : 0 < f.baseSize)
    (buf : List UInt8) : (f.write memory buf).Holds (file ++ buf) ∧ (f.write memory buf).baseSize = f.baseSize := by
  rw [Flat.write]
  split
  · rename_i hnil
    rw [hnil, List.append_nil]
    exact ⟨h, rfl⟩
  · obtain ⟨rest, hrest⟩ := h.bytes
    have hround := le_ceilDiv_mul hb (f.position + buf.length)
    have hroom : f.position + buf.length ≤ f.room buf.length := hround.trans (le_max_right _ _)
    refine ⟨⟨?_, ?_, ?_⟩, rfl⟩
    · simp [h.position]
    · simp [h.position, h.size]
    · refine ⟨((f.bytes ++ fresh memory f.bytes.length (f.room buf.length - f.bytes.length)).drop
        (f.position + buf.length)), ?_⟩
      simp only [store]
      congr 2
      rw [← hrest, h.position, List.append_assoc, List.take_left]

/-- Loading a file into a fresh flat buffer gives its bytes. -/
theorem readFromFile_holds {b : Nat} (hb : 0 < b) (memory : Nat → UInt8) (file : List UInt8) :
    ((Flat.init memory b).readFromFile memory file).Holds file := by
  have hstep : ∀ (l : List (List UInt8)) {f : Flat} {done : List UInt8}, f.Holds done → 0 < f.baseSize →
      (l.foldl (fun f buf => f.write memory buf) f).Holds (done ++ l.flatten) := by
    intro l
    induction l with
    | nil =>
      intro f done h _
      rwa [List.flatten_nil, List.append_nil]
    | cons buf l ih =>
      intro f done h hpos
      obtain ⟨hwrite, hbase⟩ := h.write memory hpos buf
      rw [List.foldl_cons, List.flatten_cons, ← List.append_assoc]
      exact ih hwrite (hbase ▸ hpos)
  have hinit : (Flat.init memory b).Holds [] := ⟨rfl, rfl, List.nil_prefix⟩
  have hload := hstep (parts b file) hinit hb
  rwa [List.nil_append, flatten_parts] at hload

/-! ## The loop -/

section Loop

variable {b : Nat}

theorem toInt_of_lt {v : Nat} (h : v < 2 ^ 31) : toInt v = v := Int.bmod_eq_of_le_mul_two (by omega) (by omega)

theorem dumpLoop_zero {chain : List (List UInt8)} {pos : Nat} : ByteArray.dumpLoop b chain pos 0 = .ok [] := by
  cases chain <;> rfl

theorem dumpLoop_nil {pos r : Nat} (hr : 0 < r) : ByteArray.dumpLoop b [] pos r = .error .nullNode := by
  obtain ⟨r, rfl⟩ := Nat.exists_eq_succ_of_ne_zero hr.ne'
  rfl

/-- A round that writes the bytes from `v` on. -/
theorem dumpLoop_cons {node : List UInt8} {rest : List (List UInt8)} {pos r v k : Nat} (hr : 0 < r)
    (hv : toInt (pos % b) = v) (hk : min r b = v + k) : ByteArray.dumpLoop b (node :: rest) pos r =
      (ByteArray.dumpLoop b rest (pos + k) (r - k)).map ((node.drop v).take k ++ ·) := by
  obtain ⟨r, rfl⟩ := Nat.exists_eq_succ_of_ne_zero hr.ne'
  have hlen : ((if r.succ > b then b else r.succ : Nat) : Int) - (v : Int) = k := by
    split <;> omega
  rw [ByteArray.dumpLoop.eq_def]
  simp only [hv, hlen, Int.toNat_natCast]
  rw [if_neg (by omega), if_neg (by omega)]
  cases ByteArray.dumpLoop b rest (pos + k) (r.succ - k) <;> rfl

/-- From a block boundary on everything is written. -/
theorem dumpLoop_aligned (hb : 0 < b) : ∀ {chain : List (List UInt8)} {pos r : Nat}, Uniform b chain → pos % b = 0 →
    r ≤ chain.length * b → ByteArray.dumpLoop b chain pos r = .ok (chain.flatten.take r)
  | chain, pos, 0, _, _, _ => by rw [dumpLoop_zero, List.take_zero]
  | [], pos, r + 1, _, _, hle => by simp at hle
  | node :: rest, pos, r + 1, hu, hpos, hle => by
    have hzero : toInt (pos % b) = (0 : Nat) := by rw [hpos, toInt_of_lt (by decide)]
    rw [dumpLoop_cons (Nat.succ_pos r) hzero (Nat.zero_add _).symm, List.drop_zero, List.flatten_cons, List.take_append,
      hu.head]
    rcases Nat.le_total (r + 1) b with hlt | hge
    · rw [Nat.min_eq_left hlt, Nat.sub_self, Nat.sub_eq_zero_of_le hlt, List.take_zero, dumpLoop_zero]
      rfl
    · have hrest : r + 1 - b ≤ rest.length * b := by
        rw [List.length_cons, Nat.succ_mul] at hle
        omega
      rw [Nat.min_eq_right hge, dumpLoop_aligned hb hu.tail (by rw [Nat.add_mod_right]; exact hpos) hrest,
        List.take_of_length_le hu.head.le, List.take_of_length_le (hu.head.le.trans hge)]
      rfl

/-- A write of nothing is repeated until the chain ends. -/
theorem dumpLoop_stuck {v pos r : Nat} {chain : List (List UInt8)} (hr : 0 < r) (hv : toInt (pos % b) = v)
    (hmin : min r b = v) : ByteArray.dumpLoop b chain pos r = .error .nullNode := by
  induction chain with
  | nil => exact dumpLoop_nil hr
  | cons node rest ih =>
    rw [dumpLoop_cons hr hv (k := 0) hmin, Nat.add_zero, Nat.sub_zero, ih]
    rfl

theorem dumpLoop_negative {node : List UInt8} {rest : List (List UInt8)} {pos r : Nat} (hr : 0 < r)
    (hneg : (min r b : Nat) < toInt (pos % b)) :
    ByteArray.dumpLoop b (node :: rest) pos r = .error .negativeLength := by
  obtain ⟨r, rfl⟩ := Nat.exists_eq_succ_of_ne_zero hr.ne'
  have hlen : ((if r.succ > b then b else r.succ : Nat) : Int) - toInt (pos % b) < 0 := by
    split <;> omega
  rw [ByteArray.dumpLoop.eq_def]
  simp only
  rw [if_neg (by omega), if_pos hlen]

theorem dumpLoop_outside {node : List UInt8} {rest : List (List UInt8)} {pos r : Nat} (hr : 0 < r)
    (hneg : toInt (pos % b) < 0) : ByteArray.dumpLoop b (node :: rest) pos r = .error .outsideNode := by
  obtain ⟨r, rfl⟩ := Nat.exists_eq_succ_of_ne_zero hr.ne'
  rw [ByteArray.dumpLoop.eq_def]
  simp only
  rw [if_pos hneg]

/-- What a round does that goes well. -/
theorem dumpLoop_ok {node : List UInt8} {rest : List (List UInt8)} {pos r : Nat} {file : List UInt8} (hr : 0 < r)
    (hrun : ByteArray.dumpLoop b (node :: rest) pos r = .ok file) :
    ∃ v k more, toInt (pos % b) = (v : Nat) ∧ min r b = v + k ∧ file = (node.drop v).take k ++ more ∧
      ByteArray.dumpLoop b rest (pos + k) (r - k) = .ok more := by
  rcases Int.lt_or_le (toInt (pos % b)) 0 with hneg | hpos
  · rw [dumpLoop_outside hr hneg] at hrun
    cases hrun
  · obtain ⟨v, hv⟩ := Int.eq_ofNat_of_zero_le hpos
    rcases Nat.lt_or_ge (min r b) v with hlt | hge
    · rw [dumpLoop_negative hr (by rw [hv]; exact Int.ofNat_lt.2 hlt)] at hrun
      cases hrun
    · obtain ⟨k, hk⟩ := Nat.exists_eq_add_of_le hge
      rw [dumpLoop_cons hr hv hk] at hrun
      cases hmore : ByteArray.dumpLoop b rest (pos + k) (r - k) with
      | error f =>
        rw [hmore] at hrun
        cases hrun
      | ok more =>
        rw [hmore] at hrun
        exact ⟨v, k, more, hv, hk, (Except.ok.inj hrun).symm, hmore⟩

/-- Nodes of zeros give zeros. -/
theorem dumpLoop_zeros {chain : List (List UInt8)} {pos r : Nat} {file : List UInt8}
    (hz : ∀ node ∈ chain, ∀ c ∈ node, c = 0) (hrun : ByteArray.dumpLoop b chain pos r = .ok file) :
    ∀ c ∈ file, c = 0 := by
  rcases Nat.eq_zero_or_pos r with rfl | hr
  · rw [dumpLoop_zero] at hrun
    cases hrun
    simp
  · induction chain generalizing pos r file with
    | nil =>
      rw [dumpLoop_nil hr] at hrun
      cases hrun
    | cons node rest ih =>
      rw [List.forall_mem_cons] at hz
      obtain ⟨v, k, more, -, -, rfl, hmore⟩ := dumpLoop_ok hr hrun
      intro c hc
      rcases List.mem_append.1 hc with hc | hc
      · exact hz.1 c (List.mem_of_mem_drop (List.mem_of_mem_take hc))
      · rcases Nat.eq_zero_or_pos (r - k) with hzero | hleft
        · rw [hzero, dumpLoop_zero] at hmore
          cases hmore
          cases hc
        · exact ih hz.2 hmore hleft c hc

/-- The part of a block that is left, where at least a block is unread, and then whole blocks. -/
theorem dumpLoop_whole {node : List UInt8} {rest : List (List UInt8)} {pos r : Nat} (hb : 0 < b)
    (hu : Uniform b (node :: rest)) (hpos : pos % b < 2 ^ 31) (hr : b ≤ r)
    (hle : pos % b + r ≤ (node :: rest).length * b) :
    ByteArray.dumpLoop b (node :: rest) pos r = .ok (((node :: rest).flatten.drop (pos % b)).take r) := by
  have hmod := Nat.mod_lt pos hb
  have hnode := hu.head
  have hk : min r b = pos % b + (b - pos % b) := by omega
  have hnext : (pos + (b - pos % b)) % b = 0 := by
    have := Nat.div_add_mod' pos b
    rw [show pos + (b - pos % b) = 0 + (pos / b + 1) * b by rw [Nat.add_mul]; omega, Nat.add_mul_mod_self_right,
      Nat.zero_mod]
  have hrest : r - (b - pos % b) ≤ rest.length * b := by
    rw [List.length_cons, Nat.succ_mul] at hle
    omega
  have hfull : ∀ n, b - pos % b ≤ n → (node.drop (pos % b)).take n = node.drop (pos % b) := fun n hn =>
    List.take_of_length_le (by rw [List.length_drop]; omega)
  rw [dumpLoop_cons (by omega) (toInt_of_lt hpos) hk, dumpLoop_aligned hb hu.tail hnext hrest, List.flatten_cons,
    List.drop_append_of_le_length (by omega), List.take_append, List.length_drop, hnode, hfull _ le_rfl,
    hfull r (by omega)]
  rfl

/-- Where no more is unread than the offset in the node, the first length is negative or zero. -/
theorem dumpLoop_little {node : List UInt8} {rest : List (List UInt8)} {pos r : Nat} (hpos : pos % b < 2 ^ 31)
    (hr : 0 < r) (hle : r ≤ pos % b) (hlt : r < b) : ∃ f, ByteArray.dumpLoop b (node :: rest) pos r = .error f := by
  have hv := toInt_of_lt hpos
  rcases hle.eq_or_lt with heq | hless
  · exact ⟨_, dumpLoop_stuck hr hv (by omega)⟩
  · exact ⟨_, dumpLoop_negative hr (by rw [hv]; omega)⟩

/-- Where less than a block is unread, and not from a block boundary on, the loop fails. -/
theorem dumpLoop_short {node : List UInt8} {rest : List (List UInt8)} {pos r : Nat} (hb : b ≤ 2 ^ 31)
    (h0 : 0 < b) (hpos : 0 < pos % b) (hr : 0 < r) (hlt : r < b) :
    ∃ f, ByteArray.dumpLoop b (node :: rest) pos r = .error f := by
  have hmod := Nat.mod_lt pos h0
  have hv := toInt_of_lt (show pos % b < 2 ^ 31 by omega)
  rcases Nat.lt_or_ge (pos % b) r with hmore | hless
  · -- what is left after the first write is as long as the offset, and read from the next node
    have hk : min r b = pos % b + (r - pos % b) := by omega
    have hnext : (pos + (r - pos % b)) % b = r := by
      have := Nat.div_add_mod' pos b
      rw [show pos + (r - pos % b) = r + pos / b * b by omega, Nat.add_mul_mod_self_right, Nat.mod_eq_of_lt hlt]
    have hleft : 0 < r - (r - pos % b) := by omega
    rw [dumpLoop_cons hr hv hk]
    cases rest with
    | nil => exact ⟨_, by rw [dumpLoop_nil hleft]; rfl⟩
    | cons next rest =>
      refine ⟨.negativeLength, ?_⟩
      rw [dumpLoop_negative hleft (by rw [hnext, toInt_of_lt (by omega)]; omega)]
      rfl
  · exact dumpLoop_little (by omega) hr hless hlt

end Loop

/-! ## The operation -/

section Ops

variable {s : ByteArray}

/-- `writeToFile` writes what is unread, and the file read back into a flat buffer is that again. -/
structure Dumps (s : ByteArray) : Prop where
  written : s.writeToFile true = .ok (true, s.unread)
  loaded : ∀ b memory, 0 < b → ((Flat.init memory b).readFromFile memory s.unread).Holds s.unread

theorem dumps_iff : Dumps s ↔ s.writeToFile true = .ok (true, s.unread) :=
  ⟨Dumps.written, fun h => ⟨h, fun _ memory hb => readFromFile_holds hb memory s.unread⟩⟩

/-- Where nothing is unread, nothing is written. -/
theorem dumps_of_empty (h : s.position = s.size) : Dumps s := by
  rw [dumps_iff, ByteArray.writeToFile, if_pos rfl, ByteArray.getReadSize, h, Nat.sub_self, dumpLoop_zero,
    ByteArray.unread, h, Nat.sub_self, List.take_zero]

/-- The loop starts in the node of the position. -/
theorem dumps_iff_loop (h : WF s) (hp : s.position < s.size) :
    ∃ node rest, s.nodes.drop (s.position / s.baseSize) = node :: rest ∧ Uniform s.baseSize (node :: rest) ∧
      s.position % s.baseSize + (s.size - s.position) ≤ (node :: rest).length * s.baseSize ∧
      s.unread = ((node :: rest).flatten.drop (s.position % s.baseSize)).take (s.size - s.position) ∧
      (Dumps s ↔ ByteArray.dumpLoop s.baseSize (node :: rest) s.position (s.size - s.position) = .ok s.unread) := by
  have hsize := h.size
  have hlt : s.position < s.capacity := by omega
  obtain ⟨⟨node, rest, hd, -⟩, hrest⟩ := chain_spec h hlt
  have hu := h.blocks.drop (s.position / s.baseSize)
  have hunread : s.unread = ((s.nodes.drop (s.position / s.baseSize)).flatten.drop (s.position % s.baseSize)).take
      (s.size - s.position) := by
    rw [ByteArray.unread, ← h.blocks.drop_flatten (h.div_lt hlt).le, List.drop_drop, Nat.div_add_mod', ByteArray.flat]
  rw [hd] at hu hrest hunread
  refine ⟨node, rest, hd, hu, by omega, hunread, ?_⟩
  rw [dumps_iff, ByteArray.writeToFile, if_pos rfl, h.cur_of_lt hlt, ByteArray.getReadSize]
  simp only [hd]
  cases ByteArray.dumpLoop s.baseSize (node :: rest) s.position (s.size - s.position) with
  | error f => exact iff_of_false (fun he => by cases he) fun he => by cases he
  | ok file => simp

/-- From a block boundary on, or with at least a block unread, everything is written. -/
theorem dumps_of (h : WF s) (ho : s.position % s.baseSize < 2 ^ 31)
    (hc : s.position % s.baseSize = 0 ∨ s.baseSize ≤ s.size - s.position) : Dumps s := by
  rcases h.position.eq_or_lt with heq | hp
  · exact dumps_of_empty heq
  · obtain ⟨node, rest, -, hu, hle, hunread, hiff⟩ := dumps_iff_loop h hp
    rw [hiff, hunread]
    rcases hc with hzero | hblock
    · rw [hzero, Nat.zero_add] at hle
      rw [dumpLoop_aligned h.base hu hzero hle, hzero, List.drop_zero]
    · exact dumpLoop_whole h.base hu ho hblock hle

theorem not_dumps_of_error (h : WF s) (hp : s.position < s.size) (herror : ∀ node rest, ∃ f,
    ByteArray.dumpLoop s.baseSize (node :: rest) s.position (s.size - s.position) = .error f) : ¬ Dumps s := by
  obtain ⟨node, rest, -, -, -, -, hiff⟩ := dumps_iff_loop h hp
  obtain ⟨f, hrun⟩ := herror node rest
  rw [hiff, hrun]
  intro he
  cases he

theorem not_dumps_short (h : WF s) (hb : s.baseSize ≤ 2 ^ 31) (hp : s.position < s.size)
    (ho : 0 < s.position % s.baseSize) (hlt : s.size - s.position < s.baseSize) : ¬ Dumps s :=
  not_dumps_of_error h hp fun _ _ => dumpLoop_short hb h.base ho (by omega) hlt

/-! ## Other contents of the same blocks -/

/-- The same blocks with other bytes in them. -/
def ByteArray.holding (s : ByteArray) (memory : Nat → UInt8) : ByteArray :=
  { s with nodes := (List.range s.nodes.length).map fun i => newNode memory s.baseSize (0 + i) }

section Holding

variable {memory : Nat → UInt8}

theorem holding_wf (h : WF s) : WF (s.holding memory) where
  base := h.base
  root := by
    rw [ByteArray.holding, ne_eq, List.map_eq_nil_iff, List.range_eq_nil, List.length_eq_zero_iff]
    exact h.root
  blocks := uniform_newNode memory s.baseSize 0 s.nodes.length
  capacity := by simp [ByteArray.holding, h.capacity]
  position := h.position
  size := h.size
  cur := h.cur

theorem getElem?_holding (h : WF s) {p : Nat} (hp : p < s.capacity) :
    (s.holding memory).flat[p]? = some (memory p) := by
  rw [ByteArray.flat, ByteArray.holding, flatten_newNode, ← h.capacity, fresh, Nat.zero_mul, List.getElem?_map,
    List.getElem?_range hp, Option.map_some, Nat.zero_add]

theorem mem_drop_holding {p : Nat} {x : UInt8} (hx : x ∈ (s.holding memory).flat.drop p) :
    ∃ q, p ≤ q ∧ x = memory q := by
  rw [ByteArray.flat, ByteArray.holding, flatten_newNode, fresh, Nat.zero_mul] at hx
  obtain ⟨i, hi⟩ := List.mem_iff_getElem?.1 hx
  rw [List.getElem?_drop, List.getElem?_map] at hi
  obtain ⟨j, hj, rfl⟩ := Option.map_eq_some_iff.1 hi
  obtain ⟨hlt, rfl⟩ := List.getElem?_eq_some_iff.1 hj
  exact ⟨p + i, Nat.le_add_right _ _, by rw [List.getElem_range, Nat.zero_add]⟩

theorem getElem?_unread (h : WF s) {i : Nat} (hi : s.position + i < s.size) :
    (s.holding memory).unread[i]? = some (memory (s.position + i)) := by
  have hsize := h.size
  have hlt : i < (s.holding memory).size - (s.holding memory).position := by
    change i < s.size - s.position
    omega
  rw [ByteArray.unread, List.getElem?_take_of_lt hlt, List.getElem?_drop]
  exact getElem?_holding h (show s.position + i < s.capacity by omega)

/-- Zeros, but for a one at `q`. -/
def single (q p : Nat) : UInt8 := if p = q then 1 else 0

/-- The bytes from the node of the position on. -/
theorem flatten_from_node {node : List UInt8} {rest : List (List UInt8)} (h : WF s)
    (hd : s.nodes.drop (s.position / s.baseSize) = node :: rest) :
    (node :: rest).flatten = s.flat.drop (s.position / s.baseSize * s.baseSize) := by
  have hle : s.position / s.baseSize ≤ s.nodes.length := by
    have := congrArg List.length hd
    rw [List.length_drop, List.length_cons] at this
    omega
  rw [← hd, ← h.blocks.drop_flatten hle, ByteArray.flat]

end Holding

/-- An offset from `2 ^ 31` on is not the offset in the node any more: with a single one at the position, its byte is
not written first. -/
theorem not_dumps_far (h : WF s) (hp : s.position < s.size) (ho : 2 ^ 31 ≤ s.position % s.baseSize) :
    ¬ Dumps (s.holding (single s.position)) := by
  have hwf : WF (s.holding (single s.position)) := holding_wf h
  obtain ⟨node, rest, hd, hu, -, -, hiff⟩ := dumps_iff_loop hwf hp
  have hflat := flatten_from_node hwf hd
  rw [hiff]
  intro hrun
  have hsize := h.size
  have hr : 0 < s.size - s.position := by omega
  obtain ⟨v, k, more, hv, hk, hfile, -⟩ := dumpLoop_ok hr hrun
  have hfirst : (s.holding (single s.position)).unread[0]? = some (single s.position (s.position + 0)) :=
    getElem?_unread h (by omega)
  have hvlt : v < 2 ^ 31 := by
    have hmax : toInt (s.position % s.baseSize) < 2 ^ 31 := Int.bmod_lt (by decide)
    change toInt (s.position % s.baseSize) = v at hv
    omega
  have hmod := Nat.mod_lt s.position h.base
  have hdm := Nat.div_add_mod' s.position s.baseSize
  rcases Nat.eq_zero_or_pos k with rfl | hkpos
  · have hstuck : ByteArray.dumpLoop s.baseSize (node :: rest) s.position (s.size - s.position) = .error .nullNode :=
      dumpLoop_stuck hr hv hk
    change ByteArray.dumpLoop s.baseSize (node :: rest) s.position (s.size - s.position) = _ at hrun
    rw [hstuck] at hrun
    cases hrun
  · have hnode : node.length = s.baseSize := hu.head
    have hvb : v < s.baseSize := by omega
    -- the offset that is taken instead lies before the one, at a zero
    have hv0 : node[v]? = some 0 := by
      have hat : (node :: rest).flatten[v]? = node[v]? := by
        rw [List.flatten_cons, List.getElem?_append_left (by omega)]
      have hcell : s.position / s.baseSize * s.baseSize + v < s.capacity := by omega
      rw [← hat, hflat, List.getElem?_drop]
      change (s.holding (single s.position)).flat[s.position / s.baseSize * s.baseSize + v]? = _
      rw [getElem?_holding h hcell, single, if_neg (by omega)]
    rw [hfile, List.getElem?_append_left (by simp; omega), List.getElem?_take_of_lt hkpos, List.getElem?_drop,
      Nat.add_zero, hv0, Nat.add_zero, single, if_pos rfl] at hfirst
    cases hfirst

/-- What is left after a short first write is read from the next node: with a single one where it begins, no one is
written there. -/
theorem not_dumps_next (h : WF s) (hp : s.position < s.size) (ho : s.position % s.baseSize < 2 ^ 31)
    (hpos : 0 < s.position % s.baseSize) (hmore : s.position % s.baseSize < s.size - s.position)
    (hlt : s.size - s.position < s.baseSize) :
    ¬ Dumps (s.holding (single (s.size - s.position % s.baseSize))) := by
  have hwf : WF (s.holding (single (s.size - s.position % s.baseSize))) := holding_wf h
  obtain ⟨node, rest, hd, hu, -, -, hiff⟩ := dumps_iff_loop hwf hp
  have hflat := flatten_from_node hwf hd
  rw [hiff]
  intro hrun
  have hr : 0 < s.size - s.position := by omega
  have hdm := Nat.div_add_mod' s.position s.baseSize
  obtain ⟨v, k, more, hv, hk, hfile, hrest⟩ := dumpLoop_ok hr hrun
  obtain rfl : v = s.position % s.baseSize := Int.ofNat_inj.1 (hv.symm.trans (toInt_of_lt ho))
  have hkr : s.position + k = s.size - s.position % s.baseSize := by
    change min (s.size - s.position) s.baseSize = s.position % s.baseSize + k at hk
    omega
  have hnode : node.length = s.baseSize := hu.head
  -- the nodes after this one hold zeros only
  have hzeros : ∀ x ∈ rest, ∀ c ∈ x, c = 0 := by
    intro x hx c hc
    have hmem : c ∈ (node :: rest).flatten.drop node.length := by
      rw [List.flatten_cons, List.drop_left]
      exact List.mem_flatten_of_mem hx hc
    rw [hflat, List.drop_drop, hnode] at hmem
    obtain ⟨q, hq, rfl⟩ := mem_drop_holding hmem
    change s.position / s.baseSize * s.baseSize + s.baseSize ≤ q at hq
    rw [single, if_neg (by omega)]
  -- the one is the first byte behind the short write
  have hone : (s.holding (single (s.size - s.position % s.baseSize))).unread[k]? =
      some (single (s.size - s.position % s.baseSize) (s.position + k)) :=
    getElem?_unread h (by omega)
  have hlen : ((node.drop (s.position % s.baseSize)).take k).length = k := by
    rw [List.length_take, List.length_drop, hnode]
    omega
  rw [hfile, List.getElem?_append_right hlen.le, hlen, Nat.sub_self, single, if_pos hkr] at hone
  have hzero := dumpLoop_zeros hzeros hrest 1 (List.mem_of_getElem? hone)
  cases hzero

/-- `writeToFile` writes exactly what is unread, in blocks of up to `2 ^ 31` bytes, where nothing is, where it begins at
a block boundary or where it is at least a block; and in larger blocks this is so whatever they hold where, moreover,
the offset in the block is an `int`. -/
theorem writeToFile_exact (h : WF s) :
    (s.baseSize ≤ 2 ^ 31 →
      (Dumps s ↔ s.position = s.size ∨ s.position % s.baseSize = 0 ∨ s.baseSize ≤ s.size - s.position)) ∧
    ((∀ nodes, WF { s with nodes } → Dumps { s with nodes }) ↔
      s.position = s.size ∨ (s.position % s.baseSize < 2 ^ 31 ∧
        (s.position % s.baseSize = 0 ∨ s.baseSize ≤ s.size - s.position))) := by
  have hposition := h.position
  have hmod := Nat.mod_lt s.position h.base
  constructor
  · intro hb
    constructor
    · intro hd
      by_contra hc
      rw [not_or, not_or] at hc
      exact not_dumps_short h hb (by omega) (by omega) (by omega) hd
    · rintro (heq | hc)
      · exact dumps_of_empty heq
      · exact dumps_of h (by omega) hc
  · constructor
    · intro hall
      by_contra hc
      rw [not_or] at hc
      obtain ⟨hne, hc⟩ := hc
      have hp : s.position < s.size := by omega
      -- a content that shows it: a single one behind the first write, or at the position
      rcases Nat.lt_or_ge (s.position % s.baseSize) (2 ^ 31) with ho | ho
      · have hpos : 0 < s.position % s.baseSize := by
          by_contra h0
          exact hc ⟨ho, .inl (by omega)⟩
        have hlt : s.size - s.position < s.baseSize := by
          by_contra h0
          exact hc ⟨ho, .inr (by omega)⟩
        rcases Nat.lt_or_ge (s.position % s.baseSize) (s.size - s.position) with hmore | hless
        · exact not_dumps_next h hp ho hpos hmore hlt (hall _ (holding_wf h))
        · exact not_dumps_of_error h hp (fun _ _ => dumpLoop_little ho (by omega) hless hlt) (hall s.nodes h)
      · exact not_dumps_far h hp ho (hall _ (holding_wf h))
    · rintro (heq | ⟨ho, hc⟩) nodes hwf
      · exact dumps_of_empty heq
      · exact dumps_of hwf ho hc

theorem writeToFile_exact_start : WF twoBlocks ∧ Dumps twoBlocks :=
  ⟨twoBlocks_wf, ((writeToFile_exact twoBlocks_wf).1 (by decide)).2 (.inr (.inl (by decide)))⟩

/-- Two bytes unread from the second byte of a block on: after the first of them a negative length is passed. -/
theorem two_bytes_not_dumped : ¬ ∀ s : ByteArray, WF s → Dumps s := by
  intro h
  have hwf : WF { twoBlocks with position := 1, size := 3 } :=
    ⟨by decide, by decide, twoBlocks_wf.blocks, by decide, by decide, by decide, by decide⟩
  exact not_dumps_short hwf (by decide) (by decide) (by decide) (by decide) (h _ hwf)

end Ops

end ServerFrame.Buffers
