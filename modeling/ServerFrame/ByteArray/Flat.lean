/-
The flat buffer that a `ByteArray` is for: a list of bytes as long as the capacity, a cursor and a
size. The block chain behaves as it on exactly those sequences of operations in which every write
ends on a block boundary and nothing is read at the end of the chain with length zero: the last part
of a write moves the position to the end of its block, where `read` moves it by the bytes read.
-/
import ServerFrame.ByteArray.Chain

namespace ServerFrame.Buffers

open Blocks

/-! ## The flat buffer -/

/-- A flat byte buffer with a cursor; the bytes from `size` on are not written yet. -/
structure Flat where
  baseSize : Nat
  bytes : List UInt8
  position : Nat
  size : Nat

namespace Flat

def init (memory : Nat → UInt8) (base_size : Nat) : Flat :=
  { baseSize := base_size, bytes := fresh memory 0 base_size, position := 0, size := 0 }

variable (f : Flat)

/-- The capacity that holds `n` bytes behind the cursor, in whole blocks. -/
def room (n : Nat) : Nat := max f.bytes.length ((f.position + n) ⌈/⌉ f.baseSize * f.baseSize)

/-- Put the bytes at the cursor and move it over them. -/
def write (memory : Nat → UInt8) (buf : List UInt8) : Flat :=
  if buf = [] then f
  else
    let bytes := f.bytes ++ fresh memory f.bytes.length (f.room buf.length - f.bytes.length)
    { f with
      bytes := store bytes f.position buf
      position := f.position + buf.length
      size := max f.size (f.position + buf.length) }

def exec : Op → Flat × Outcome
  | .write memory buf => (f.write memory buf, .done)
  | .read n =>
    if n > f.size - f.position then (f, .threw)
    else ({ f with position := f.position + n }, .bytes ((f.bytes.drop f.position).take n))
  | .setPosition v =>
    if v > f.bytes.length then (f, .threw)
    else ({ f with position := v, size := max f.size v }, .done)
  | .clear => ({ f with bytes := f.bytes.take f.baseSize, position := 0, size := 0 }, .done)

def trace (f : Flat) : List Op → List Seen
  | [] => []
  | op :: ops =>
    let (f', out) := f.exec op
    ⟨out, f'.position, f'.size⟩ :: trace f' ops

end Flat

/-! ## The refinement -/

/-- The flat buffer a block chain stands for. -/
def ByteArray.toFlat (s : ByteArray) : Flat :=
  { baseSize := s.baseSize, bytes := s.flat, position := s.position, size := s.size }

/-- An operation on which the block chain follows the flat buffer: a write that ends on a block
boundary, or a read that is not of nothing at the end of the chain. -/
def Follows (s : ByteArray) : Op → Prop
  | .write _ buf => buf = [] ∨ (s.position + buf.length) % s.baseSize = 0
  | .read n => n = 0 → s.position ≠ s.capacity
  | .setPosition _ | .clear => True

/-- Every operation of a sequence follows, in the state in which it is made. -/
def AllFollow (s : ByteArray) : List Op → Prop
  | [] => True
  | op :: ops => Follows s op ∧ ∀ s' out, exec s op = .ok (s', out) → AllFollow s' ops

/-- An operation that follows does what the flat buffer does. -/
theorem exec_follows {s : ByteArray} (h : WF s) {op : Op} (hf : Follows s op) :
    ∃ s', exec s op = .ok (s', (s.toFlat.exec op).2) ∧ WF s' ∧ s'.toFlat = (s.toFlat.exec op).1 := by
  cases op with
  | write memory buf =>
    by_cases hbuf : buf = []
    · subst hbuf
      exact ⟨s, by simp [exec, ByteArray.write, Flat.exec], h, by simp [Flat.exec, Flat.write]⟩
    · have hal := hf.resolve_left hbuf
      obtain ⟨s', hw, hb, hc, hp, hs, hfl, hwf⟩ := write_spec h memory hbuf
      obtain ⟨-, -, -, -, hcap, hgrow⟩ := addCapacity_spec h memory buf.length
      rw [(ceilDiv_mul_eq_iff h.base _).2 hal] at hp
      refine ⟨s', by simp [exec, hw, Flat.exec], hwf hal, ?_⟩
      simp only [Flat.exec, Flat.write, if_neg hbuf, ByteArray.toFlat, Flat.room, h.length_flat, hb, hp, hs, hfl,
        hgrow, hcap]
  | read n =>
    by_cases hn : n > s.size - s.position
    · refine ⟨s, ?_, h, ?_⟩
      · simp [exec, ByteArray.read, ByteArray.getReadSize, hn, Flat.exec, ByteArray.toFlat]
      · simp [hn, Flat.exec, ByteArray.toFlat]
    · obtain ⟨s', hr, hwf, hfl, hb, hp, hs, -⟩ := read_spec h (Nat.not_lt.1 hn) hf
      refine ⟨s', ?_, hwf, ?_⟩
      · simp [exec, hr, Flat.exec, ByteArray.toFlat, hn]
      · simp [Flat.exec, ByteArray.toFlat, hn, hfl, hb, hp, hs]
  | setPosition v =>
    by_cases hv : v > s.capacity
    · refine ⟨s, ?_, h, ?_⟩
      · simp [exec, ByteArray.setPosition, hv, Flat.exec, ByteArray.toFlat, h.length_flat]
      · simp [hv, Flat.exec, ByteArray.toFlat, h.length_flat]
    · obtain ⟨s', hr, hwf, hfl, hb, hp, hs, -⟩ := setPosition_spec h (Nat.not_lt.1 hv)
      refine ⟨s', ?_, hwf, ?_⟩
      · simp [exec, hr, Flat.exec, ByteArray.toFlat, hv, h.length_flat]
      · simp [Flat.exec, ByteArray.toFlat, hv, hfl, hb, hp, hs, h.length_flat]
  | clear =>
    obtain ⟨hwf, hfl⟩ := clear_spec h
    refine ⟨s.clear, rfl, hwf, ?_⟩
    simp only [Flat.exec, ByteArray.toFlat, hfl]
    rfl

/-- An operation that does not follow shows it at once: it crashes, or leaves another position. -/
theorem exec_strays {s : ByteArray} (h : WF s) {op : Op} (hf : ¬ Follows s op) :
    exec s op = .error .nullNode ∨
    ∃ s' out, exec s op = .ok (s', out) ∧ s'.position ≠ (s.toFlat.exec op).1.position := by
  cases op with
  | write memory buf =>
    obtain ⟨hbuf, hal⟩ := not_or.1 hf
    obtain ⟨s', hw, -, -, hp, -⟩ := write_spec h memory hbuf
    refine .inr ⟨s', .done, by simp [exec, hw], ?_⟩
    rw [hp]
    simpa [Flat.exec, Flat.write, if_neg hbuf, ByteArray.toFlat] using (ceilDiv_mul_eq_iff h.base _).not.2 hal
  | read n =>
    obtain ⟨rfl, hp⟩ : n = 0 ∧ s.position = s.capacity := by
      simpa [Follows] using hf
    refine .inl ?_
    have hcur : s.cur = none := by rw [h.cur, if_pos hp]
    simp [exec, ByteArray.read, ByteArray.getReadSize, hcur]
  | setPosition v => exact absurd trivial hf
  | clear => exact absurd trivial hf

theorem trace_iff : ∀ (ops : List Op) {s : ByteArray}, WF s →
    (trace s ops = (s.toFlat.trace ops).map .ok ↔ AllFollow s ops)
  | [], _, _ => ⟨fun _ => trivial, fun _ => rfl⟩
  | op :: ops, s, h => by
    by_cases hf : Follows s op
    · obtain ⟨s', he, hwf, hflat⟩ := exec_follows h hf
      have hall : AllFollow s (op :: ops) ↔ AllFollow s' ops := by
        refine ⟨fun hall => hall.2 s' _ he, fun hall => ⟨hf, fun t out ht => ?_⟩⟩
        rw [he] at ht
        cases ht
        exact hall
      have hseen : s'.position = (s.toFlat.exec op).1.position ∧ s'.size = (s.toFlat.exec op).1.size := by
        rw [← hflat]; exact ⟨rfl, rfl⟩
      rw [hall, ← trace_iff ops hwf, hflat]
      simp [trace, Flat.trace, he, hseen]
    · refine ⟨fun ht => ?_, fun hall => absurd hall.1 hf⟩
      rcases exec_strays h hf with he | ⟨s', out, he, hp⟩
      · simp [trace, Flat.trace, he] at ht
      · simp only [trace, Flat.trace, he, List.map_cons, List.cons.injEq, Except.ok.injEq, Seen.mk.injEq] at ht
        exact absurd ht.1.2.1 hp

/-- The refinement. For every base size of at least 1, every initial memory and every sequence of
`write`, `read`, `setPosition` and `clear` on a fresh `ByteArray`, a caller sees what the flat buffer
shows (each result, exception, position and size) if and only if each write is empty or ends on a
block boundary and no read of length zero is made at the end of the chain. -/
theorem refines_flat {b : Nat} (hb : 0 < b) (memory : Nat → UInt8) (ops : List Op) :
    trace (.init memory b) ops = ((Flat.init memory b).trace ops).map .ok ↔ AllFollow (.init memory b) ops := by
  have hflat : (ByteArray.init memory b).toFlat = Flat.init memory b := by
    simp [ByteArray.toFlat, ByteArray.flat, ByteArray.init, newNode, Flat.init, fresh]
  rw [← hflat]
  exact trace_iff ops (init_wf memory hb)

/-- With base size 4, a write of one byte leaves position and size at 4, where a flat buffer has them
at 1, and three bytes that nobody wrote can be read. -/
theorem short_write_strays : ¬ ∀ (b : Nat), 0 < b → ∀ (memory : Nat → UInt8) (ops : List Op),
    trace (.init memory b) ops = ((Flat.init memory b).trace ops).map .ok := by
  intro h
  have := h 4 (by decide) (fun _ => 0) [.write (fun _ => 0) [7], .setPosition 0, .read 4]
  cases this

/-- A write that fills the block, a step back and a read of its last three bytes. -/
theorem refines_flat_block : 0 < 4 ∧
    AllFollow (.init (fun _ => 0) 4) [.write (fun _ => 0) [1, 2, 3, 4], .setPosition 1, .read 3] :=
  ⟨by decide, (refines_flat (by decide) _ _).1 rfl⟩

end ServerFrame.Buffers
