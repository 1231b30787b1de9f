/-
`Stream::readFixSize` and `Stream::writeFixSize` (`stream.cc`) over any stream. What the four loops of the source
share is one loop over the call they make, and each of them is that loop at its own call: the bytes that a read stored
where the loop told it to, or the first bytes of what a write was given.
-/
import ServerFrame.Http.Stream
import Mathlib.Algebra.Ring.Int.Defs

namespace ServerFrame.Streams

open ServerFrame.Http

universe u

/-- What a call of `read` or `write` leads to: a result `≤ 0`, or the bytes that went through, as many as the `int` it
returns. -/
inductive Moved
  | failed (result : Int) (int : -2 ^ 31 ≤ result) (nonpos : result ≤ 0)
  | moved (bytes : List UInt8) (pos : bytes ≠ []) (int : bytes.length < 2 ^ 31)

def Moved.bytes : Moved → List UInt8
  | failed _ _ _ => []
  | moved bytes _ _ => bytes

/-- The `int` a `write` of `n` bytes returns. -/
structure Written (n : Nat) where
  result : Int
  int : -2 ^ 31 ≤ result ∧ result < 2 ^ 31
  le : result ≤ n

/-- What a `write` of `data` leads to. -/
def Written.moved {data : List UInt8} (w : Written data.length) : Moved :=
  if h : w.result ≤ 0 then .failed w.result w.int.1 h
  else .moved (data.take w.result.toNat)
    (by rw [Ne, List.take_eq_nil_iff]
        rintro (h' | rfl)
        · omega
        · exact h w.le)
    (lt_of_le_of_lt (List.length_take_le ..) (by have := w.int; omega))

theorem Written.bytes_moved_begin {data : List UInt8} (w : Written data.length) : w.moved.bytes <+: data := by
  unfold Written.moved
  split
  · exact List.nil_prefix
  · exact List.take_prefix ..

theorem Written.moved_length_le {data : List UInt8} (w : Written data.length) : w.moved.bytes.length ≤ data.length :=
  w.bytes_moved_begin.length_le

/-- The pure virtual functions of a `Stream`, none of which moves more than it was asked for. The byte array that two
of them are given is part of the state. -/
structure Stream (σ : Type u) where
  read : σ → Nat → Moved × σ
  readBa : σ → Nat → Moved × σ
  write : σ → (data : List UInt8) → Written data.length × σ
  writeBa : σ → Nat → Moved × σ
  read_le : ∀ s n, (read s n).1.bytes.length ≤ n
  readBa_le : ∀ s n, (readBa s n).1.bytes.length ≤ n
  writeBa_le : ∀ s n, (writeBa s n).1.bytes.length ≤ n

/-- The call in the loop: at an `offset`, for at most `n` bytes. -/
structure Call (σ : Type u) where
  run : σ → Nat → Nat → Moved × σ
  le : ∀ s offset n, (run s offset n).1.bytes.length ≤ n

/-- The loop with `left` bytes to go, and the `return length` behind it. -/
def fixLoop {σ : Type u} (call : Call σ) (length : Nat) (s : σ) (offset : Nat) (left : Int) : Int × σ :=
  if left ≤ 0 then (toInt length, s)
  else
    match call.run s offset left.toNat with
    | (.failed len _ _, s) => (len.bmod (2 ^ 32), s)
    | (.moved bytes _ _, s) => fixLoop call length s (offset + bytes.length) (left - bytes.length)
termination_by left.toNat
decreasing_by
  have := List.length_pos_iff.2 ‹bytes ≠ []›
  omega

/-- `int64_t left = length`, and the loop. -/
def fixSize {σ : Type u} (call : Call σ) (s : σ) (length : Nat) : Int × σ :=
  fixLoop call length s 0 ((length : Int).bmod (2 ^ 64))

namespace Stream

variable {σ : Type u} (t : Stream σ)

/-- `read((char*) buffer + offset, left)`. -/
def readAt : Call (σ × (Nat → UInt8)) where
  run s offset n := ((t.read s.1 n).1, (t.read s.1 n).2, store s.2 offset (t.read s.1 n).1.bytes)
  le s _ n := t.read_le s.1 n

/-- `read(ba, left)`. -/
def readBaAt : Call σ where
  run s _ n := t.readBa s n
  le s _ n := t.readBa_le s n

/-- `write((const char*) buffer + offset, left)`. -/
def writeAt (buffer : Nat → UInt8) : Call σ where
  run s offset n := ((t.write s (slice buffer offset n)).1.moved, (t.write s (slice buffer offset n)).2)
  le _ _ _ := (Written.moved_length_le _).trans_eq (length_slice ..)

/-- `write(ba, left)`. -/
def writeBaAt : Call σ where
  run s _ n := t.writeBa s n
  le s _ n := t.writeBa_le s n

/-- `Stream::readFixSize(buffer, length)`: the result, and the buffer after it. -/
def readFixSize (s : σ) (buffer : Nat → UInt8) (length : Nat) : Int × σ × (Nat → UInt8) :=
  fixSize t.readAt (s, buffer) length

/-- `Stream::readFixSize(ba, length)`. -/
def readFixSizeBa (s : σ) (length : Nat) : Int × σ := fixSize t.readBaAt s length

/-- `Stream::writeFixSize(buffer, length)`. -/
def writeFixSize (s : σ) (buffer : Nat → UInt8) (length : Nat) : Int × σ := fixSize (t.writeAt buffer) s length

/-- `Stream::writeFixSize(ba, length)`. -/
def writeFixSizeBa (s : σ) (length : Nat) : Int × σ := fixSize t.writeBaAt s length

end Stream

/-! ## What the calls of the loop lead to -/

section Loop

variable {σ : Type u} {call : Call σ} {length : Nat} {s : σ}

/-- The state in which `bytes` have gone through, in calls that each go on behind what the ones before them moved and
ask for all that is left. -/
inductive Reaches (call : Call σ) (length : Nat) (s : σ) : List UInt8 → σ → Prop
  | start : Reaches call length s [] s
  | step {bytes piece : List UInt8} {t t' : σ} {pos int} (h : Reaches call length s bytes t)
      (lt : bytes.length < length)
      (hcall : call.run t bytes.length (length - bytes.length) = (.moved piece pos int, t')) :
      Reaches call length s (bytes ++ piece) t'

/-- Exactly `length` bytes go through. -/
def Completes (call : Call σ) (s : σ) (length : Nat) (t : σ) : Prop :=
  ∃ bytes, Reaches call length s bytes t ∧ bytes.length = length

/-- A call before that returns `result`, the first that is not positive. -/
def Fails (call : Call σ) (s : σ) (length : Nat) (result : Int) (t' : σ) : Prop :=
  ∃ bytes t int nonpos, Reaches call length s bytes t ∧ bytes.length < length ∧
    call.run t bytes.length (length - bytes.length) = (.failed result int nonpos, t')

/-- The call reports what happened: a positive result exactly when there were bytes to move and all went through, else
the first result that is not positive. -/
def Exact (call : Call σ) (s : σ) (length : Nat) (result : Int × σ) : Prop :=
  (0 < result.1 ↔ 0 < length ∧ Completes call s length result.2) ∧
    ((∀ t, ¬ Completes call s length t) → Fails call s length result.1 result.2)

theorem Reaches.length_le {bytes : List UInt8} {t : σ} (h : Reaches call length s bytes t) : bytes.length ≤ length := by
  cases h with
  | start => exact Nat.zero_le _
  | @step bytes piece t t' pos int h lt hcall =>
    have hle : piece.length ≤ length - bytes.length := by
      have := call.le t bytes.length (length - bytes.length)
      rwa [hcall] at this
    rw [List.length_append]
    omega

/-- The loop passes through every state that is reached. -/
theorem Reaches.fixLoop_eq {bytes : List UInt8} {t : σ} (h : Reaches call length s bytes t) :
    fixLoop call length s 0 length = fixLoop call length t bytes.length (length - bytes.length : Nat) := by
  induction h with
  | start => rfl
  | @step bytes piece t t' pos int h lt hcall ih =>
    have hle := (h.step lt hcall).length_le
    rw [List.length_append] at hle
    rw [ih, fixLoop, if_neg (by omega), Int.toNat_natCast, hcall, List.length_append]
    dsimp only
    congr 1
    omega

/-- From every state that is reached all bytes go through, or a call fails. -/
theorem Reaches.completes_or_fails {bytes : List UInt8} {t : σ} (h : Reaches call length s bytes t) :
    (∃ t', Completes call s length t') ∨ ∃ r t', Fails call s length r t' := by
  induction hn : length - bytes.length using Nat.strong_induction_on generalizing bytes t with
  | _ n ih =>
    rcases h.length_le.eq_or_lt with heq | hlt
    · exact .inl ⟨t, bytes, h, heq⟩
    · rcases hcall : call.run t bytes.length (length - bytes.length) with ⟨⟨r, int, nonpos⟩ | ⟨piece, pos, int⟩, t'⟩
      · exact .inr ⟨r, t', bytes, t, int, nonpos, h, hlt, hcall⟩
      · have hpos := List.length_pos_iff.2 pos
        have hnext := h.step hlt hcall
        refine ih (length - (bytes ++ piece).length) ?_ hnext rfl
        rw [List.length_append]
        omega

/-- Where every call moves something, all bytes go through. -/
theorem completes_of_moves (h : ∀ s offset n, 0 < n → (call.run s offset n).1.bytes ≠ []) :
    ∃ t, Completes call s length t := by
  obtain ht | ⟨r, t', bytes, t, int, nonpos, -, hlt, hcall⟩ :=
    (Reaches.start : Reaches call length s [] s).completes_or_fails
  · exact ht
  · refine (h t bytes.length (length - bytes.length) (by omega) ?_).elim
    rw [hcall]
    rfl

variable (hlt : length < 2 ^ 63)
include hlt

theorem fixSize_eq : fixSize call s length = fixLoop call length s 0 length := by
  rw [fixSize, Int.bmod_eq_of_le_mul_two (by omega) (by omega)]

/-- All bytes went through: the length as an `int`. -/
theorem fixSize_of_completes {t : σ} (h : Completes call s length t) : fixSize call s length = (toInt length, t) := by
  obtain ⟨bytes, h, hlen⟩ := h
  rw [fixSize_eq hlt, h.fixLoop_eq, hlen, Nat.sub_self, fixLoop, if_pos Int.natCast_zero.le]

/-- A call failed: its result. -/
theorem fixSize_of_fails {r : Int} {t : σ} (h : Fails call s length r t) :
    fixSize call s length = (r, t) ∧ r ≤ 0 := by
  obtain ⟨bytes, t', int, nonpos, h, hlen, hcall⟩ := h
  refine ⟨?_, nonpos⟩
  rw [fixSize_eq hlt, h.fixLoop_eq, fixLoop, if_neg (by omega), Int.toNat_natCast, hcall]
  dsimp only
  rw [Int.bmod_eq_of_le_mul_two (by omega) (by omega)]

/-- The call reports what happened exactly if the length is positive as an `int`, where there was one and all bytes went
through. -/
theorem exact_iff (call : Call σ) (s : σ) : Exact call s length (fixSize call s length) ↔
    length = 0 ∨ 0 < toInt length ∨ ∀ t, ¬ Completes call s length t := by
  by_cases hc : ∃ t, Completes call s length t
  · obtain ⟨t, ht⟩ := hc
    rw [Exact, fixSize_of_completes hlt ht]
    dsimp only
    constructor
    · rintro ⟨h, -⟩
      rcases Nat.eq_zero_or_pos length with h0 | h0
      · exact .inl h0
      · exact .inr (.inl (h.2 ⟨h0, ht⟩))
    · rintro (rfl | h | h)
      · exact ⟨iff_of_false (lt_irrefl _) fun h => lt_irrefl _ h.1, fun hn => (hn t ht).elim⟩
      · have h0 : 0 < length := Nat.pos_of_ne_zero fun h0 => by
          rw [h0] at h
          exact lt_irrefl _ h
        exact ⟨iff_of_true h ⟨h0, ht⟩, fun hn => (hn t ht).elim⟩
      · exact (h t ht).elim
  · have hc : ∀ t, ¬ Completes call s length t := fun t ht => hc ⟨t, ht⟩
    obtain ⟨t, ht⟩ | ⟨r, t, hf⟩ := (Reaches.start : Reaches call length s [] s).completes_or_fails
    · exact (hc t ht).elim
    · obtain ⟨heq, hr⟩ := fixSize_of_fails hlt hf
      rw [Exact, heq]
      dsimp only
      exact iff_of_true ⟨iff_of_false (not_lt.2 hr) fun h => hc t h.2, fun _ => hf⟩ (.inr (.inr hc))

end Loop

/-! ## The bytes -/

/-- What calls store where they are told to stands in the buffer, in the order in which it was moved. -/
theorem Reaches.slice_of_stores {σ : Type u} {call : Call (σ × (Nat → UInt8))} {length : Nat} {s r : σ × (Nat → UInt8)}
    (hcall : ∀ s offset n, (call.run s offset n).2.2 = store s.2 offset (call.run s offset n).1.bytes)
    {bytes : List UInt8} (h : Reaches call length s bytes r) : slice r.2 0 bytes.length = bytes := by
  induction h with
  | start => rfl
  | @step bytes piece r r' pos int h lt hrun ih =>
    have hr := hcall r bytes.length (length - bytes.length)
    rw [hrun] at hr
    rw [show r'.2 = store r.2 bytes.length piece from hr, List.length_append, slice_store, ih]

namespace Stream

variable {σ : Type u} (t : Stream σ) {length : Nat} {s : σ} {buffer : Nat → UInt8}

/-- What was read stands in the buffer, in the order in which it was read. -/
theorem slice_of_reads {bytes : List UInt8} {r : σ × (Nat → UInt8)}
    (h : Reaches t.readAt length (s, buffer) bytes r) : slice r.2 0 bytes.length = bytes :=
  h.slice_of_stores fun _ _ _ => rfl

/-- What was written are the first bytes of the buffer. -/
theorem slice_of_writes {bytes : List UInt8} {r : σ} (h : Reaches (t.writeAt buffer) length s bytes r) :
    slice buffer 0 bytes.length = bytes := by
  induction h with
  | start => rfl
  | @step bytes piece r r' pos int h lt hcall ih =>
    have hp : (t.write r (slice buffer bytes.length (length - bytes.length))).1.moved.bytes = piece :=
      congrArg (fun x => x.1.bytes) hcall
    obtain ⟨rest, hrest⟩ := hp ▸ (t.write r (slice buffer bytes.length (length - bytes.length))).1.bytes_moved_begin
    have hle : piece.length ≤ length - bytes.length := by
      rw [← length_slice buffer bytes.length (length - bytes.length), ← hrest, List.length_append]
      exact Nat.le_add_right ..
    rw [List.length_append, slice_add, ih, Nat.zero_add]
    congr 1
    rw [← Nat.add_sub_cancel' hle, slice_add] at hrest
    exact (List.append_inj_left hrest (length_slice ..).symm).symm

/-- `readFixSize` and `writeFixSize` report a transfer exactly if there was nothing to move, the length is positive as
an `int` or not all bytes went through; what went through is in order. -/
theorem fixSize_exact_iff (s : σ) (buffer : Nat → UInt8) (length : Nat) (hlt : length < 2 ^ 63) :
    (Exact t.readAt (s, buffer) length (t.readFixSize s buffer length) ↔
        length = 0 ∨ 0 < toInt length ∨ ∀ r, ¬ Completes t.readAt (s, buffer) length r) ∧
      (Exact t.readBaAt s length (t.readFixSizeBa s length) ↔
        length = 0 ∨ 0 < toInt length ∨ ∀ r, ¬ Completes t.readBaAt s length r) ∧
      (Exact (t.writeAt buffer) s length (t.writeFixSize s buffer length) ↔
        length = 0 ∨ 0 < toInt length ∨ ∀ r, ¬ Completes (t.writeAt buffer) s length r) ∧
      (Exact t.writeBaAt s length (t.writeFixSizeBa s length) ↔
        length = 0 ∨ 0 < toInt length ∨ ∀ r, ¬ Completes t.writeBaAt s length r) ∧
      (∀ bytes r, Reaches t.readAt length (s, buffer) bytes r → slice r.2 0 bytes.length = bytes) ∧
      ∀ bytes r, Reaches (t.writeAt buffer) length s bytes r → slice buffer 0 bytes.length = bytes :=
  ⟨exact_iff hlt _ _, exact_iff hlt _ _, exact_iff hlt _ _, exact_iff hlt _ _, fun _ _ => t.slice_of_reads,
    fun _ _ => t.slice_of_writes⟩

end Stream

/-! ## The reads of a session -/

section Session

/-- The sessions whose pieces all are as long as an `int` can say. -/
abbrev Pieces := { s : Session // ∀ p ∈ s.input, p.length < 2 ^ 31 }

theorem Pieces.length_read_lt (s : Pieces) (n : Nat) : (s.1.read n).1.length < 2 ^ 31 ∧
    ∀ p ∈ (s.1.read n).2.input, p.length < 2 ^ 31 := by
  unfold Session.read
  split
  · exact ⟨Nat.two_pow_pos 31, s.2⟩
  · split
    · exact ⟨Nat.two_pow_pos 31, s.2⟩
    · rename_i p ps hinput
      have hs := s.2
      rw [hinput] at hs
      have hp := hs p List.mem_cons_self
      refine ⟨lt_of_le_of_lt (List.length_take_le' ..) hp, ?_⟩
      dsimp only
      split
      · exact fun q hq => hs q (List.mem_cons_of_mem _ hq)
      · intro q hq
        rcases List.mem_cons.1 hq with rfl | hq
        · rw [List.length_drop]
          omega
        · exact hs q (List.mem_cons_of_mem _ hq)

/-- What a read of a session leads to; the result that is not positive is not kept there. -/
def Pieces.moved (s : Pieces) (n : Nat) : Moved :=
  if h : (s.1.read n).1 = [] then .failed 0 (by decide) le_rfl
  else .moved (s.1.read n).1 h (s.length_read_lt n).1

theorem Pieces.bytes_moved (s : Pieces) (n : Nat) : (s.moved n).bytes = (s.1.read n).1 := by
  unfold moved
  split
  · rename_i h
    exact h.symm
  · rfl

/-- The call that `Session.readFixSize` repeats. -/
def Pieces.call : Call (Pieces × (Nat → UInt8)) where
  run s offset n := (s.1.moved n, ⟨(s.1.1.read n).2, (s.1.length_read_lt n).2⟩, store s.2 offset (s.1.1.read n).1)
  le s _ n := by
    rw [s.1.bytes_moved n]
    exact Session.length_read_le s.1.1 n

theorem Pieces.stores_call (t : Pieces × (Nat → UInt8)) (offset n : Nat) :
    (call.run t offset n).2.2 = store t.2 offset (call.run t offset n).1.bytes :=
  congrArg (store t.2 offset) (t.1.bytes_moved n).symm

theorem Pieces.run_call (t : Pieces × (Nat → UInt8)) (offset n : Nat) :
    ∃ next : Pieces × (Nat → UInt8), t.1.1.read n = ((t.1.moved n).bytes, next.1.1) ∧
      call.run t offset n = (t.1.moved n, next) :=
  ⟨(call.run t offset n).2, by rw [t.1.bytes_moved]; rfl, rfl⟩

variable {length : Nat} {s : Pieces × (Nat → UInt8)}

theorem readLoop_of_reaches {turns : Nat} {bytes : List UInt8} {t : Pieces × (Nat → UInt8)}
    (h : Reaches Pieces.call length s bytes t) (hturns : length - bytes.length < turns) :
    (∃ all t', Reaches Pieces.call length s all t' ∧ all.length = length ∧
      t.1.1.readLoop turns (length - bytes.length) bytes = (some all, t'.1.1)) ∨
    ∃ r t', Fails Pieces.call s length r t' ∧ t.1.1.readLoop turns (length - bytes.length) bytes = (none, t'.1.1) := by
  induction turns generalizing bytes t with
  | zero => omega
  | succ turns ih =>
    rw [Session.readLoop]
    by_cases hleft : length - bytes.length = 0
    · rw [if_pos hleft]
      have := h.length_le
      exact .inl ⟨bytes, t, h, by omega, rfl⟩
    · rw [if_neg hleft]
      have hlt : bytes.length < length := by omega
      obtain ⟨next, hread, hrun⟩ := Pieces.run_call t bytes.length (length - bytes.length)
      rcases hmoved : t.1.moved (length - bytes.length) with ⟨r, int, nonpos⟩ | ⟨piece, pos, int⟩
      · rw [hmoved] at hrun hread
        refine .inr ⟨r, _, ⟨bytes, t, int, nonpos, h, hlt, hrun⟩, ?_⟩
        rw [hread]
        rfl
      · rw [hmoved] at hrun hread
        obtain ⟨c, cs, rfl⟩ := List.exists_cons_of_ne_nil pos
        have hnext := ih (h.step hlt hrun) (by rw [List.length_append, List.length_cons]; omega)
        rw [List.length_append, ← Nat.sub_sub] at hnext
        rw [hread]
        exact hnext

/-- The model of `readFixSize` that `recvRequest` is written over is `Stream::readFixSize` over what a session reads. -/
theorem readFixSize_session (hlt : length < 2 ^ 63) (s : Pieces) (buffer : Nat → UInt8)
    {r : Int × Pieces × (Nat → UInt8)} (hr : fixSize Pieces.call (s, buffer) length = r) :
    s.1.readFixSize length = (if 0 < r.1 then some (slice r.2.2 0 length) else none, r.2.1.1) := by
  subst hr
  have hstart : Reaches Pieces.call length (s, buffer) [] (s, buffer) := .start
  rw [Session.readFixSize]
  rcases readLoop_of_reaches hstart (Nat.lt_succ_self length) with ⟨all, t, h, hlen, hread⟩ | ⟨r, t, hf, hread⟩
  · have hread : s.1.readLoop (length + 1) length [] = (some all, t.1.1) := hread
    rw [hread, fixSize_of_completes hlt ⟨all, h, hlen⟩]
    dsimp only
    split
    · rename_i hneg
      rw [if_neg (not_lt.2 hneg)]
    · rename_i hpos
      rw [if_pos (not_le.1 hpos), ← hlen, h.slice_of_stores Pieces.stores_call]
  · have hread : s.1.readLoop (length + 1) length [] = (none, t.1.1) := hread
    obtain ⟨heq, hneg⟩ := fixSize_of_fails hlt hf
    rw [hread, heq]
    dsimp only
    rw [if_neg (not_lt.2 hneg)]

end Session

/-- Up to `2 ^ 30` zeros. -/
def zeros (n : Nat) : Moved :=
  if h : n = 0 then .failed 0 (by decide) le_rfl
  else .moved (List.replicate (min n (2 ^ 30)) 0)
    (by rw [Ne, List.replicate_eq_nil_iff]; omega)
    (by rw [List.length_replicate]; omega)

theorem length_zeros (n : Nat) : (zeros n).bytes.length = min n (2 ^ 30) := by
  unfold zeros
  split
  · rename_i h
    rw [h]
    rfl
  · exact List.length_replicate

/-- A stream that always moves what it was asked for, up to `2 ^ 30` bytes. -/
def large : Stream Unit where
  read s n := (zeros n, s)
  readBa s n := (zeros n, s)
  write s data := (⟨(min data.length (2 ^ 30) : Nat), by omega, by omega⟩, s)
  writeBa s n := (zeros n, s)
  read_le _ n := (length_zeros n).trans_le (Nat.min_le_left ..)
  readBa_le _ n := (length_zeros n).trans_le (Nat.min_le_left ..)
  writeBa_le _ n := (length_zeros n).trans_le (Nat.min_le_left ..)

/-- `fixSize_exact_iff` for `2 ^ 31` bytes. -/
theorem fixSize_exact_iff_large :
    Exact large.readAt ((), fun _ => 0) (2 ^ 31) (large.readFixSize () (fun _ => 0) (2 ^ 31)) ↔
      2 ^ 31 = 0 ∨ 0 < toInt (2 ^ 31) ∨ ∀ r, ¬ Completes large.readAt ((), fun _ => 0) (2 ^ 31) r :=
  (Stream.fixSize_exact_iff large () (fun _ => 0) (2 ^ 31) (by decide)).1

/-- `2 ^ 31` bytes come in two reads, and the result is negative. -/
theorem not_exact_large : ¬ ∀ (t : Stream Unit) (buffer : Nat → UInt8) (length : Nat), length < 2 ^ 63 →
    Exact t.readAt ((), buffer) length (t.readFixSize () buffer length) := by
  intro h
  have hexact := h large (fun _ => 0) (2 ^ 31) (by decide)
  have hmoves : ∀ s offset n, 0 < n → (large.readAt.run s offset n).1.bytes ≠ [] := by
    intro s offset n hn
    rw [← List.length_pos_iff]
    exact (length_zeros n).symm ▸ Nat.lt_min.2 ⟨hn, by decide⟩
  obtain ⟨r, hr⟩ : ∃ r, Completes large.readAt ((), fun _ => 0) (2 ^ 31) r := completes_of_moves hmoves
  rcases (exact_iff (by decide) _ _).1 hexact with h | h | h
  · exact absurd h (by decide)
  · exact absurd h (by decide)
  · exact h r hr

end ServerFrame.Streams
