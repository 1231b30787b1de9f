/-
The bytes of a chunk and its line end in `recvResponse`, whatever part of them is in the buffer and whatever pieces the
rest comes in. The rest is read in counts of `(int) buff_size` at most: a buffer size from `2 ^ 31` on can be zero or
negative as an `int`, and then nothing is asked for, or no bound is put on what is read.
-/
import ServerFrame.Http.BodyLimit

namespace ServerFrame.Http

/-- `body` gets the next `c` bytes of those buffered and the stream, the two bytes behind them are dropped, no more is
read than is missing of these, and the buffer keeps what follows them. Where the stream ends before, `nullptr` is
returned and the stream is closed. -/
structure PayloadStep (c : Nat) (data : Nat → UInt8) (len : Nat) (body : List UInt8) (s : Session)
    (r : Except ClientFault (Option ((Nat → UInt8) × Nat × List UInt8) × Session)) : Prop where
  whole : c + 2 ≤ (slice data 0 len ++ s.available).length → ∃ data' len' s',
    r = .ok (some (data', len', body ++ (slice data 0 len ++ s.available).take c), s') ∧
      slice data' 0 len' = (slice data 0 len).drop (c + 2) ∧ s.Took (c + 2 - len) s'
  short : (slice data 0 len ++ s.available).length < c + 2 → ∃ s', r = .ok (none, s') ∧ s'.connected = false

/-- The count that is read is never zero and never more than what is missing; or nothing is read, or too little comes
anyway; or the count is as good as unbounded and a piece ends where the chunk does. -/
def Bounded (buffSize c len : Nat) (s : Session) : Prop :=
  c + 2 ≤ len ∨ len + s.available.length < c + 2 ∨ 0 < toInt buffSize ∨
    toInt buffSize < 0 ∧ ∃ k, len + (s.input.take k).flatten.length = c + 2

namespace HttpConnection

section Rest

variable {buffSize turns left : Nat} {s : Session} {data : Nat → UInt8} {body : List UInt8}

/-- One turn, by what `read` returns. -/
theorem payloadLoop_succ (hleft : 0 < left) : payloadLoop buffSize (turns + 1) left data body s =
    if (s.read (payloadCount buffSize left)).1 = [] then (none, (s.read (payloadCount buffSize left)).2.close)
    else
      payloadLoop buffSize turns (left - ((s.read (payloadCount buffSize left)).1.length : Int))
        (store data 0 (s.read (payloadCount buffSize left)).1) (body ++ (s.read (payloadCount buffSize left)).1)
        (s.read (payloadCount buffSize left)).2 := by
  rw [payloadLoop, if_neg (by omega), payloadCount]
  dsimp only
  generalize sizeT (if (left : Int) > toInt buffSize then toInt buffSize else left) = count
  rcases s.read count with ⟨piece, s'⟩
  cases piece with
  | nil => rfl
  | cons b piece => rfl

theorem payloadLoop_done {left : Int} (h : left ≤ 0) :
    payloadLoop buffSize (turns + 1) left data body s = (some (data, body), s) := by
  rw [payloadLoop, if_pos h]

/-- Too little comes, for any buffer size. -/
theorem payloadLoop_short (buffSize : Nat) (data : Nat → UInt8) (body : List UInt8) (hturns : left < turns)
    (hshort : s.available.length < left) :
    ∃ s', payloadLoop buffSize turns left data body s = (none, s') ∧ s'.connected = false := by
  induction turns generalizing left data body s with
  | zero => cases hturns
  | succ turns ih =>
    rw [payloadLoop_succ (by omega)]
    split
    · exact ⟨_, rfl, rfl⟩
    · rename_i hpiece
      have hcount : 0 < payloadCount buffSize left := by
        by_contra hzero
        have hlen := s.length_read_le (payloadCount buffSize left)
        exact hpiece (List.eq_nil_of_length_eq_zero (by omega))
      rcases s.read_available hcount with ⟨hnil, -⟩ | ⟨-, hsome⟩
      · exact absurd hnil hpiece
      · have hlength := congrArg List.length hsome
        rw [List.length_append] at hlength
        have hpos := List.length_pos_iff.2 hpiece
        rw [← Int.ofNat_sub (by omega)]
        exact ih _ _ (by omega) (by omega)

/-- A count that is positive as an `int`: exactly what is missing is read. -/
theorem payloadLoop_whole (data : Nat → UInt8) (body : List UInt8) (hsize : 0 < toInt buffSize)
    (hturns : left < turns) (h31 : left < 2 ^ 31) (hle : left ≤ s.available.length) : ∃ data' s',
    payloadLoop buffSize turns left data body s = (some (data', body ++ s.available.take left), s') ∧
      s.Took left s' := by
  induction turns generalizing left data body s with
  | zero => cases hturns
  | succ turns ih =>
    rcases Nat.eq_zero_or_pos left with rfl | hleft
    · rw [payloadLoop_done (by omega), List.take_zero, List.append_nil]
      exact ⟨data, s, rfl, .zero s⟩
    · have hcount : 0 < payloadCount buffSize left ∧ payloadCount buffSize left ≤ left := by
        rw [payloadCount]
        split
        · rw [sizeT_of_nonneg (by omega) (by omega)]
          omega
        · rw [sizeT_natCast (by omega)]
          omega
      have hlen := s.length_read_le (payloadCount buffSize left)
      rw [payloadLoop_succ hleft]
      rcases s.read_available hcount.1 with ⟨-, hnone⟩ | ⟨hpiece, hsome⟩
      · rw [hnone] at hle
        exact absurd hle (Nat.not_le.2 hleft)
      · have htook := Session.read_took hsome
        rw [if_neg hpiece]
        generalize (s.read (payloadCount buffSize left)).1 = piece at *
        generalize (s.read (payloadCount buffSize left)).2 = s₁ at *
        have hpos := List.length_pos_iff.2 hpiece
        rw [hsome, List.length_append] at hle
        obtain ⟨data', s', hrun, htook'⟩ := @ih (left - piece.length) s₁ (store data 0 piece) (body ++ piece) (by omega)
          (by omega) (by omega)
        rw [← Int.ofNat_sub (by omega), hrun]
        refine ⟨data', s', ?_, ?_⟩
        · rw [hsome, List.take_append, List.take_of_length_le (show piece.length ≤ left by omega), List.append_assoc]
        · rw [← Nat.add_sub_cancel' (show piece.length ≤ left by omega)]
          exact htook.trans htook'

/-- A count that is zero as an `int`: the read returns nothing. -/
theorem payloadLoop_zero (hsize : toInt buffSize = 0) (hleft : 0 < left) :
    payloadLoop buffSize (turns + 1) left data body s = (none, (s.read 0).2.close) := by
  have hcount : payloadCount buffSize left = 0 := by
    rw [payloadCount, hsize, if_pos (by omega)]
    rfl
  have hnil : (s.read 0).1 = [] := List.eq_nil_of_length_eq_zero (Nat.le_zero.1 (s.length_read_le 0))
  rw [payloadLoop_succ hleft, hcount, if_pos hnil]

theorem payloadCount_neg (hsize : toInt buffSize < 0) (left : Nat) : 2 ^ 63 ≤ payloadCount buffSize left := by
  have hlo : -2 ^ 31 ≤ toInt buffSize := Int.le_bmod (Nat.two_pow_pos 32)
  rw [payloadCount, if_pos (by omega), sizeT]
  omega

/-- A read without a bound, of a stream that is not at its end. -/
theorem read_unbounded {n : Nat} (hs : s.available ≠ []) : ∃ p ps, s.input = p :: ps ∧ p ≠ [] ∧
    s.available = p ++ { s with input := ps }.available ∧
    s.read n = (p.take n, { s with input := if p.length ≤ n then ps else p.drop n :: ps }) := by
  have hconn : s.connected = true := by
    by_contra hclosed
    exact hs (Session.available_of_closed (by simpa using hclosed))
  rcases hinput : s.input with - | ⟨p, ps⟩
  · exact absurd (Session.available_nil hinput) hs
  · have hp : p ≠ [] := by
      rintro rfl
      exact hs (Session.available_stop hinput)
    refine ⟨p, ps, rfl, hp, Session.available_cons hconn hinput hp, ?_⟩
    rw [Session.read, hconn, hinput]
    rfl

/-- A count that is negative as an `int` bounds nothing: whole pieces are read, and just what is missing if it ends with
a piece. -/
theorem payloadLoop_unbounded (data : Nat → UInt8) (body : List UInt8) (hsize : toInt buffSize < 0)
    (hturns : left < turns) (h31 : left < 2 ^ 31) (hle : left ≤ s.available.length) :
    ((∃ k, (s.input.take k).flatten.length = left) → ∃ data' s',
      payloadLoop buffSize turns left data body s = (some (data', body ++ s.available.take left), s') ∧
        s.Took left s') ∧
    ∀ data' body' s', payloadLoop buffSize turns left data body s = (some (data', body'), s') →
      body'.length = body.length + left → ∃ k, (s.input.take k).flatten.length = left := by
  induction turns generalizing left data body s with
  | zero => cases hturns
  | succ turns ih =>
    rcases Nat.eq_zero_or_pos left with rfl | hleft
    · rw [payloadLoop_done (by omega), List.take_zero, List.append_nil]
      exact ⟨fun _ => ⟨data, s, rfl, .zero s⟩, fun _ _ _ _ _ => ⟨0, rfl⟩⟩
    · have hs : s.available ≠ [] := by
        rintro hnone
        rw [hnone] at hle
        exact absurd hle (Nat.not_le.2 hleft)
      have hcount := payloadCount_neg hsize left
      rw [payloadLoop_succ hleft]
      generalize payloadCount buffSize left = n at hcount ⊢
      obtain ⟨p, ps, hinput, hp, hsome, hread⟩ := read_unbounded (n := n) hs
      have hpos := List.length_pos_iff.2 hp
      have hpiece : (p.take n).length = min n p.length := List.length_take
      have hne : p.take n ≠ [] := List.length_pos_iff.1 (by omega)
      -- a front part of the pieces that ends where the chunk does has the first piece in it
      have hfirst : (∃ k, (s.input.take k).flatten.length = left) ↔
          p.length ≤ left ∧ ∃ k, (ps.take k).flatten.length = left - p.length := by
        rw [hinput]
        constructor
        · rintro ⟨k, hk⟩
          cases k with
          | zero =>
            rw [List.take_zero, List.flatten_nil, List.length_nil] at hk
            omega
          | succ k =>
            rw [List.take_succ_cons, List.flatten_cons, List.length_append] at hk
            exact ⟨by omega, k, by omega⟩
        · rintro ⟨hfits, k, hk⟩
          refine ⟨k + 1, ?_⟩
          rw [List.take_succ_cons, List.flatten_cons, List.length_append]
          omega
      rw [hfirst, hread]
      dsimp only
      rw [if_neg hne]
      rcases Nat.lt_or_ge left (p.take n).length with hover | hfits
      -- more than what is missing is read
      · obtain ⟨turns, rfl⟩ := Nat.exists_eq_succ_of_ne_zero (show turns ≠ 0 by omega)
        rw [payloadLoop_done (by omega)]
        refine ⟨fun ⟨hfits, _⟩ => by omega, fun data' body' s' hrun hlen => ?_⟩
        cases hrun
        rw [List.length_append] at hlen
        omega
      · have hwhole : p.take n = p := List.take_of_length_le (by omega)
        rw [hwhole] at hfits ⊢
        rw [if_pos (by omega)]
        have htook : s.Took p.length { s with input := ps } :=
          { available := by rw [hsome, List.drop_left]
            flatten := by rw [hinput, List.flatten_cons, List.drop_left]
            connected := rfl }
        have hrest := hle
        rw [hsome, List.length_append] at hrest
        obtain ⟨hex, hlast⟩ := @ih (left - p.length) { s with input := ps } (store data 0 p) (body ++ p) (by omega)
          (by omega) (by omega)
        rw [← Int.ofNat_sub hfits]
        constructor
        · rintro ⟨-, hk⟩
          obtain ⟨data', s', hrun, htook'⟩ := hex hk
          refine ⟨data', s', ?_, ?_⟩
          · rw [hrun, hsome, List.take_append, List.take_of_length_le hfits, List.append_assoc]
          · rw [← Nat.add_sub_cancel' hfits]
            exact htook.trans htook'
        · intro data' body' s' hrun hlen
          refine ⟨hfits, hlast data' body' s' hrun ?_⟩
          rw [List.length_append]
          omega

end Rest

/-! ## The step -/

section Step

variable {buffSize c len : Nat} {data : Nat → UInt8} {body : List UInt8} {s : Session}

/-- All is in the buffer. -/
theorem chunk_buffered (hc : c + 2 < 2 ^ 31) (hle : c + 2 ≤ len) : chunk buffSize c data len body s =
    .ok (some (HttpRequestParser.memmove data (c + 2) (len - (c + 2)), len - (c + 2), body ++ slice data 0 c), s) := by
  have hpayload : mkString data 0 c = .ok (slice data 0 c) := if_pos (by omega)
  rw [chunk, if_neg (by omega), if_pos (by omega), sizeT_natCast (by omega), hpayload]
  rfl

/-- Too little is read. -/
theorem chunk_ended (hc : c + 2 < 2 ^ 31) (hlt : len < c + 2) {s' : Session}
    (hrun : payloadLoop buffSize (c + 2 - len + 1) (c + 2 - len : Nat) data (body ++ slice data 0 len) s = (none, s')) :
    chunk buffSize c data len body s = .ok (none, s') := by
  have hleft : (c : Int) - len + 2 = (c + 2 - len : Nat) := by omega
  rw [chunk, if_neg (by omega), if_neg (by omega)]
  dsimp only
  rw [hleft, Int.toNat_natCast, hrun]

/-- What is buffered is taken, the rest read, and two bytes are taken off again. -/
theorem chunk_read (hc : c + 2 < 2 ^ 31) (hlt : len < c + 2) {data' : Nat → UInt8} {body' : List UInt8} {s' : Session}
    (hrun : payloadLoop buffSize (c + 2 - len + 1) (c + 2 - len : Nat) data (body ++ slice data 0 len) s =
      (some (data', body'), s')) :
    chunk buffSize c data len body s = if body'.length < 2 then .error (.abort .lengthError)
      else .ok (some (data', 0, body'.take (body'.length - 2)), s') := by
  have hleft : (c : Int) - len + 2 = (c + 2 - len : Nat) := by omega
  rw [chunk, if_neg (by omega), if_neg (by omega)]
  dsimp only
  rw [hleft, Int.toNat_natCast, hrun]

/-- Where the loop reads just what is missing, the body gets just the chunk. -/
theorem chunk_exact (hc : c + 2 < 2 ^ 31) (hlt : len < c + 2) (hle : c + 2 ≤ (slice data 0 len ++ s.available).length)
    {data' : Nat → UInt8} {s' : Session}
    (hrun : payloadLoop buffSize (c + 2 - len + 1) (c + 2 - len : Nat) data (body ++ slice data 0 len) s =
      (some (data', body ++ slice data 0 len ++ s.available.take (c + 2 - len)), s')) :
    chunk buffSize c data len body s =
      .ok (some (data', 0, body ++ (slice data 0 len ++ s.available).take c), s') := by
  have hbuffered : (slice data 0 len).length ≤ c + 2 := by
    rw [length_slice]
    exact hlt.le
  have htaken : body ++ slice data 0 len ++ s.available.take (c + 2 - len) =
      body ++ (slice data 0 len ++ s.available).take (c + 2) := by
    rw [List.take_append, List.take_of_length_le hbuffered, length_slice, List.append_assoc]
  have hlength : (body ++ (slice data 0 len ++ s.available).take (c + 2)).length = body.length + c + 2 := by
    rw [List.length_append, List.length_take_of_le hle, Nat.add_assoc]
  rw [htaken] at hrun
  rw [chunk_read hc hlt hrun, hlength, if_neg (by omega), Nat.add_sub_cancel, List.take_append,
    List.take_of_length_le (Nat.le_add_right ..), Nat.add_sub_cancel_left, List.take_take, Nat.min_eq_left (by omega)]

/-- Of a chunk that is not all in the buffer, and that the stream has all of. -/
theorem payloadStep_read_iff (hc : c + 2 < 2 ^ 31) (hlt : len < c + 2) (henough : c + 2 - len ≤ s.available.length) :
    PayloadStep c data len body s (chunk buffSize c data len body s) ↔
      0 < toInt buffSize ∨ toInt buffSize < 0 ∧ ∃ k, (s.input.take k).flatten.length = c + 2 - len := by
  have hle : c + 2 ≤ (slice data 0 len ++ s.available).length := by
    rw [List.length_append, length_slice]
    omega
  have hstep : ∀ data' s', payloadLoop buffSize (c + 2 - len + 1) (c + 2 - len : Nat) data
      (body ++ slice data 0 len) s =
        (some (data', body ++ slice data 0 len ++ s.available.take (c + 2 - len)), s') →
      s.Took (c + 2 - len) s' → PayloadStep c data len body s (chunk buffSize c data len body s) := by
    intro data' s' hrun htook
    refine ⟨fun _ => ⟨data', 0, s', chunk_exact hc hlt hle hrun, ?_, htook⟩, fun hshort => by omega⟩
    rw [List.drop_of_length_le (by rw [length_slice]; omega)]
    rfl
  rcases lt_trichotomy (toInt buffSize) 0 with hneg | hzero | hpos
  · obtain ⟨hex, hlast⟩ := payloadLoop_unbounded data (body ++ slice data 0 len) hneg
      (Nat.lt_succ_self (c + 2 - len)) (by omega) henough
    constructor
    · intro h
      obtain ⟨data', len', s', hrun, -⟩ := h.whole hle
      refine .inr ⟨hneg, ?_⟩
      rcases hloop : payloadLoop buffSize (c + 2 - len + 1) (c + 2 - len : Nat) data (body ++ slice data 0 len) s with
        ⟨- | ⟨data'', body'⟩, s''⟩
      · rw [chunk_ended hc hlt hloop] at hrun
        cases hrun
      · rw [chunk_read hc hlt hloop] at hrun
        split at hrun
        · cases hrun
        · simp only [Except.ok.injEq, Prod.mk.injEq, Option.some.injEq] at hrun
          have hbody := congrArg List.length hrun.1.2.2
          rw [List.length_take, List.length_append, List.length_take_of_le (by omega)] at hbody
          refine hlast _ _ _ hloop ?_
          rw [List.length_append, length_slice]
          omega
    · rintro (hpos | ⟨-, hk⟩)
      · omega
      · obtain ⟨data', s', hrun, htook⟩ := hex hk
        exact hstep data' s' hrun htook
  · refine iff_of_false (fun h => ?_) (by omega)
    obtain ⟨data', len', s', hrun, -⟩ := h.whole hle
    rw [chunk_ended hc hlt (payloadLoop_zero hzero (by omega))] at hrun
    cases hrun
  · obtain ⟨data', s', hrun, htook⟩ := payloadLoop_whole data (body ++ slice data 0 len) hpos
      (Nat.lt_succ_self (c + 2 - len)) (by omega) henough
    exact iff_of_true (hstep data' s' hrun htook) (.inl hpos)

/-- The step does what it is for exactly where its reads are bounded. -/
theorem payloadStep_iff_bounded (hc : c + 2 < 2 ^ 31) :
    PayloadStep c data len body s (chunk buffSize c data len body s) ↔ Bounded buffSize c len s := by
  have hlength : (slice data 0 len ++ s.available).length = len + s.available.length := by
    rw [List.length_append, length_slice]
  rw [Bounded]
  rcases Nat.lt_or_ge len (c + 2) with hlt | hbuffered
  · rcases Nat.lt_or_ge s.available.length (c + 2 - len) with hshort | henough
    -- the stream ends first
    · refine iff_of_true ⟨fun hle => by omega, fun _ => ?_⟩ (.inr (.inl (by omega)))
      obtain ⟨s', hrun, hclosed⟩ := payloadLoop_short buffSize data (body ++ slice data 0 len)
        (Nat.lt_succ_self (c + 2 - len)) hshort
      exact ⟨s', chunk_ended hc hlt hrun, hclosed⟩
    · have hpieces : ∀ n, n = c + 2 - len ↔ len + n = c + 2 := by omega
      rw [payloadStep_read_iff hc hlt henough, or_iff_right (Nat.not_le.2 hlt),
        or_iff_right (show ¬ len + s.available.length < c + 2 by omega)]
      simp only [hpieces]
  · refine iff_of_true ⟨fun _ => ?_, fun hshort => by omega⟩ (.inl hbuffered)
    refine ⟨_, _, s, ?_, slice_consumed hbuffered, ?_⟩
    · have htake : (slice data 0 len ++ s.available).take c = slice data 0 c := by
        rw [← Nat.add_sub_cancel' (show c ≤ len by omega), slice_add, List.append_assoc,
          List.take_left' (length_slice ..)]
      rw [htake, chunk_buffered hc hbuffered]
    · rw [Nat.sub_eq_zero_of_le hbuffered]
      exact .zero s

end Step

end HttpConnection

/-- Behind the size line of a chunk of `c` bytes, with any bytes in the buffer and any pieces to come, `recvResponse`
takes the chunk and its line end as it should, also where the line end is cut between the buffer and the pieces, exactly
where they are in the buffer, or the stream ends too early, or the buffer size is positive as an `int`, or it is
negative and a piece ends where the line end does. -/
theorem payload_step_iff {buffSize c len : Nat} {data : Nat → UInt8} {body : List UInt8} {s : Session}
    (hc : c + 2 < 2 ^ 31) :
    PayloadStep c data len body s (HttpConnection.chunk buffSize c data len body s) ↔ Bounded buffSize c len s :=
  HttpConnection.payloadStep_iff_bounded hc

/-- The line end is cut: of a chunk of one byte, two bytes are in the buffer. -/
theorem payload_step_iff_cut : PayloadStep 1 (store (fun _ => 0) 0 (bytes "A\r")) 2 []
    { input := [bytes "\n0\r\n\r\n"] }
    (HttpConnection.chunk 64 (1 : Nat) (store (fun _ => 0) 0 (bytes "A\r")) 2 []
      { input := [bytes "\n0\r\n\r\n"] }) :=
  (payload_step_iff (by decide)).2 (.inr (.inr (.inl (by decide))))

/-- With a buffer of `2 ^ 31` bytes the next chunk is read with this one, and lost. -/
theorem next_chunk_taken : ¬ ∀ (buffSize c len : Nat) (data : Nat → UInt8) (body : List UInt8) (s : Session),
    c + 2 < 2 ^ 31 → len < buffSize →
      PayloadStep c data len body s (HttpConnection.chunk buffSize c data len body s) := by
  intro hall
  have hstep := hall (2 ^ 31) 1 0 (fun _ => 0) [] { input := [bytes "A\r\n0\r\n\r\n"] } (by decide) (by decide)
  rcases (HttpConnection.payloadStep_iff_bounded (by decide)).1 hstep with h | h | h | ⟨-, k, hk⟩
  · revert h
    decide
  · revert h
    decide
  · revert h
    decide
  · cases k with
    | zero =>
      revert hk
      decide
    | succ k =>
      rw [List.take_succ_cons, List.take_nil] at hk
      revert hk
      decide

end ServerFrame.Http
