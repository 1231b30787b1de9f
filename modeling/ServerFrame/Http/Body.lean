/-
How `recvRequest` and the path of `recvResponse` without chunks put a body together from what the buffer holds behind
the header and what the socket still gives.
-/
import ServerFrame.Http.Connection
import ServerFrame.Http.Stream

namespace ServerFrame.Http

/-! ## The buffer -/

section Buffer

variable {data : Nat → UInt8} {offset n : Nat} {piece : List UInt8}

theorem slice_fill (data : Nat → UInt8) (offset : Nat) (piece : List UInt8) :
    slice (HttpConnection.fill data offset piece) 0 (offset + piece.length) = slice data 0 offset ++ piece := by
  rw [← slice_store]
  refine slice_congr fun i hi => ?_
  rw [HttpConnection.fill, store, if_neg (by omega)]

/-- What a call of the parser of responses that succeeds has done: the run of the machine, for a chunk from its
start. -/
theorem HttpResponseParser.execute_ok {h h' : HttpResponseParser} {data' : Nat → UInt8} {len : Nat} {chunck : Bool}
    (hex : h.execute data len chunck = .ok (h', data', n)) :
    n ≤ len ∧ data' = HttpRequestParser.memmove data n (len - n) ∧ len < 2 ^ 31 ∧ data len = 0 ∧ ∃ h₁ cs,
      exec data len len 0 (if chunck then h.parser.init else h.parser).cs
        { h with parser := (if chunck then h.parser.init else h.parser).reset } = .ok (h₁, cs, n) ∧
      h' = { h₁ with parser := { h₁.parser with cs, nread := n } } := by
  have hstart : (if chunck then { h with parser := h.parser.init } else h) =
      { h with parser := if chunck then h.parser.init else h.parser } := by
    cases chunck <;> rfl
  rw [execute, hstart] at hex
  split at hex
  · cases hex
  · cases hex
  · rename_i hparse
    cases hex
    rw [parserExecute, if_neg (not_not_intro (Nat.zero_le len)), Nat.sub_zero] at hparse
    split at hparse
    · cases hparse
    · rename_i hnul
      split at hparse
      · cases hparse
      · rename_i hwidth
        rw [not_not, toInt_of_lt (Nat.two_pow_pos 31)] at hwidth
        have h31 : toInt len < 2 ^ 31 := Int.bmod_lt (Nat.two_pow_pos 32)
        split at hparse
        · cases hparse
        · rename_i hexec
          dsimp only at hparse
          split at hparse
          · rename_i hchecks
            split at hparse
            · cases hparse
              exact ⟨hchecks.1, rfl, by omega, not_not.1 hnul, _, _, hexec, rfl⟩
            · cases hparse
          · cases hparse

end Buffer

/-! ## Behind the header -/

section Header

variable {data data' : Nat → UInt8} {offset offset' n : Nat} {s s' : Session}

/-- One turn of the loops: of what was buffered and what comes, a front part is consumed. -/
theorem turn_suffix {buffer : Nat → UInt8} {length : Nat}
    (hfill : slice buffer 0 (offset + (s.read length).1.length) = slice data 0 offset ++ (s.read length).1)
    (hn : n ≤ offset + (s.read length).1.length)
    (hdata : data' = HttpRequestParser.memmove buffer n (offset + (s.read length).1.length - n)) :
    slice data' 0 (offset + (s.read length).1.length - n) ++ (s.read length).2.input.flatten <:+
      slice data 0 offset ++ s.input.flatten := by
  rw [hdata, slice_consumed hn, hfill, (Session.read_flatten s length).1, ← List.append_assoc]
  exact (List.suffix_append_self_iff).2 (List.drop_suffix ..)

theorem HttpSession.recvLoop_suffix {buffSize : Nat} {h' : HttpRequestParser} : ∀ {turns : Nat} {h : HttpRequestParser}
    {data : Nat → UInt8} {offset : Nat} {s : Session},
    recvLoop buffSize turns h data offset s = .ok (some (h', data', offset'), s') →
    slice data' 0 offset' ++ s'.input.flatten <:+ slice data 0 offset ++ s.input.flatten
  | 0, _, _, _, _, hrun => by cases hrun
  | turns + 1, h, data, offset, s, hrun => by
    rw [recvLoop] at hrun
    split at hrun
    · cases hrun
    · simp only at hrun
      split at hrun
      · cases hrun
      · rename_i hex
        obtain ⟨hn, hdata, -⟩ := HttpRequestParser.execute_ok hex
        have hturn := turn_suffix (slice_store ..) hn hdata
        split at hrun
        · cases hrun
        · split at hrun
          · cases hrun
          · split at hrun
            · cases hrun
              exact hturn
            · exact (recvLoop_suffix hrun).trans hturn

end Header

/-! ## The body -/

section Assembly

variable {α : Type} {data : Nat → UInt8} {offset n : Nat} {s : Session} {message : List UInt8 → α}

/-- A body of `n` bytes is the first of those buffered and those that the stream still gives, of which no more are read
than are missing. Where there are fewer, nothing is returned and the stream is closed. -/
structure Assembled (buffered : List UInt8) (s : Session) (n : Nat) (message : List UInt8 → α)
    (r : Option α × Session) : Prop where
  whole : n ≤ (buffered ++ s.available).length →
    r.1 = some (message ((buffered ++ s.available).take n)) ∧ s.Took (n - buffered.length) r.2
  short : (buffered ++ s.available).length < n → r.1 = none ∧ r.2.connected = false

/-- The three cases of both functions: all of the body is buffered, the rest of it is read, or the stream ends. -/
theorem assembled_of {r : Option α × Session} (h31 : n - offset < 2 ^ 31)
    (hall : n ≤ offset → r = (some (message (slice data 0 n)), s))
    (hread : ∀ rest s', offset < n → s.readFixSize (n - offset) = (some rest, s') →
      r = (some (message (slice data 0 offset ++ rest)), s'))
    (hend : ∀ s', offset < n → s.readFixSize (n - offset) = (none, s') → r = (none, s'.close)) :
    Assembled (slice data 0 offset) s n message r := by
  have hlength : (slice data 0 offset ++ s.available).length = offset + s.available.length := by
    rw [List.length_append, length_slice]
  rcases Nat.lt_or_ge offset n with hlt | hge
  -- the buffer holds less than the body
  · obtain ⟨henough, hfew⟩ := Session.readFixSize_available s (Nat.sub_pos_of_lt hlt)
    constructor
    · intro hle
      obtain ⟨s', hrun, htook⟩ := henough (by omega) h31
      have htake : (slice data 0 offset ++ s.available).take n =
          slice data 0 offset ++ s.available.take (n - offset) := by
        rw [List.take_append, length_slice, List.take_of_length_le (by rw [length_slice]; exact hlt.le)]
      rw [hread _ s' hlt hrun, length_slice, htake]
      exact ⟨rfl, htook⟩
    · intro hshort
      obtain ⟨s', hrun⟩ := hfew (by omega)
      rw [hend s' hlt hrun]
      exact ⟨rfl, rfl⟩
  -- the buffer holds all of it, and the stream is not asked
  · rw [hall hge]
    constructor
    · intro _
      have hsplit : slice data 0 offset = slice data 0 n ++ slice data (0 + n) (offset - n) := by
        rw [← slice_add, Nat.add_sub_cancel' hge]
      rw [length_slice, Nat.sub_eq_zero_of_le hge, hsplit, List.append_assoc, List.take_left' (length_slice ..)]
      exact ⟨rfl, .zero s⟩
    · intro hshort
      omega

theorem HttpSession.recvBody_assembled {cast : List UInt8 → Option UInt64} {h : HttpRequestParser}
    (hn : (h.getContentLength cast).toNat = n) (hpos : 0 < n) (h63 : n < 2 ^ 63) (h31 : n - offset < 2 ^ 31) :
    Assembled (slice data 0 offset) s n (fun body => { h.data with body }) (recvBody cast h data offset s) := by
  unfold recvBody
  rw [hn]
  simp only
  rw [if_pos ⟨hpos, h63⟩]
  refine assembled_of h31 (fun hle => if_pos hle) (fun rest s' hlt hrun => ?_) fun s' hlt hrun => ?_
  · rw [if_neg (Nat.not_le.2 hlt), hrun]
  · rw [if_neg (Nat.not_le.2 hlt), hrun]

theorem HttpConnection.withBody_of_length {d : HttpResponse} {body : List UInt8} (h : 0 < body.length) :
    withBody d body = { d with body } := if_neg (List.ne_nil_of_length_pos h)

theorem HttpConnection.recvBody_assembled {cast : List UInt8 → Option UInt64} {h : HttpResponseParser}
    (hn : (h.getContentLength cast).toNat = n) (hpos : 0 < n) (h63 : n < 2 ^ 63) (h31 : n - offset < 2 ^ 31) :
    Assembled (slice data 0 offset) s n (fun body => { h.data with body }) (recvBody cast h data offset s) := by
  unfold recvBody
  rw [hn]
  simp only
  rw [if_pos ⟨hpos, h63⟩]
  refine assembled_of h31 (fun hle => ?_) (fun rest s' hlt hrun => ?_) fun s' hlt hrun => ?_
  · rw [if_pos hle, withBody_of_length (by rwa [length_slice])]
  · have hrest : 0 < rest.length := by
      obtain ⟨henough, hfew⟩ := Session.readFixSize_available s (Nat.sub_pos_of_lt hlt)
      rcases Nat.lt_or_ge s.available.length (n - offset) with hlt' | hge
      · obtain ⟨t, ht⟩ := hfew hlt'
        cases ht.symm.trans hrun
      · obtain ⟨t, ht, -⟩ := henough hge h31
        cases ht.symm.trans hrun
        rw [List.length_take]
        omega
    rw [if_neg (Nat.not_le.2 hlt), hrun]
    simp only
    rw [withBody_of_length (by rw [List.length_append]; omega)]
  · rw [if_neg (Nat.not_le.2 hlt), hrun]

end Assembly

section Pieces

set_option maxRecDepth 100000

/-- A server with a buffer of 64 bytes and memory that is all zeros. -/
def server : Env :=
  { bufferSize := 64
    memory := fun _ => 0
    object := ⟨⟨[], 0, 0, 0, 0, 0, 0, 0, false, false, false⟩, {}, 0⟩
    cast := fun s => if s = bytes "2" then some 2 else none }

/-- A client that is like it. -/
def client : HttpConnection.Env :=
  { bufferSize := 64
    memory := fun _ => 0
    object := ⟨⟨[], 0, 0, 0, false, false, false, 0, 0, 0, 0⟩, {}, 0⟩
    cast := fun s => if s = bytes "2" then some 2 else none }

/-- What a loop has at its `break`. -/
theorem exists_of_toOption {ε π σ β : Type} {x : Except ε (Option π × σ)} {f : π → β} {b : β}
    (h : x.toOption.bind (fun p => p.1.map f) = some b) : ∃ q s, x = .ok (some q, s) ∧ f q = b := by
  cases x with
  | error e => cases h
  | ok p =>
    obtain ⟨q, hq, hb⟩ := Option.map_eq_some_iff.1 h
    exact ⟨q, p.2, by rw [← hq], hb⟩

end Pieces

end ServerFrame.Http
