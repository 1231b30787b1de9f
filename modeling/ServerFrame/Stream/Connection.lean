/-
`SocketStream` with both directions of its socket: reads as those of a session, and writes of which each call of `send`
takes as much as it likes (`socket_stream.cc`, `stream.cc`).
-/
import ServerFrame.Stream.FixSize

namespace ServerFrame.Streams

open ServerFrame.Http

/-- The socket of a `SocketStream`: what is still to be received, how many bytes each further call
of `send` takes at most, where 0 stands for a result that is not positive, and what has been sent. A call of `send`
beyond those fails. -/
structure Connection where
  session : Session
  sends : List Nat := []
  sent : List UInt8 := []
deriving DecidableEq, Repr

namespace Connection

/-- The `-1` of a `write`. -/
def failed : Moved := .failed (-1) (by decide) (by decide)

theorem length_take_lt (data : List UInt8) (n : Nat) : (data.take (min n (2 ^ 31 - 1))).length < 2 ^ 31 := by
  rw [List.length_take]
  omega

/-- `SocketStream::write(buffer, length)`, where `send` takes no more than an `int` can say. -/
def write (c : Connection) (data : List UInt8) : Moved × Connection :=
  if !c.session.connected then (failed, c)
  else
    match c.sends with
    | [] => (failed, c)
    | n :: sends =>
      if h : data.take (min n (2 ^ 31 - 1)) = [] then (failed, { c with sends })
      else (.moved (data.take (min n (2 ^ 31 - 1))) h (length_take_lt data n),
        { c with sends, sent := c.sent ++ data.take (min n (2 ^ 31 - 1)) })

theorem write_spec (c : Connection) (data : List UInt8) : (c.write data).1.bytes <+: data ∧
    (c.write data).2.sent = c.sent ++ (c.write data).1.bytes ∧ (c.write data).2.session = c.session := by
  unfold write
  split
  · exact ⟨List.nil_prefix, (List.append_nil _).symm, rfl⟩
  · split
    · exact ⟨List.nil_prefix, (List.append_nil _).symm, rfl⟩
    · split
      · exact ⟨List.nil_prefix, (List.append_nil _).symm, rfl⟩
      · exact ⟨List.take_prefix .., rfl, rfl⟩

/-- A call of `send` that takes all of the data. -/
theorem write_whole {c : Connection} {data : List UInt8} {n : Nat} {sends : List Nat}
    (hconn : c.session.connected = true) (hsends : c.sends = n :: sends) (hne : data ≠ []) (hint : data.length < 2 ^ 31)
    (hle : data.length ≤ n) : c.write data = (.moved data hne hint, { c with sends, sent := c.sent ++ data }) := by
  have hwhole : data.take (min n (2 ^ 31 - 1)) = data := List.take_of_length_le (by omega)
  simp only [write, hconn, Bool.not_true, Bool.false_eq_true, ↓reduceIte, hsends, hwhole, hne, ↓reduceDIte]

/-- `write((const char*) buffer + offset, left)`. -/
def writeAt (data : List UInt8) : Call Connection where
  run c offset n := c.write ((data.drop offset).take n)
  le c _ _ := (write_spec c _).1.length_le.trans (List.length_take_le ..)

theorem run_writeAt (data : List UInt8) (c : Connection) (offset n : Nat) :
    (writeAt data).run c offset n = c.write ((data.drop offset).take n) := rfl

/-- `Stream::writeFixSize(data.data(), data.size())`. -/
def writeFixSize (c : Connection) (data : List UInt8) : Int × Connection := fixSize (writeAt data) c data.length

section Sent

variable {c t : Connection} {data bytes : List UInt8}

/-- What has gone through is the beginning of the data, and is what has been sent since. -/
theorem sent_of_reaches (h : Reaches (writeAt data) data.length c bytes t) :
    bytes <+: data ∧ t.sent = c.sent ++ bytes ∧ t.session = c.session := by
  induction h with
  | start => exact ⟨List.nil_prefix, (List.append_nil _).symm, rfl⟩
  | @step bytes piece t t' pos int h lt hcall ih =>
    obtain ⟨hbytes, hsent, hsession⟩ := ih
    obtain ⟨hpiece, hsent', hsession'⟩ := write_spec t ((data.drop bytes.length).take (data.length - bytes.length))
    rw [run_writeAt] at hcall
    rw [hcall] at hpiece hsent' hsession'
    refine ⟨?_, ?_, hsession'.trans hsession⟩
    · obtain ⟨rest, rfl⟩ := hbytes
      rw [List.drop_left] at hpiece
      exact (List.prefix_append_right_inj bytes).2 (hpiece.trans (List.take_prefix ..))
    · rw [hsent', hsent, List.append_assoc]
      rfl

/-- Every further call of `send` takes something, and together they take the data. -/
structure Takes (c : Connection) (data : List UInt8) : Prop where
  connected : c.session.connected = true
  sends : ∀ n ∈ c.sends, 0 < n ∧ n < 2 ^ 31
  enough : data.length ≤ c.sends.sum

theorem takes_of_reaches (hc : c.Takes data) (h : Reaches (writeAt data) data.length c bytes t) :
    t.Takes (data.drop bytes.length) := by
  induction h with
  | start => exact hc
  | @step bytes piece t t' pos int h lt hcall ih =>
    obtain ⟨hconn, hsends, henough⟩ := ih
    rw [run_writeAt] at hcall
    rw [write, if_neg (by rw [hconn]; decide)] at hcall
    split at hcall
    · cases hcall
    · rename_i n sends heq
      have hn := hsends n (heq ▸ List.mem_cons_self)
      split at hcall
      · cases hcall
      · cases hcall
        refine ⟨hconn, fun m hm => hsends m (heq ▸ List.mem_cons_of_mem _ hm), ?_⟩
        rw [heq, List.sum_cons, List.length_drop] at henough
        simp only [List.length_drop, List.length_append, List.length_take]
        omega

/-- Whatever the calls of `send` do, what is sent is a beginning of the data. -/
theorem writeFixSize_prefix (hlt : data.length < 2 ^ 63) (c : Connection) :
    ∃ bytes, bytes <+: data ∧ (c.writeFixSize data).2.sent = c.sent ++ bytes ∧
      (c.writeFixSize data).2.session = c.session := by
  obtain ⟨t, ht⟩ | ⟨r, t, hf⟩ := (Reaches.start : Reaches (writeAt data) data.length c [] c).completes_or_fails
  · rw [writeFixSize, fixSize_of_completes hlt ht]
    obtain ⟨bytes, h, -⟩ := ht
    exact ⟨bytes, sent_of_reaches h⟩
  · rw [writeFixSize, (fixSize_of_fails hlt hf).1]
    obtain ⟨bytes, t', int, nonpos, h, -, hcall⟩ := hf
    obtain ⟨hbytes, hsent, hsession⟩ := sent_of_reaches h
    have hspec := (write_spec t' ((data.drop bytes.length).take (data.length - bytes.length))).2
    rw [run_writeAt] at hcall
    rw [hcall] at hspec
    exact ⟨bytes, hbytes, hspec.1.trans ((List.append_nil _).trans hsent), hspec.2.trans hsession⟩

/-- All of the data is sent where the calls of `send` take it. -/
theorem writeFixSize_all (hlt : data.length < 2 ^ 63) (hc : c.Takes data) :
    (c.writeFixSize data).2.sent = c.sent ++ data ∧ (c.writeFixSize data).2.session = c.session := by
  obtain ⟨t, ht⟩ | ⟨r, t, hf⟩ := (Reaches.start : Reaches (writeAt data) data.length c [] c).completes_or_fails
  · rw [writeFixSize, fixSize_of_completes hlt ht]
    obtain ⟨bytes, h, hlen⟩ := ht
    obtain ⟨hbytes, hsent, hsession⟩ := sent_of_reaches h
    rw [hbytes.eq_of_length hlen] at hsent
    exact ⟨hsent, hsession⟩
  · obtain ⟨bytes, t', int, nonpos, h, hlen, hcall⟩ := hf
    obtain ⟨hconn, hsends, henough⟩ := takes_of_reaches hc h
    rw [run_writeAt] at hcall
    rw [write, if_neg (by rw [hconn]; decide)] at hcall
    rw [List.length_drop] at henough
    split at hcall
    · rename_i hnil
      rw [hnil] at henough
      exact absurd henough (by simp only [List.sum_nil]; omega)
    · rename_i n sends heq
      have hn := hsends n (heq ▸ List.mem_cons_self)
      split at hcall
      · rename_i hnone
        have hzero := congrArg List.length hnone
        simp only [List.length_take, List.length_drop, List.length_nil] at hzero
        omega
      · cases hcall

end Sent

end Connection

end ServerFrame.Streams
