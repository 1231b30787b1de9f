/-
`EchoServer::handleClient` (`echo_server.cc`): what a client sends goes through the blocks of a byte array and back.
Over any memory the run is that of a loop without a byte array.
-/
import ServerFrame.ByteArray.Positional
import ServerFrame.Lib.Numerals
import ServerFrame.Stream.Connection

namespace ServerFrame.Buffers

open Blocks CLib Streams

/-! ## Hexadecimal text -/

/-- What `toHexString` prints of a byte: two digits and a blank. -/
def hexByte (c : UInt8) : List UInt8 := List.leftpad 2 48 (numeral 16 c.toNat) ++ [32]

/-- What `toHexString` prints of a string, from its byte of number `i` on: a line end after every 32 bytes. -/
def hexText : Nat → List UInt8 → List UInt8
  | _, [] => []
  | i, c :: str => (if 0 < i ∧ i % 32 = 0 then [10] else []) ++ hexByte c ++ hexText (i + 1) str

/-- `ByteArray::toHexString()`. -/
def ByteArray.toHexString (s : ByteArray) : Except Fault (List UInt8) := s.toString.map (hexText 0)

/-! ## The server -/

namespace EchoServer

/-- What a turn prints of the byte array. -/
def text (type : Int) (ba : ByteArray) : Except Fault (List UInt8) := if type = 1 then ba.toString else ba.toHexString

/-- The `while` loop of `handleClient`, every turn of which receives at least one byte, with the memory that is
allocated in each: the connection, and what has been printed. -/
def handleLoop (type : Int) (memory : Nat → Nat → UInt8) :
    Nat → ByteArray → Connection → List UInt8 → Except Fault (Connection × List UInt8)
  | 0, _, client, cout => .ok (client, cout)
  | turns + 1, ba, client, cout => do
    let (_, iovs, ba) ← ba.clear.getWriteBuffers (memory turns) [] 1024
    let (received, session) := client.session.read (iovs.map IoVec.length).sum
    let client := { client with session }
    if received = [] then return (client, cout)
    let ba ← ByteArray.setPosition { ba with nodes := fill ba.nodes iovs received } (ba.position + received.length)
    let ba ← ba.setPosition 0
    let out ← text type ba
    let (_, buffers, ba) ← ba.getReadBuffers [] received.length
    let (moved, client) := client.write (gathered ba.nodes buffers)
    if moved.bytes = [] then return (client, cout ++ out)
    handleLoop type memory turns ba client (cout ++ out)

/-- `EchoServer::handleClient(client)`, over a new byte array of the default base size. -/
def handleClient (type : Int) (memory : Nat → Nat → UInt8) (turns : Nat) (client : Connection) :
    Except Fault (Connection × List UInt8) :=
  handleLoop type memory turns (ByteArray.init (memory turns) 4096) client []

/-! ## Without the byte array -/

/-- What is printed of the bytes of a turn. -/
def render (type : Int) (received : List UInt8) : List UInt8 := if type = 1 then received else hexText 0 received

/-- A server that reads up to 1024 bytes, prints them and writes them back, until one of the two fails. -/
def echo (type : Int) : Nat → Connection → List UInt8 → Connection × List UInt8
  | 0, client, cout => (client, cout)
  | turns + 1, client, cout =>
    let (received, session) := client.session.read 1024
    let client := { client with session }
    if received = [] then (client, cout)
    else
      let (moved, client) := client.write received
      if moved.bytes = [] then (client, cout ++ render type received)
      else echo type turns client (cout ++ render type received)

end EchoServer

/-! ## A turn -/

section Turn

variable {s : ByteArray}

/-- The buffers that `getWriteBuffers` returns hold what was asked for. -/
theorem sum_length_of_cells {vs : List IoVec} {b p n : Nat}
    (h : vs.flatMap IoVec.cells = (List.range n).map fun j => cell b (p + j)) : (vs.map IoVec.length).sum = n := by
  have hlength := congrArg List.length h
  rw [List.length_flatMap, List.length_map, List.length_range] at hlength
  rw [← hlength]
  congr 1
  exact List.map_congr_left fun v _ => length_cells.symm

theorem take_store_zero (l xs : List UInt8) : ((store l 0 xs).drop 0).take xs.length = xs := by
  rw [List.drop_zero, store, List.take_zero, List.nil_append, List.take_left]

/-- A cleared byte array gives buffers for `n` bytes. What is received into them is unread once the position has been
moved over it and back, and the buffers that are asked for then hold it. -/
theorem turn_spec (h : WF s) (memory : Nat → UInt8) {n : Nat} (hpos : 0 < n) (hn : n ≤ s.baseSize) :
    ∃ iovs t, s.clear.getWriteBuffers memory [] n = .ok (n, iovs, t) ∧ (iovs.map IoVec.length).sum = n ∧
      ∀ received : List UInt8, received ≠ [] → received.length ≤ n → ∃ u v buffers,
        ByteArray.setPosition { t with nodes := fill t.nodes iovs received } (t.position + received.length) = .ok u ∧
        u.setPosition 0 = .ok v ∧ v.toString = .ok received ∧
        v.getReadBuffers [] received.length = .ok (received.length, buffers, v) ∧
        gathered v.nodes buffers = received ∧ WF v ∧ v.baseSize = s.baseSize := by
  have hwf := (clear_spec h).1
  obtain ⟨iovs, hrun, -, hcells, hfill⟩ := getWriteBuffers_spec hwf memory [] hpos
  refine ⟨iovs, _, hrun, sum_length_of_cells hcells, fun received hne hle => ?_⟩
  have hlen := List.length_pos_iff.2 hne
  obtain ⟨u, hset, hu, hflat, hbase, -, hposition, hsize⟩ := setPosition_filled hwf memory hle (hfill received hle)
  obtain ⟨-, -, hkeep, -⟩ := addCapacity_spec hwf memory n
  obtain ⟨v, hback, hv, hvflat, hvbase, hvpos, hvsize, -⟩ := setPosition_spec hu (Nat.zero_le _)
  have hsize : v.size = received.length := by
    rw [hvsize, hsize]
    show max (max 0 (0 + received.length)) 0 = received.length
    omega
  have hunread : v.unread = received := by
    rw [ByteArray.unread, hvpos, hsize, hvflat, hflat]
    exact take_store_zero _ _
  have hcap := hv.size
  have hcut : min received.length (v.size - v.position) = received.length := by
    rw [hsize, hvpos]
    omega
  obtain ⟨buffers, hloop, hgathered⟩ := buffersLoop_gathers hv (p := v.position) (n := received.length) (by omega)
  refine ⟨u, v, buffers, ?_, hback, ?_, ?_, ?_, hv, ?_⟩
  · rw [hkeep]
    exact hset
  · rw [toString_eq hv, hunread]
  · have hg : Gathers v received.length := .inl (by rw [hvbase, hbase]; exact hle.trans hn)
    rw [getReadBuffers_eq hv [] (by omega), hcut, readBuffersLoop_eq hv (by omega) hg, hloop]
    rfl
  · rw [hgathered, hvpos, hvflat, hflat]
    exact take_store_zero _ _
  · rw [hvbase, hbase]
    rfl

end Turn

/-! ## The run -/

namespace EchoServer

theorem text_eq {v : ByteArray} {received : List UInt8} (h : v.toString = .ok received) (type : Int) :
    text type v = .ok (render type received) := by
  rw [text, render, ByteArray.toHexString, h]
  split <;> rfl

/-- What a read returns is not longer than what it asks for. -/
theorem length_read_le (s : Http.Session) (n : Nat) : (s.read n).1.length ≤ n := by
  unfold Http.Session.read
  split
  · exact Nat.zero_le n
  · split
    · exact Nat.zero_le n
    · exact List.length_take_le ..

/-- The loop over a byte array is the loop without one. -/
theorem handleLoop_eq (type : Int) (memory : Nat → Nat → UInt8) :
    ∀ (turns : Nat) {s : ByteArray} (client : Connection) (cout : List UInt8), WF s → 1024 ≤ s.baseSize →
      handleLoop type memory turns s client cout = .ok (echo type turns client cout)
  | 0, _, _, _, _, _ => rfl
  | turns + 1, s, client, cout, h, hbase => by
    obtain ⟨iovs, t, hrun, hsum, hturn⟩ := turn_spec h (memory turns) (show 0 < 1024 by decide) hbase
    have hle := length_read_le client.session 1024
    rw [handleLoop, echo, hrun]
    simp only [bind, Except.bind, hsum]
    generalize client.session.read 1024 = r at hle
    obtain ⟨received, session⟩ := r
    by_cases hnil : received = []
    · rw [if_pos hnil, if_pos hnil]
      rfl
    · obtain ⟨u, v, buffers, hset, hback, hstring, hbuffers, hgathered, hv, hvbase⟩ := hturn received hnil hle
      simp only [if_neg hnil, hset, hback, text_eq hstring, hbuffers, hgathered]
      split
      · rfl
      · exact handleLoop_eq type memory turns _ _ hv (hbase.trans_eq hvbase.symm)

/-- The echo server over any memory, of any client that it is connected to. -/
theorem handleClient_eq (type : Int) (memory : Nat → Nat → UInt8) (turns : Nat) (client : Connection) :
    handleClient type memory turns client = .ok (echo type turns client []) :=
  handleLoop_eq type memory turns client [] (init_wf _ (by decide)) (Nat.le_of_ble_eq_true rfl)

/-! ## What a client gets back -/

/-- The rounds of a run: what each received, and what of it was sent. -/
structure Rounds (client last : Connection) (rounds : List (List UInt8 × List UInt8)) : Prop where
  round : ∀ r ∈ rounds, r.1 ≠ [] ∧ r.1.length ≤ 1024 ∧ r.2 <+: r.1
  received : rounds.flatMap Prod.fst <+: client.session.available
  sent : last.sent = client.sent ++ rounds.flatMap Prod.snd

section Rounds

variable {client last : Connection} {received : List UInt8} {session : Http.Session}

theorem Rounds.nil (h : last.sent = client.sent) : Rounds client last [] :=
  ⟨by simp, List.nil_prefix, by simpa using h⟩

theorem Rounds.cons (hread : client.session.read 1024 = (received, session)) (hne : received ≠ [])
    {rounds : List (List UInt8 × List UInt8)} (h : Rounds ({ client with session }.write received).2 last rounds) :
    Rounds client last ((received, ({ client with session }.write received).1.bytes) :: rounds) := by
  have hle := length_read_le client.session 1024
  have hread' := client.session.read_available (show 0 < 1024 by decide)
  rw [hread] at hle hread'
  obtain ⟨-, havailable⟩ := hread'.resolve_left fun hnil => hne hnil.1
  obtain ⟨hround, hreceived, hsent⟩ := h
  obtain ⟨hbytes, hwritten, hsession⟩ := Connection.write_spec { client with session } received
  refine ⟨?_, ?_, ?_⟩
  · rintro r (_ | ⟨_, hr⟩)
    · exact ⟨hne, hle, hbytes⟩
    · exact hround r hr
  · rw [hsession] at hreceived
    rw [List.flatMap_cons, havailable]
    exact (List.prefix_append_right_inj received).2 hreceived
  · rw [hsent, hwritten, List.flatMap_cons, List.append_assoc]

/-- Every run of the loop is a sequence of rounds, which are printed. -/
theorem echo_rounds (type : Int) : ∀ (turns : Nat) (client : Connection) (cout : List UInt8),
    ∃ rounds, Rounds client (echo type turns client cout).1 rounds ∧
      (echo type turns client cout).2 = cout ++ rounds.flatMap fun r => render type r.1
  | 0, client, cout => ⟨[], .nil rfl, (List.append_nil _).symm⟩
  | turns + 1, client, cout => by
    rw [echo]
    generalize hread : client.session.read 1024 = r
    obtain ⟨received, session⟩ := r
    dsimp only
    by_cases hnil : received = []
    · rw [if_pos hnil]
      exact ⟨[], .nil rfl, (List.append_nil _).symm⟩
    · rw [if_neg hnil]
      split
      · exact ⟨_, .cons hread hnil (.nil rfl), by simp⟩
      · obtain ⟨rounds, hrounds, hcout⟩ := echo_rounds type turns ({ client with session }.write received).2
          (cout ++ render type received)
        refine ⟨_, .cons hread hnil hrounds, ?_⟩
        rw [hcout, List.append_assoc]
        rfl

/-- Each call of `send` takes a whole round, and there are calls and turns for all that arrives. -/
structure Willing (client : Connection) (turns : Nat) : Prop where
  sends : ∀ n ∈ client.sends, 1024 ≤ n
  enough : client.session.available.length ≤ client.sends.length
  turns : client.session.available.length < turns

theorem connected_of_read (hread : client.session.read 1024 = (received, session)) (hne : received ≠ []) :
    session.connected = true := by
  rw [show session = (client.session.read 1024).2 by rw [hread], (client.session.read_flatten 1024).2]
  by_contra hclosed
  rw [Http.Session.read, if_pos (by simpa using hclosed)] at hread
  exact hne (congrArg Prod.fst hread).symm

/-- A round of such a client, which leaves it as willing for one turn less. -/
theorem Willing.round {turns : Nat} (h : Willing client (turns + 1))
    (hread : client.session.read 1024 = (received, session)) (hne : received ≠ []) :
    client.session.available = received ++ session.available ∧
      ({ client with session }.write received).1.bytes = received ∧
      Willing ({ client with session }.write received).2 turns := by
  have hle := length_read_le client.session 1024
  have hread' := client.session.read_available (show 0 < 1024 by decide)
  rw [hread] at hle hread'
  dsimp only at hle
  obtain ⟨-, havailable⟩ := hread'.resolve_left fun hnil => hne hnil.1
  have hlength : client.session.available.length = received.length + session.available.length := by
    rw [havailable, List.length_append]
  have hpos := List.length_pos_iff.2 hne
  have henough := h.enough
  have hturns := h.turns
  obtain ⟨n, sends, hsends⟩ : ∃ n sends, client.sends = n :: sends :=
    List.exists_cons_of_length_pos (by omega)
  have hn := h.sends n (hsends ▸ List.mem_cons_self)
  rw [hsends, List.length_cons] at henough
  rw [Connection.write_whole (c := { client with session }) (connected_of_read hread hne) hsends hne
    (by omega) (by omega)]
  refine ⟨havailable, rfl, fun m hm => h.sends m (hsends ▸ List.mem_cons_of_mem _ hm), ?_, ?_⟩
  · dsimp only
    omega
  · dsimp only
    omega

theorem echo_of_willing (type : Int) : ∀ (turns : Nat) (client : Connection) (cout : List UInt8), Willing client turns →
    (echo type turns client cout).1.sent = client.sent ++ client.session.available
  | 0, client, cout, h => absurd h.turns (Nat.not_lt_zero _)
  | turns + 1, client, cout, h => by
    rw [echo]
    generalize hread : client.session.read 1024 = r
    obtain ⟨received, session⟩ := r
    dsimp only
    by_cases hnil : received = []
    · have hread' := client.session.read_available (show 0 < 1024 by decide)
      rw [hread] at hread'
      obtain ⟨-, havailable⟩ := hread'.resolve_right fun hne => hne.1 hnil
      rw [if_pos hnil, havailable, List.append_nil]
    · obtain ⟨havailable, hbytes, hwilling⟩ := h.round hread hnil
      obtain ⟨-, hwritten, hsession⟩ := Connection.write_spec { client with session } received
      rw [if_neg hnil, if_neg (by rw [hbytes]; exact hnil), echo_of_willing type turns _ _ hwilling, hwritten, hsession,
        hbytes, havailable, List.append_assoc]

end Rounds

/-- Over any memory the server prints what it receives, round by round, and of each round sends back a beginning; to a
client that takes whole rounds it sends back everything. -/
theorem handleClient_echoes (type : Int) (memory : Nat → Nat → UInt8) (turns : Nat) (client : Connection) :
    ∃ last rounds, handleClient type memory turns client = .ok (last, rounds.flatMap fun r => render type r.1) ∧
      Rounds client last rounds ∧
      (Willing client turns → last.sent = client.sent ++ client.session.available) := by
  obtain ⟨rounds, hrounds, hcout⟩ := echo_rounds type turns client []
  refine ⟨_, rounds, ?_, hrounds, echo_of_willing type turns client []⟩
  rw [handleClient_eq]
  exact congrArg Except.ok (Prod.ext rfl hcout)

theorem handleClient_echoes_pieces : ∃ last out,
    handleClient 1 (fun _ _ => 0) 4 { session := { input := [[104, 105], [33]] }, sends := [1024, 2048, 1024] } =
      .ok (last, out) ∧ last.sent = [104, 105, 33] :=
  have hwilling : Willing { session := { input := [[104, 105], [33]] }, sends := [1024, 2048, 1024] } 4 :=
    ⟨by decide, by decide, by decide⟩
  have ⟨last, _, hrun, _, hsent⟩ := handleClient_echoes 1 (fun _ _ => 0) 4
    { session := { input := [[104, 105], [33]] }, sends := [1024, 2048, 1024] }
  ⟨last, _, hrun, hsent hwilling⟩

end EchoServer

end ServerFrame.Buffers
