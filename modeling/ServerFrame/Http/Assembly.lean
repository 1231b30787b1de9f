/-
What `recvRequest` and `recvResponse` make of a body of a given length. Behind a header that the first loop of
`recvResponse` does not take for the end, the loop goes on with what should be the body: no byte is read twice, so what
it returns then is no longer the body.
-/
import ServerFrame.Http.BodyLimit

namespace ServerFrame.Http

open Ragel

namespace HttpConnection

/-! ## No byte is read twice -/

section Consumed

variable {buffSize turns len len' n : Nat} {h h' : HttpResponseParser} {data data' : Nat → UInt8}
  {body body' : List UInt8} {s s' : Session}

theorem exec_ge {buffer : Nat → UInt8} {pe n p p' : Nat} {cs cs' : State ClientAction}
    (hexec : HttpResponseParser.exec buffer pe n p cs h = .ok (h', cs', p')) : p ≤ p' := by
  induction n generalizing p cs h with
  | zero =>
    cases hexec
    exact le_rfl
  | succ n ih =>
    rw [HttpResponseParser.exec] at hexec
    split at hexec
    · cases hexec
      exact le_rfl
    · split at hexec
      · cases hexec
      · cases hexec
        exact Nat.le_succ p
      · exact Nat.le_of_succ_le (ih hexec)

theorem exec_gt {buffer : Nat → UInt8} {pe n p p' : Nat} {cs cs' : State ClientAction} (hn : 0 < n)
    (hexec : HttpResponseParser.exec buffer pe n p cs h = .ok (h', cs', p')) : cs' = [] ∨ p < p' := by
  obtain ⟨n, rfl⟩ := Nat.exists_eq_succ_of_ne_zero hn.ne'
  rw [HttpResponseParser.exec] at hexec
  split at hexec
  · cases hexec
    exact .inl rfl
  · split at hexec
    · cases hexec
    · cases hexec
      exact .inr (Nat.lt_succ_self p)
    · exact .inr (exec_ge hexec)

/-- A call that finds no error has consumed a byte. -/
theorem execute_pos (hlen : 0 < len) {chunck : Bool} (hex : h.execute data len chunck = .ok (h', data', n))
    (herror : ¬ h'.hasError = true) : 0 < n := by
  obtain ⟨-, -, -, -, h₁, cs, hexec, rfl⟩ := HttpResponseParser.execute_ok hex
  rcases exec_gt hlen hexec with rfl | hpos
  · exact absurd (Bool.or_true _) herror
  · exact hpos

theorem neg_le_toInt (n : Int) : -2 ^ 31 ≤ n.bmod (2 ^ 32) := Int.le_bmod (Nat.two_pow_pos 32)

/-- The size of a chunk is an `int`. -/
theorem execute_contentLen (hex : h.execute data len true = .ok (h', data', n)) :
    -2 ^ 31 ≤ h'.parser.contentLen := by
  obtain ⟨-, -, -, -, h₁, cs, hexec, rfl⟩ := HttpResponseParser.execute_ok hex
  have hstart : (-2 ^ 31 : Int) ≤ -1 := by decide
  have hkept := exec_keeps (P := fun g => -2 ^ 31 ≤ g.parser.contentLen) (fun {g g' fpc a} hact hp => ?_) hexec hstart
  · exact hkept
  · cases a with
    | writeContentLen | chunkSize =>
      cases hact
      exact neg_le_toInt _
    | writeValue =>
      rw [HttpResponseParser.act, HttpResponseParser.onResponseHttpField] at hact
      split at hact
      · cases hact
        exact hp
      · obtain ⟨key, -, hact⟩ := Except.bind_eq_ok hact
        obtain ⟨val, -, hact⟩ := Except.bind_eq_ok hact
        cases hact
        exact hp
    | reasonPhrase =>
      obtain ⟨reason, -, hact⟩ := Except.bind_eq_ok hact
      cases hact
      exact hp
    | httpVersion =>
      rw [HttpResponseParser.act, Except.ok.injEq, HttpResponseParser.onResponseVersion] at hact
      simp only at hact
      split at hact
      · exact hact ▸ hp
      · split at hact <;> exact hact ▸ hp
    | _ =>
      cases hact
      exact hp

/-- What the first loop leaves is less than it found. -/
theorem recvLoop_length (hloop : recvLoop buffSize turns h data len s = .ok (some (h', data', len'), s')) :
    len' + s'.input.flatten.length < len + s.input.flatten.length ∧
      s'.input.flatten.length < s.input.flatten.length ∧ h'.data.body = h.data.body := by
  induction turns generalizing h data len s with
  | zero => cases hloop
  | succ turns ih =>
    rw [recvLoop] at hloop
    split at hloop
    · cases hloop
    · rename_i hpiece
      have hread := length_read (n := buffSize - len) s
      have hpos := List.length_pos_iff.2 hpiece
      dsimp only at hloop
      split at hloop
      · cases hloop
      · rename_i hex
        split at hloop
        · cases hloop
        · rename_i herror
          have hn := execute_pos (by omega) hex herror
          have hbody := execute_body hex
          split at hloop
          · cases hloop
          · split at hloop
            · cases hloop
              exact ⟨by omega, by omega, hbody⟩
            · obtain ⟨hlt, hless, hb⟩ := ih hloop
              exact ⟨by omega, by omega, hb.trans hbody⟩

theorem sizeLoop_length {begin : Bool}
    (hloop : sizeLoop buffSize turns begin h data len s = .ok (some (h', data', len'), s')) :
    len' + s'.input.flatten.length ≤ len + s.input.flatten.length ∧
      s'.input.flatten.length ≤ s.input.flatten.length := by
  induction turns generalizing begin h data len s with
  | zero => cases hloop
  | succ turns ih =>
    have hread : (if (!begin || len == 0) = true then (s.read (buffSize - len)).1 else []).length +
        (if (!begin || len == 0) = true then (s.read (buffSize - len)).2 else s).input.flatten.length =
          s.input.flatten.length := by
      split
      · exact (length_read s).symm
      · exact Nat.zero_add _
    rw [sizeLoop] at hloop
    dsimp only at hloop
    generalize (if (!begin || len == 0) = true then (s.read (buffSize - len)).1 else []) = piece at hloop hread
    generalize (if (!begin || len == 0) = true then (s.read (buffSize - len)).2 else s) = s₁ at hloop hread
    split at hloop
    · cases hloop
    · split at hloop
      · cases hloop
      · split at hloop
        · cases hloop
        · split at hloop
          · cases hloop
          · split at hloop
            · cases hloop
              omega
            · have := ih hloop
              omega

theorem payloadLoop_length {left : Int}
    (hloop : payloadLoop buffSize turns left data body s = (some (data', body'), s')) :
    body'.length + s'.input.flatten.length = body.length + s.input.flatten.length ∧
      s'.input.flatten.length ≤ s.input.flatten.length := by
  induction turns generalizing left data body s with
  | zero => cases hloop
  | succ turns ih =>
    rw [payloadLoop] at hloop
    split at hloop
    · cases hloop
      exact ⟨rfl, le_rfl⟩
    · dsimp only at hloop
      generalize sizeT (if left > toInt buffSize then toInt buffSize else left) = count at hloop
      have hread := length_read (n := count) s
      generalize s.read count = r at hloop hread
      obtain ⟨_ | ⟨c, piece⟩, s₁⟩ := r
      · cases hloop
      · have := ih hloop
        rw [List.length_append] at this
        dsimp only at hread
        omega

/-- A chunk takes its bytes out of the buffer and the stream. -/
theorem chunk_consumed {c : Int} (hc : -2 ^ 31 ≤ c)
    (hrun : chunk buffSize c data len body s = .ok (some (data', len', body'), s')) :
    body'.length + len' + s'.input.flatten.length ≤ body.length + len + s.input.flatten.length ∧
      s'.input.flatten.length ≤ s.input.flatten.length := by
  rw [chunk] at hrun
  split at hrun
  · cases hrun
  · split at hrun
    · split at hrun
      · cases hrun
      · rename_i hpayload
        cases hrun
        rw [mkString] at hpayload
        split at hpayload
        · rename_i hall hlt
          cases hpayload
          have hsize : sizeT c = c.toNat := by
            refine sizeT_of_nonneg ?_ (by omega)
            by_contra hneg
            rw [sizeT] at hlt
            omega
          rw [List.length_append, length_slice, hsize]
          omega
        · cases hpayload
    · dsimp only at hrun
      split at hrun
      · cases hrun
      · rename_i hloop
        have hlen := payloadLoop_length hloop
        rw [List.length_append, length_slice] at hlen
        split at hrun
        · cases hrun
        · cases hrun
          rw [List.length_take]
          omega

theorem chunkLoop_consumed (hloop : chunkLoop buffSize turns h data len body s = .ok (some (h', body'), s')) :
    body'.length + s'.input.flatten.length ≤ body.length + len + s.input.flatten.length ∧
      s'.input.flatten.length ≤ s.input.flatten.length := by
  induction turns generalizing h data len body s with
  | zero => cases hloop
  | succ turns ih =>
    rw [chunkLoop] at hloop
    split at hloop
    · cases hloop
    · cases hloop
    · rename_i hsize
      have hline := sizeLoop_length hsize
      obtain ⟨_, _, _, _, -, hex, -⟩ := sizeLoop_execute (P := fun _ => True) (fun _ _ => trivial) trivial hsize
      split at hloop
      · cases hloop
      · cases hloop
      · rename_i hchunk
        have htaken := chunk_consumed (execute_contentLen hex) hchunk
        split at hloop
        · cases hloop
          omega
        · have := ih hloop
          omega

theorem readLoop_length {left : Nat} {buffer rest : List UInt8}
    (hloop : s.readLoop turns left buffer = (some rest, s')) :
    rest.length + s'.input.flatten.length = buffer.length + s.input.flatten.length ∧
      s'.input.flatten.length ≤ s.input.flatten.length := by
  induction turns generalizing s left buffer with
  | zero => cases hloop
  | succ turns ih =>
    rw [Session.readLoop] at hloop
    split at hloop
    · cases hloop
      exact ⟨rfl, le_rfl⟩
    · have hread := length_read (n := left) s
      generalize s.read left = r at hloop hread
      obtain ⟨_ | ⟨c, piece⟩, s₁⟩ := r
      · cases hloop
      · have := ih hloop
        rw [List.length_append] at this
        dsimp only at hread
        omega

theorem readFixSize_length {rest : List UInt8} (hread : s.readFixSize n = (some rest, s')) :
    rest.length + s'.input.flatten.length = s.input.flatten.length ∧
      s'.input.flatten.length ≤ s.input.flatten.length := by
  rw [Session.readFixSize] at hread
  split at hread
  · cases hread
  · rename_i hloop
    split at hread
    · cases hread
    · cases hread
      simpa using readLoop_length hloop

theorem recvBody_consumed {cast : List UInt8 → Option UInt64} {m : HttpResponse} (hbody : h.data.body = [])
    (hrun : recvBody cast h data len s = (some m, s')) :
    m.body.length + s'.input.flatten.length ≤ len + s.input.flatten.length ∧
      s'.input.flatten.length ≤ s.input.flatten.length := by
  rw [recvBody] at hrun
  split at hrun
  · split at hrun
    · cases hrun
      rw [body_withBody hbody, length_slice]
      omega
    · split at hrun
      · cases hrun
      · rename_i hread
        cases hrun
        have hrest := readFixSize_length hread
        rw [body_withBody hbody, List.length_append, length_slice]
        omega
  · cases hrun
    rw [body_withBody hbody]
    exact ⟨Nat.add_le_add_right (Nat.zero_le _) _, le_rfl⟩

/-- A response has no more in its body than the buffer and the stream held. -/
theorem answer_consumed {env : Env} {m : HttpResponse} (hbody : h.data.body = [])
    (hrun : answer env (.ok (some (h, data, len), s)) = .ok (some m, s')) :
    m.body.length + s'.input.flatten.length ≤ len + s.input.flatten.length ∧
      s'.input.flatten.length ≤ s.input.flatten.length := by
  rw [answer] at hrun
  split at hrun
  · split at hrun
    · cases hrun
    · cases hrun
    · rename_i hloop
      cases hrun
      have hchunks := chunkLoop_consumed hloop
      rw [body_withBody ((chunkLoop_body hloop).trans hbody)]
      rw [List.length_nil] at hchunks
      omega
  · exact recvBody_consumed hbody (Except.ok.inj hrun)

end Consumed

end HttpConnection

/-! ## The body -/

section Body

variable {env : HttpConnection.Env} {parser : HttpResponseParser} {data : Nat → UInt8} {offset n : Nat} {s : Session}

/-- From the end of the header on, the body is put together as it should be. -/
def Continues (env : HttpConnection.Env) (parser : HttpResponseParser) (data : Nat → UInt8) (offset n : Nat)
    (s : Session) : Prop :=
  ∃ r, HttpConnection.fromHeader env parser data offset s = .ok r ∧
    Assembled (slice data 0 offset) s n (fun body => { parser.data with body }) r

theorem continues_of_finished (hchunked : parser.parser.chunked = false)
    (hn : (parser.getContentLength env.cast).toNat = n) (hpos : 0 < n) (h63 : n < 2 ^ 63) (h31 : n - offset < 2 ^ 31)
    (hfin : parser.isFinished = true) : Continues env parser data offset n s := by
  refine ⟨_, ?_, HttpConnection.recvBody_assembled hn hpos h63 h31⟩
  rw [HttpConnection.fromHeader, if_pos hfin, HttpConnection.answer]
  exact if_neg (by rw [hchunked]; exact Bool.false_ne_true)

/-- A loop that reads on takes a byte of the body for the header, and one from the stream. -/
theorem not_continues (hbody : parser.data.body = []) (hfin : ¬ parser.isFinished = true)
    (hlen : n ≤ (slice data 0 offset ++ s.available).length) : ¬ Continues env parser data offset n s := by
  rintro ⟨r, hrun, hassembled⟩
  obtain ⟨hsome, htook⟩ := hassembled.whole hlen
  have htaken := congrArg List.length htook.flatten
  rw [length_slice, List.length_drop] at htaken
  rw [HttpConnection.fromHeader, if_neg hfin] at hrun
  obtain ⟨m, t⟩ := r
  dsimp only at hsome htaken
  subst hsome
  rcases hloop : HttpConnection.recvLoop env.bufferSize (s.input.flatten.length + 1) parser data offset s with
    f | ⟨_ | ⟨parser', data', offset'⟩, s'⟩
  · rw [hloop] at hrun
    cases hrun
  · rw [hloop] at hrun
    cases hrun
  · obtain ⟨hlt, hless, hb⟩ := HttpConnection.recvLoop_length hloop
    rw [hloop] at hrun
    obtain ⟨hconsumed, hle⟩ := HttpConnection.answer_consumed (hb.trans hbody) hrun
    rw [List.length_take, Nat.min_eq_left hlen] at hconsumed
    omega

end Body

/-- Whatever is buffered when the header has been parsed and whatever pieces the rest comes in, `recvRequest` returns a
request whose body is as long as the header says and is what follows the header in the stream, read no further, and
returns `nullptr` exactly when the stream gives less. For a response that is not in chunks, `recvResponse` does so
where its header ends in the first final state, and for no stream that has the body where it does not. -/
theorem body_assembled (s s' : Session) (data : Nat → UInt8) (offset n : Nat) (hpos : 0 < n) (h63 : n < 2 ^ 63)
    (h31 : n - offset < 2 ^ 31) :
    (∀ (env : Env) (parser : HttpRequestParser),
      HttpSession.recvLoop env.bufferSize (s.input.flatten.length + 1) env.object.new env.memory 0 s =
        .ok (some (parser, data, offset), s') → (parser.getContentLength env.cast).toNat = n →
      slice data 0 offset ++ s'.input.flatten <:+ s.input.flatten ∧ ∃ r, HttpSession.recvRequest env s = .ok r ∧
        Assembled (slice data 0 offset) s' n (fun body => { parser.data with body }) r) ∧
    (∀ (env : HttpConnection.Env) (parser : HttpResponseParser),
      HttpConnection.headerLoop env.bufferSize (s.input.flatten.length + 1) env.object.new env.memory 0 s =
        some (parser, data, offset, s') → parser.parser.chunked = false →
      (parser.getContentLength env.cast).toNat = n →
      slice data 0 offset ++ s'.input.flatten <:+ s.input.flatten ∧
      HttpConnection.recvResponse env s = HttpConnection.fromHeader env parser data offset s' ∧
      (firstFinal parser.parser.cs = true → ∀ t, Continues env parser data offset n t) ∧
      ∀ t, n ≤ (slice data 0 offset ++ t.available).length →
        (Continues env parser data offset n t ↔ firstFinal parser.parser.cs = true)) := by
  constructor
  · intro env parser hloop hn
    refine ⟨HttpSession.recvLoop_suffix hloop, _, ?_, HttpSession.recvBody_assembled hn hpos h63 h31⟩
    rw [HttpSession.recvRequest, hloop]
  · intro env parser hend hchunked hn
    obtain ⟨hsuffix, hbody⟩ := HttpConnection.headerLoop_spec hend
    have hfinished : parser.isFinished = true → ∀ t, Continues env parser data offset n t :=
      fun hfin _ => continues_of_finished hchunked hn hpos h63 h31 hfin
    refine ⟨hsuffix, HttpConnection.recvResponse_headerLoop hend, hfinished, fun t hlen => ⟨fun hcont => ?_,
      fun hfin => hfinished hfin t⟩⟩
    by_contra hfin
    exact not_continues hbody hfin hlen hcont

section Pieces

set_option maxRecDepth 100000

/-- Of two bytes of a body one comes with the header. -/
theorem body_assembled_pieces :
    (∃ data s' r, HttpSession.recvRequest server
        { input := [bytes "POST / HTTP/1.1\r\ncontent-length: 2\r\n\r\nh", bytes "ix"] } = .ok r ∧
      Assembled (slice data 0 1) s' 2
        (fun body => { method := .post, path := bytes "/", headers := [(bytes "content-length", bytes "2")], body })
          r) ∧
    ∃ data s' r, HttpConnection.recvResponse client
        { input := [bytes "HTTP/1.1 200 OK\r\ncontent-length: 2\r\n\r\nh", bytes "ix"] } = .ok r ∧
      Assembled (slice data 0 1) s' 2
        (fun body => { reason := bytes "OK", headers := [(bytes "content-length", bytes "2")], body }) r := by
  constructor
  · let s : Session := { input := [bytes "POST / HTTP/1.1\r\ncontent-length: 2\r\n\r\nh", bytes "ix"] }
    have hrun : (HttpSession.recvLoop 64 (s.input.flatten.length + 1) server.object.new (fun _ => 0) 0 s).toOption.bind
        (fun p => p.1.map fun q => (q.1.data, q.2.2, (q.1.getContentLength server.cast).toNat)) =
        some ({ method := .post, path := bytes "/", headers := [(bytes "content-length", bytes "2")] }, 1, 2) := by
      decide
    obtain ⟨⟨parser, data, offset⟩, s', hloop, heq⟩ := exists_of_toOption hrun
    simp only [Prod.mk.injEq] at heq
    obtain ⟨hdata, rfl, hn⟩ := heq
    obtain ⟨-, r, hr, hbody⟩ :=
      (body_assembled s s' data 1 2 (by decide) (by decide) (by decide)).1 server parser hloop hn
    rw [hdata] at hbody
    exact ⟨data, s', r, hr, hbody⟩
  · let s : Session := { input := [bytes "HTTP/1.1 200 OK\r\ncontent-length: 2\r\n\r\nh", bytes "ix"] }
    have hrun : (HttpConnection.headerLoop 64 (s.input.flatten.length + 1) client.object.new (fun _ => 0) 0 s).map
        (fun q => (q.1.data, q.2.2.1, q.1.parser.chunked, (q.1.getContentLength client.cast).toNat,
          firstFinal q.1.parser.cs)) =
        some ({ reason := bytes "OK", headers := [(bytes "content-length", bytes "2")] }, 1, false, 2, true) := by
      decide
    obtain ⟨⟨parser, data, offset, s'⟩, hloop, heq⟩ := Option.map_eq_some_iff.1 hrun
    simp only [Prod.mk.injEq] at heq
    obtain ⟨hdata, rfl, hchunked, hn, hfin⟩ := heq
    obtain ⟨-, hresponse, hbody, -⟩ :=
      (body_assembled s s' data 1 2 (by decide) (by decide) (by decide)).2 client parser hloop hchunked hn
    obtain ⟨r, hr, hassembled⟩ := hbody hfin s'
    rw [hdata] at hassembled
    exact ⟨data, s', r, hresponse.trans hr, hassembled⟩

/-- Behind a `Connection:` without a value the header ends in another final state, and no response is returned although
all of its body is in the buffer. -/
theorem blank_connection_refused : ¬ ∀ (env : HttpConnection.Env) (s s' : Session) (parser : HttpResponseParser)
    (data : Nat → UInt8) (offset n : Nat),
    HttpConnection.headerLoop env.bufferSize (s.input.flatten.length + 1) env.object.new env.memory 0 s =
      some (parser, data, offset, s') → parser.parser.chunked = false →
    (parser.getContentLength env.cast).toNat = n → 0 < n → n < 2 ^ 63 → n - offset < 2 ^ 31 →
    ∃ r, HttpConnection.recvResponse env s = .ok r ∧
      Assembled (slice data 0 offset) s' n (fun body => { parser.data with body }) r := by
  intro hall
  let s : Session := { input := [bytes "HTTP/1.1 200 OK\r\ncontent-length: 2\r\nConnection:\r\n\r\nhi"] }
  have hrun : (HttpConnection.headerLoop 64 (s.input.flatten.length + 1) client.object.new (fun _ => 0) 0 s).map
      (fun q => (q.2.2.1, q.1.parser.chunked, (q.1.getContentLength client.cast).toNat, q.2.2.2)) =
      some (2, false, 2, { input := [] }) := by
    decide
  have hnull : (HttpConnection.recvResponse client s).toOption.map (fun r => r.1) = some none := by decide
  obtain ⟨⟨parser, data, offset, s'⟩, hloop, heq⟩ := Option.map_eq_some_iff.1 hrun
  simp only [Prod.mk.injEq] at heq
  obtain ⟨rfl, hchunked, hn, rfl⟩ := heq
  obtain ⟨r, hr, hassembled⟩ := hall client s _ parser data 2 2 hloop hchunked hn (by decide) (by decide) (by decide)
  obtain ⟨hsome, -⟩ := hassembled.whole (by rw [List.length_append, length_slice]; exact Nat.le_add_right _ _)
  rw [hr, Except.toOption, Option.map_some, hsome] at hnull
  cases hnull

end Pieces

end ServerFrame.Http
