/-
Where the header of a response ends, and what `recvResponse` does from there. A header is over when the machine comes to
a final state, which the first loop takes for its end only if it is the first of these: behind a `Connection:`, a
`Content-Length:` or a `Transfer-Encoding:` with nothing but blanks it is another one, and the loop reads on.
-/
import ServerFrame.Http.Body

namespace ServerFrame.Http

open Ragel

/-! ## What a run keeps -/

/-- No action touches the body of the response. -/
theorem act_body {h h' : HttpResponseParser} {buffer : Nat → UInt8} {pe fpc : Nat} {a : ClientAction}
    (hact : h.act buffer pe fpc a = .ok h') : h'.data.body = h.data.body := by
  cases a with
  | writeValue =>
    rw [HttpResponseParser.act, HttpResponseParser.onResponseHttpField] at hact
    split at hact
    · cases hact
      rfl
    · obtain ⟨key, -, hact⟩ := Except.bind_eq_ok hact
      obtain ⟨val, -, hact⟩ := Except.bind_eq_ok hact
      cases hact
      rfl
  | reasonPhrase =>
    obtain ⟨reason, -, hact⟩ := Except.bind_eq_ok hact
    cases hact
    rfl
  | httpVersion =>
    rw [HttpResponseParser.act, Except.ok.injEq] at hact
    rw [← hact, HttpResponseParser.onResponseVersion]
    simp only
    split
    · rfl
    · split <;> rfl
  | _ =>
    cases hact
    rfl

/-- What every action keeps of the parser, a run of the machine keeps. -/
theorem acts_keeps {P : HttpResponseParser → Prop} {buffer : Nat → UInt8} {pe : Nat}
    (hkeep : ∀ {h h' : HttpResponseParser} {fpc : Nat} {a : ClientAction}, h.act buffer pe fpc a = .ok h' → P h → P h')
    {fpc : Nat} {as : List ClientAction} {h h' : HttpResponseParser} {b : Bool}
    (hacts : h.acts buffer pe fpc as = .ok (h', b)) (hp : P h) : P h' := by
  induction as generalizing h with
  | nil =>
    cases hacts
    exact hp
  | cons a as ih =>
    rw [HttpResponseParser.acts] at hacts
    split at hacts
    · cases hacts
    · rename_i hact
      split at hacts
      · cases hacts
        exact hkeep hact hp
      · exact ih hacts (hkeep hact hp)

theorem exec_keeps {P : HttpResponseParser → Prop} {buffer : Nat → UInt8} {pe : Nat}
    (hkeep : ∀ {h h' : HttpResponseParser} {fpc : Nat} {a : ClientAction}, h.act buffer pe fpc a = .ok h' → P h → P h')
    {n p p' : Nat} {cs cs' : State ClientAction} {h h' : HttpResponseParser}
    (hexec : HttpResponseParser.exec buffer pe n p cs h = .ok (h', cs', p')) (hp : P h) : P h' := by
  induction n generalizing p cs h with
  | zero =>
    cases hexec
    exact hp
  | succ n ih =>
    rw [HttpResponseParser.exec] at hexec
    split at hexec
    · cases hexec
      exact hp
    · split at hexec
      · cases hexec
      · rename_i hacts
        cases hexec
        exact acts_keeps hkeep hacts hp
      · rename_i hacts
        exact ih hexec (acts_keeps hkeep hacts hp)

theorem execute_body {data data' : Nat → UInt8} {len n : Nat} {chunck : Bool} {h h' : HttpResponseParser}
    (hex : h.execute data len chunck = .ok (h', data', n)) : h'.data.body = h.data.body := by
  obtain ⟨-, -, -, -, h₁, cs, hexec, rfl⟩ := HttpResponseParser.execute_ok hex
  have hbody := exec_keeps (P := fun g => g.data.body = h.data.body) (fun hact hp => (act_body hact).trans hp) hexec rfl
  exact hbody

namespace HttpConnection

/-! ## The end of the header -/

/-- The first loop up to the turn after which the machine is in a final state, if it comes to one. -/
def headerLoop (buffSize : Nat) : Nat → HttpResponseParser → (Nat → UInt8) → Nat → Session →
    Option (HttpResponseParser × (Nat → UInt8) × Nat × Session)
  | 0, _, _, _, _ => none
  | turns + 1, parser, data, offset, s =>
    let piece := (s.read (buffSize - offset)).1
    let s := (s.read (buffSize - offset)).2
    if piece = [] then none
    else
      let len := offset + piece.length
      match parser.execute (fill data offset piece) len false with
      | .error _ => none
      | .ok (parser, data, nparse) =>
        if parser.hasError then none
        else
          let offset := len - nparse
          if (offset : Int) = toInt buffSize then none
          else if parser.parser.cs.final then some (parser, data, offset, s)
          else headerLoop buffSize turns parser data offset s

/-- What `recvResponse` makes of its first loop. -/
def answer (env : Env) (loop : Except ClientFault (Option (HttpResponseParser × (Nat → UInt8) × Nat) × Session)) :
    Except ClientFault (Option HttpResponse × Session) :=
  match loop with
  | .error f => .error f
  | .ok (none, s) => .ok (none, s)
  | .ok (some (parser, data, offset), s) =>
    if parser.parser.chunked then
      match chunkLoop env.bufferSize (offset + s.input.flatten.length + 1) parser data offset [] s with
      | .error f => .error f
      | .ok (none, s) => .ok (none, s)
      | .ok (some (parser, body), s) => .ok (some (withBody parser.data body), s)
    else .ok (recvBody env.cast parser data offset s)

/-- What `recvResponse` does from the end of the header on: it leaves the first loop, or goes on with it. -/
def fromHeader (env : Env) (parser : HttpResponseParser) (data : Nat → UInt8) (offset : Nat) (s : Session) :
    Except ClientFault (Option HttpResponse × Session) :=
  answer env <|
    if parser.isFinished then .ok (some (parser, data, offset), s)
    else recvLoop env.bufferSize (s.input.flatten.length + 1) parser data offset s

theorem recvResponse_eq (env : Env) (s : Session) : recvResponse env s =
    answer env (recvLoop env.bufferSize (s.input.flatten.length + 1) env.object.new env.memory 0 s) := rfl

section Loop

variable {buffSize turns turns' offset offset' n : Nat} {h h' : HttpResponseParser} {data data' : Nat → UInt8}
  {s s' : Session}

theorem length_read {n : Nat} (s : Session) :
    s.input.flatten.length = (s.read n).1.length + (s.read n).2.input.flatten.length := by
  rw [← List.length_append, ← (Session.read_flatten s n).1]

/-- Every turn reads a byte, so any number of turns above what is to come is as good as another. -/
theorem recvLoop_turns (hturns : s.input.flatten.length < turns) (hturns' : s.input.flatten.length < turns') :
    recvLoop buffSize turns h data offset s = recvLoop buffSize turns' h data offset s := by
  induction turns generalizing turns' h data offset s with
  | zero => cases hturns
  | succ turns ih =>
    obtain ⟨turns', rfl⟩ := Nat.exists_eq_add_of_lt hturns'
    rw [recvLoop, recvLoop]
    split
    · rfl
    · rename_i hpiece
      have hread := length_read (n := buffSize - offset) s
      have hpos := List.length_pos_iff.2 hpiece
      dsimp only
      split
      · rfl
      · split
        · rfl
        · split
          · rfl
          · split
            · rfl
            · exact ih (by omega) (by omega)

/-- A machine that has finished is in a final state. -/
theorem final_of_isFinished (hfin : h.isFinished = true) : h.parser.cs.final = true := by
  rw [HttpResponseParser.isFinished, ClientParser.isFinished, firstFinal, Bool.and_eq_true] at hfin
  exact hfin.1

theorem recvLoop_headerLoop (hturns : s.input.flatten.length < turns)
    (hend : headerLoop buffSize turns h data offset s = some (h', data', offset', s')) :
    recvLoop buffSize turns h data offset s =
      if h'.isFinished then .ok (some (h', data', offset'), s')
      else recvLoop buffSize (s'.input.flatten.length + 1) h' data' offset' s' := by
  induction turns generalizing h data offset s with
  | zero => cases hend
  | succ turns ih =>
    rw [headerLoop] at hend
    rw [recvLoop]
    split at hend
    · cases hend
    · rename_i hpiece
      have hread := length_read (n := buffSize - offset) s
      have hpos := List.length_pos_iff.2 hpiece
      rw [if_neg hpiece]
      dsimp only at hend ⊢
      rcases hex : h.execute (fill data offset (s.read (buffSize - offset)).1)
        (offset + (s.read (buffSize - offset)).1.length) false with _ | ⟨_, _, _⟩
      · simp only [hex] at hend
        cases hend
      · simp only [hex] at hend ⊢
        split at hend
        · cases hend
        · rename_i herror
          rw [if_neg herror]
          split at hend
          · cases hend
          · rename_i hfull
            rw [if_neg hfull]
            split at hend
            · cases hend
              split
              · rfl
              · exact recvLoop_turns (by omega) (by omega)
            · rename_i hfinal
              rw [if_neg fun hfin => hfinal (final_of_isFinished hfin)]
              exact ih (by omega) hend

theorem recvResponse_headerLoop {env : Env} {parser : HttpResponseParser}
    (hend : headerLoop env.bufferSize (s.input.flatten.length + 1) env.object.new env.memory 0 s =
      some (parser, data, offset, s')) : recvResponse env s = fromHeader env parser data offset s' := by
  rw [recvResponse_eq, recvLoop_headerLoop (Nat.lt_succ_self _) hend, fromHeader]

/-- At the end of the header the buffer holds what follows it, and no body has been set. -/
theorem headerLoop_spec (hend : headerLoop buffSize turns h data offset s = some (h', data', offset', s')) :
    slice data' 0 offset' ++ s'.input.flatten <:+ slice data 0 offset ++ s.input.flatten ∧
      h'.data.body = h.data.body := by
  induction turns generalizing h data offset s with
  | zero => cases hend
  | succ turns ih =>
    rw [headerLoop] at hend
    split at hend
    · cases hend
    · dsimp only at hend
      split at hend
      · cases hend
      · rename_i hex
        obtain ⟨hn, hdata, -⟩ := HttpResponseParser.execute_ok hex
        have hturn := turn_suffix (slice_fill ..) hn hdata
        have hbody := execute_body hex
        split at hend
        · cases hend
        · split at hend
          · cases hend
          · split at hend
            · cases hend
              exact ⟨hturn, hbody⟩
            · obtain ⟨hsuffix, hb⟩ := ih hend
              exact ⟨hsuffix.trans hturn, hb.trans hbody⟩

end Loop

end HttpConnection

end ServerFrame.Http
