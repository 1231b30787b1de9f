/-
Requests one after another on one connection. A call of `recvRequest` reads into a buffer of its own, and what the
last read of the header section brings beyond the request is dropped with the buffer. As long as no read brings any
such bytes, the calls return the requests in their order.
-/
import ServerFrame.Http.Segment

namespace ServerFrame.Http

open Ragel

/-! ## Sessions with everything to read -/

namespace Session

/-- A session that is still to receive these bytes and whose reads each return as many as were asked for. -/
def of (stream : List UInt8) : Session := { input := if stream = [] then [] else [stream] }

theorem read_of (stream : List UInt8) (n : Nat) : (of stream).read n = (stream.take n, of (stream.drop n)) := by
  by_cases hs : stream = []
  · subst hs
    simp [of, read]
  · rw [of, if_neg hs, of, read_cons]
    by_cases hn : stream.length ≤ n
    · simp [hn]
    · simp [hn]

theorem flatten_of (stream : List UInt8) : (of stream).input.flatten = stream := by
  rw [of]
  split
  · rename_i hs
    rw [hs]
    rfl
  · simp

theorem readFixSize_of {stream : List UInt8} {n : Nat} (hn : 0 < n) (h31 : n < 2 ^ 31) (hle : n ≤ stream.length) :
    (of stream).readFixSize n = (some (stream.take n), of (stream.drop n)) := by
  have hlen : (stream.take n).length = n := List.length_take_of_le hle
  obtain ⟨c, piece, hpiece⟩ : ∃ c piece, stream.take n = c :: piece :=
    List.exists_cons_of_length_pos (by omega)
  have hloop : (of stream).readLoop (n + 1) n [] = (some (stream.take n), of (stream.drop n)) := by
    obtain ⟨m, rfl⟩ : ∃ m, n = m + 1 := ⟨n - 1, by omega⟩
    rw [hpiece] at hlen
    rw [readLoop, if_neg (by omega), read_of, hpiece]
    simp only [hlen, Nat.sub_self]
    rw [readLoop, if_pos rfl, List.nil_append]
  have hint : ¬ toInt n ≤ 0 := by
    rw [toInt_of_lt h31]
    omega
  rw [readFixSize, hloop]
  simp only [if_neg hint]

end Session

/-- The pieces in which reads of `size` bytes each return a stream of at most `n` bytes. -/
def reads (size : Nat) : Nat → List UInt8 → List (List UInt8)
  | 0, _ => []
  | n + 1, s => if s = [] then [] else s.take size :: reads size n (s.drop size)

section Reads

variable {size : Nat}

theorem flatten_reads (hsize : 0 < size) : ∀ {n : Nat} {s : List UInt8}, s.length ≤ n → (reads size n s).flatten = s
  | 0, s, hs => by
    rw [List.length_eq_zero_iff.1 (Nat.le_zero.1 hs)]
    rfl
  | n + 1, s, hs => by
    rw [reads]
    split
    · rename_i h
      rw [h]
      rfl
    · rw [List.flatten_cons, flatten_reads hsize (by rw [List.length_drop]; omega), List.take_append_drop]

theorem mem_reads (hsize : 0 < size) : ∀ {n : Nat} {s : List UInt8}, ∀ p ∈ reads size n s, p ≠ [] ∧ p.length ≤ size
  | n + 1, s, p, hp => by
    rw [reads] at hp
    split at hp
    · cases hp
    · rename_i hs
      rcases List.mem_cons.1 hp with rfl | hp
      · refine ⟨fun h => ?_, List.length_take_le ..⟩
        rcases List.take_eq_nil_iff.1 h with h | h
        · omega
        · exact hs h
      · exact mem_reads hsize p hp

end Reads

/-! ## The loop over both -/

section Loop

variable {stream rest : List UInt8} {buffSize k : Nat}

/-- Where a call of `execute` leaves the machine. -/
theorem execute_halt {h h' : HttpRequestParser} {data data' : Nat → UInt8} {n m : Nat} (hcs : h.parser.cs ≠ [])
    (hn : n ≠ 0) (hex : h.execute data n = .ok (h', data', m)) : halt data n 0 h.parser.cs = (h'.parser.cs, m) := by
  obtain ⟨-, -, ⟨hzero, -⟩ | ⟨h₁, hperform, hm, rfl⟩⟩ := HttpRequestParser.execute_ok hex
  · exact (hn hzero).elim
  · have hrunning : h₁.parser.hasError = false := by
      rw [HttpParser.hasError, (perform_frame hperform).1]
      exact List.isEmpty_eq_false_iff.2 hcs
    rw [hrunning, ← hm]
    rfl

/-- The reads that follow one of `buffSize` bytes, which left the machine running, over the stream. -/
theorem halt_next {b m : Nat} {cs cs' : State Action} {data : Nat → UInt8} {q r : List UInt8}
    (hcl : cs.Closes .done k) (hrun : Running cs') (hd : stream.drop b = q ++ r) (hq : q.length = buffSize)
    (hhalt : halt (store data 0 q) buffSize 0 cs = (cs', m)) (j : Nat) :
    halt (cstr stream) ((j + 1) * buffSize) b cs = halt (cstr stream) (j * buffSize) (b + buffSize) cs' := by
  have hshift : halt (cstr stream) buffSize (b + 0) cs =
      ((halt (store data 0 q) buffSize 0 cs).1, b + (halt (store data 0 q) buffSize 0 cs).2) :=
    (run_shift fun i _ hi => holds_store hd data i (by omega)).2
  rw [hhalt, Nat.add_zero] at hshift
  rw [Nat.add_comm j 1, Nat.add_mul, Nat.one_mul, (run_add hcl (by rwa [hshift])).2.2.2.2, hshift]

/-- A loop that ends well over reads of the buffer's size ends in the same way when more bytes follow the
stream, as long as no read brings any of them. -/
theorem recvLoop_of (hsize : 0 < buffSize) {turns more n b : Nat} {h : HttpRequestParser} {data : Nat → UInt8}
    {x : HttpRequestParser × (Nat → UInt8) × Nat} {s : Session} (hmore : turns ≤ more)
    (hn : (stream.drop b).length ≤ n) (hrun : Running h.parser.cs) (hcl : h.parser.cs.Closes .done k)
    (hfull : rest = [] ∨ ∀ m, Running (halt (cstr stream) (m * buffSize) b h.parser.cs).1 →
      (m + 1) * buffSize ≤ (stream.drop b).length)
    (hloop : HttpSession.recvLoop buffSize turns h data 0 { input := reads buffSize n (stream.drop b) } =
      .ok (some x, s)) :
    HttpSession.recvLoop buffSize more h data 0 (.of (stream.drop b ++ rest)) =
      .ok (some x, .of (s.input.flatten ++ rest)) := by
  -- by induction on the turns: both loops read the same, and a read that leaves the machine running was used up
  induction turns generalizing more n b h data with
  | zero => cases hloop
  | succ turns ih =>
    obtain ⟨more, rfl⟩ : ∃ t, more = t + 1 := ⟨more - 1, by omega⟩
    obtain hw | hw := eq_or_ne (stream.drop b) []
    · -- a loop with nothing to read fails
      have hnil : reads buffSize n (stream.drop b) = [] := by
        rw [hw]
        cases n <;> rfl
      rw [hnil] at hloop
      cases hloop
    · have hpos := List.length_pos_iff.2 hw
      obtain ⟨n, rfl⟩ : ∃ m, n = m + 1 := ⟨n - 1, by omega⟩
      have hq : (stream.drop b).take buffSize ≠ [] := by
        rw [Ne, List.take_eq_nil_iff, not_or]
        exact ⟨by omega, hw⟩
      have hfit : rest = [] ∨ buffSize ≤ (stream.drop b).length := by
        refine hfull.imp id fun hfull => ?_
        have hfirst := hfull 0 (by rwa [Nat.zero_mul])
        omega
      have hread : (Session.of (stream.drop b ++ rest)).read buffSize =
          ((stream.drop b).take buffSize, .of (stream.drop (b + buffSize) ++ rest)) := by
        rw [Session.read_of, ← List.drop_drop]
        rcases hfit with rfl | hfit
        · rw [List.append_nil, List.append_nil]
        · rw [List.take_append_of_le_length hfit, List.drop_append_of_le_length hfit]
      have hcut : Session.read { input := reads buffSize (n + 1) (stream.drop b) } buffSize =
          ((stream.drop b).take buffSize, { input := reads buffSize n (stream.drop (b + buffSize)) }) := by
        rw [reads, if_neg hw, read_cons, List.take_take, Nat.min_self, if_pos (List.length_take_le ..), List.drop_drop]
      cases hex : h.execute (store data 0 ((stream.drop b).take buffSize)) ((stream.drop b).take buffSize).length with
      | error f =>
        rw [HttpSession.recvLoop, Nat.sub_zero, hcut, if_neg hq, Nat.zero_add] at hloop
        dsimp only at hloop
        rw [hex] at hloop
        cases hloop
      | ok r =>
        obtain ⟨h', data', m⟩ := r
        have hleft : (stream.drop (b + buffSize)).length ≤ n := by
          rw [List.length_drop] at hn hpos ⊢
          omega
        rw [recvLoop_read hcut hq hex] at hloop
        rw [recvLoop_read hread hq hex]
        by_cases herror : h'.hasError = true
        · rw [if_pos herror] at hloop
          cases hloop
        · rw [if_neg herror] at hloop ⊢
          split at hloop
          · cases hloop
          · rename_i hroom
            rw [if_neg hroom]
            by_cases hfin : h'.isFinished = true
            · rw [if_pos hfin] at hloop ⊢
              cases hloop
              rw [flatten_reads hsize hleft]
            · rw [if_neg hfin] at hloop ⊢
              have hrun' : Running h'.parser.cs := by
                rw [hasError_iff, not_or] at herror
                exact ⟨herror.2, Bool.eq_false_of_not_eq_true hfin⟩
              have hhalt := execute_halt hrun.1 (by rw [Ne, List.length_eq_zero_iff]; exact hq) hex
              have hstop : Running (halt (store data 0 ((stream.drop b).take buffSize))
                  ((stream.drop b).take buffSize).length 0 h.parser.cs).1 := by rwa [hhalt]
              obtain ⟨hplace, hcl', -⟩ := run_add (m := 0) hcl hstop
              rw [hhalt] at hplace hcl'
              have hused : ((stream.drop b).take buffSize).length - m = 0 := by
                simp only at hplace
                omega
              rw [hused] at hloop ⊢
              refine ih (by omega) hleft hrun' hcl' ?_ hloop
              refine hfull.imp id fun hfull j hj => ?_
              have hlen : ((stream.drop b).take buffSize).length = buffSize := by
                have hfirst := hfull 0 (by rwa [Nat.zero_mul])
                rw [List.length_take]
                omega
              rw [hlen] at hhalt hex
              have hnext := halt_next hcl hrun' (List.take_append_drop buffSize (stream.drop b)).symm hlen hhalt j
              have hmore := hfull (j + 1) (by rwa [hnext])
              rw [List.length_drop] at hmore ⊢
              rw [Nat.add_mul, Nat.one_mul] at hmore
              omega

end Loop

/-- The body that a session with more to read than it needs receives, and what it leaves. -/
theorem recvBody_of {cast : List UInt8 → Option UInt64} {h : HttpRequestParser} {data : Nat → UInt8} {offset : Nat}
    {body rest : List UInt8} (hlen : (h.getContentLength cast).toNat = offset + body.length)
    (h31 : offset + body.length < 2 ^ 31) :
    HttpSession.recvBody cast h data offset (.of (body ++ rest)) =
      (withBody cast h.data (slice data 0 offset ++ body), .of rest) := by
  have hfits : offset + body.length ≤ (slice data 0 offset ++ body).length := by
    rw [List.length_append, length_slice]
  have hall : (slice data 0 offset ++ body).take (offset + body.length) = slice data 0 offset ++ body :=
    List.take_of_length_le (by rw [List.length_append, length_slice])
  unfold HttpSession.recvBody withBody
  rw [show (h.data.getHeaderAs cast (bytes "content-length") 0).toNat = offset + body.length from hlen]
  simp only [hlen]
  by_cases hpos : 0 < offset + body.length
  · have hsmall : 0 < offset + body.length ∧ offset + body.length < 2 ^ 63 := ⟨hpos, by omega⟩
    simp only [hsmall, and_self, if_true, if_pos hfits, hall]
    by_cases hbody : body = []
    · subst hbody
      simp
    · have hbpos := List.length_pos_iff.2 hbody
      rw [if_neg (by omega), Nat.add_sub_cancel_left, Session.readFixSize_of hbpos (by omega) (by simp)]
      simp
  · obtain rfl : body = [] := List.length_eq_zero_iff.1 (by omega)
    rw [if_neg (by omega), if_neg (by omega)]
    rfl

/-! ## Requests in sequence -/

namespace HttpSession

/-- Successive calls of `recvRequest` on one session, each with a parser and a buffer of its own. -/
def recvRequests : List Env → Session → Except Fault (List (Option HttpRequest) × Session)
  | [], s => .ok ([], s)
  | env :: envs, s => do
    let (request, s) ← recvRequest env s
    let (requests, s) ← recvRequests envs s
    return (request :: requests, s)

end HttpSession

/-- The same call with a new parser whose `m_error` happens to be 0. -/
def Env.clean (env : Env) : Env := { env with object := { env.object with error := 0 } }

/-- Where the header section of a text ends. -/
def headerLength (env : Env) (text : List UInt8) : Nat :=
  (halt (cstr text) text.length 0 env.object.new.parser.cs).2

/-- A call of `recvRequest` and the well-formed request it is to receive: what a parser in good order makes of the
text when it is given all of it, which ends where its `content-length` says. -/
structure Incoming where
  env : Env
  text : List UInt8
  request : HttpRequest
  parsed : requestOf env.clean text = .ok (some request)
  exact : text.length = headerLength env text + (request.getHeaderAs env.cast (bytes "content-length") 0).toNat

namespace Incoming

/-- How many reads it takes to have the header section. -/
def headerReads (x : Incoming) : Nat :=
  (headerLength x.env x.text + x.env.bufferSize - 1) / x.env.bufferSize

/-- The call finds its request: `m_error` happens to be 0, the read that completes the header section ends within the
request, unless nothing follows it, and every token comes with one read. Buffer and request are of a size
that an `int` holds. -/
structure Received (x : Incoming) (rest : List UInt8) : Prop where
  error : x.env.object.error = 0
  buffer : 0 < x.env.bufferSize ∧ x.env.bufferSize < 2 ^ 31
  length : x.text.length < 2 ^ 31
  within : rest = [] ∨ x.headerReads * x.env.bufferSize ≤ x.text.length
  tokens : ∀ k ∈ boundaries 0 (reads x.env.bufferSize x.text.length x.text), ∀ t ∈ tokens x.env.object x.text, Apart k t

instance (x : Incoming) (rest : List UInt8) : Decidable (x.Received rest) :=
  decidable_of_iff
    (x.env.object.error = 0 ∧ (0 < x.env.bufferSize ∧ x.env.bufferSize < 2 ^ 31) ∧ x.text.length < 2 ^ 31 ∧
      (rest = [] ∨ x.headerReads * x.env.bufferSize ≤ x.text.length) ∧
      ∀ k ∈ boundaries 0 (reads x.env.bufferSize x.text.length x.text), ∀ t ∈ tokens x.env.object x.text, Apart k t)
    ⟨fun ⟨he, hb, hl, hw, ht⟩ => ⟨he, hb, hl, hw, ht⟩, fun ⟨he, hb, hl, hw, ht⟩ => ⟨he, hb, hl, hw, ht⟩⟩

variable {x : Incoming} {rest : List UInt8}

theorem clean_of_error {env : Env} (h : env.object.error = 0) : env.clean = env := by
  rw [Env.clean, ← h]

/-- The machine runs up to the end of the header section. -/
theorem lt_headerLength {env : Env} {text : List UInt8} {m : Nat}
    (hfin : (halt (cstr text) text.length 0 env.object.new.parser.cs).1.final = true)
    (hm : Running (halt (cstr text) m 0 env.object.new.parser.cs).1) : m < headerLength env text := by
  obtain ⟨k, hcl⟩ : ∃ k, env.object.new.parser.cs.Closes .done k := start_closes env.object.parser.uriRelaxed
  have hrun : Running env.object.new.parser.cs := start_running env.object.parser.uriRelaxed
  rw [headerLength]
  by_cases hle : m ≤ text.length
  · obtain ⟨j, hj⟩ := Nat.exists_eq_add_of_le hle
    rw [hj, (run_add hcl hm).2.2.2.2, Nat.zero_add] at hfin ⊢
    exact lt_halt hm hfin
  · have hstopped : ¬ Running (halt (cstr text) text.length 0 env.object.new.parser.cs).1 := by
      intro hr
      rw [hr.2] at hfin
      cases hfin
    obtain ⟨j, hj⟩ := Nat.exists_eq_add_of_le (Nat.le_of_not_le hle)
    rw [hj, (run_add_of_stopped hcl hrun hstopped).2] at hm
    exact absurd hm hstopped

/-- As long as the header section is not complete, the next read ends within the request. -/
theorem Received.full (h : x.Received rest)
    (hfin : (halt (cstr x.text) x.text.length 0 x.env.object.new.parser.cs).1.final = true) :
    rest = [] ∨ ∀ m, Running (halt (cstr x.text) (m * x.env.bufferSize) 0 x.env.object.new.parser.cs).1 →
      (m + 1) * x.env.bufferSize ≤ x.text.length := by
  refine h.within.imp id fun hwithin m hm => ?_
  have hlt := lt_headerLength hfin hm
  have hreads : m + 1 ≤ x.headerReads := by
    rw [headerReads, Nat.le_div_iff_mul_le h.buffer.1, Nat.add_mul, Nat.one_mul]
    omega
  exact (Nat.mul_le_mul_right _ hreads).trans hwithin

theorem getHeaderAs_withBody {cast : List UInt8 → Option UInt64} {data request : HttpRequest} {body key : List UInt8}
    {d : UInt64} (h : withBody cast data body = some request) :
    request.getHeaderAs cast key d = data.getHeaderAs cast key d := by
  rw [withBody] at h
  split at h
  · split at h
    · cases h
      rfl
    · cases h
  · cases h
    rfl

/-- The call returns the request and leaves what follows it. -/
theorem recvRequest_of (h : x.Received rest) :
    HttpSession.recvRequest x.env (.of (x.text ++ rest)) = .ok (some x.request, .of rest) := by
  obtain ⟨hpos, hsize⟩ := h.buffer
  have hwhole : (reads x.env.bufferSize x.text.length x.text).flatten = x.text := flatten_reads hpos (le_refl _)
  let c : Cutting x.env x.text := .ofPieces (reads x.env.bufferSize x.text.length x.text)
    (fun p hp => (mem_reads hpos p hp).1) hwhole fun p hp => (mem_reads hpos p hp).2
  obtain ⟨H, hP, hends⟩ := c.endsAs hsize h.length h.tokens
  have hparsed := x.parsed
  rw [clean_of_error h.error, requestOf, hP] at hparsed
  simp only [Except.map, Except.ok.injEq] at hparsed
  split at hparsed
  · rename_i hfin
    obtain ⟨k, hcl⟩ := start_closes x.env.object.parser.uriRelaxed
    change EndsAs x.text H _ (HttpSession.recvLoop x.env.bufferSize
      ((reads x.env.bufferSize x.text.length x.text).flatten.length + 1) x.env.object.new x.env.memory 0
      { input := reads x.env.bufferSize x.text.length (x.text.drop 0) }) at hends
    rw [hwhole] at hends
    cases hloop : HttpSession.recvLoop x.env.bufferSize (x.text.length + 1) x.env.object.new x.env.memory 0
        { input := reads x.env.bufferSize x.text.length (x.text.drop 0) } with
    | error f =>
      rw [hloop] at hends
      cases hends
    | ok r =>
      rw [hloop] at hends
      obtain ⟨_ | ⟨parser, data, offset⟩, s⟩ := r
      · exact absurd hfin hends
      · obtain ⟨-, hdata, -, -, hrest⟩ := hends
        have hgreedy := recvLoop_of hpos (show x.text.length + 1 ≤ (x.text ++ rest).length + 1 by simp) (le_refl _)
          (start_running x.env.object.parser.uriRelaxed) hcl (h.full hfin.2) hloop
        have hdrop := congrArg List.length hrest
        rw [List.length_append, length_slice, List.length_drop] at hdrop
        have hbound := h.length
        -- what the loop left is what the body needs
        have hlen : (parser.getContentLength x.env.cast).toNat = offset + s.input.flatten.length := by
          have hexact := x.exact
          rw [getHeaderAs_withBody hparsed, ← hdata, headerLength] at hexact
          rw [HttpRequestParser.getContentLength]
          omega
        rw [List.drop_zero] at hgreedy
        rw [HttpSession.recvRequest, Session.flatten_of, hgreedy]
        simp only
        rw [recvBody_of hlen (by omega), hrest, hdata, hparsed]
  · cases hparsed

/-- What arrives on the connection. -/
def stream (xs : List Incoming) : List UInt8 := (xs.map text).flatten

/-- Every call finds its request. -/
def AllReceived : List Incoming → Prop
  | [] => True
  | x :: xs => x.Received (stream xs) ∧ AllReceived xs

/-- Calls that each find their request return the requests in their order. -/
theorem recvRequests_in_order : ∀ {xs : List Incoming}, AllReceived xs →
    HttpSession.recvRequests (xs.map env) (.of (stream xs)) = .ok (xs.map fun x => some x.request, .of [])
  | [], _ => rfl
  | x :: xs, h => by
    have hstream : stream (x :: xs) = x.text ++ stream xs := rfl
    rw [List.map_cons, hstream, HttpSession.recvRequests, recvRequest_of h.1]
    simp only [bind, Except.bind]
    rw [recvRequests_in_order h.2]
    rfl

section Examples

set_option maxRecDepth 100000

/-- A `POST` whose header section ends one byte before the buffer does. -/
def posted : Incoming where
  env := { zeroed with bufferSize := 41 }
  text := post
  request :=
    { method := .post, path := bytes "/a", body := bytes "hi", headers := [(bytes "content-length", bytes "2")] }
  parsed := by decide
  exact := by decide

theorem recvRequests_in_order_posted :
    AllReceived [posted, posted] ∧
      HttpSession.recvRequests ([posted, posted].map env) (.of (stream [posted, posted])) =
        .ok ([posted, posted].map fun x => some x.request, .of []) := by
  have h : AllReceived [posted, posted] := ⟨by decide, by decide, trivial⟩
  exact ⟨h, recvRequests_in_order h⟩

/-- A request without a body, for a server with the default buffer size. -/
def got : Incoming where
  env := zeroed
  text := bytes "GET / HTTP/1.1\r\n\r\n"
  request := { path := bytes "/" }
  parsed := by decide
  exact := by decide

/-- The first of two such requests is returned, and the second, which came with the same read, is lost. -/
theorem second_request_lost :
    (HttpSession.recvRequests ([got, got].map env) (.of (stream [got, got]))).map Prod.fst =
        .ok [some got.request, none] ∧
      (HttpSession.recvRequests ([got, got].map env) (.of (stream [got, got]))).map Prod.fst ≠
        .ok ([got, got].map fun x => some x.request) := by
  constructor <;> decide

end Examples

end Incoming

end ServerFrame.Http
