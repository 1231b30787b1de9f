/-
How the cutting of a stream into reads bears on `recvRequest`. What a stream holds is defined from the
run of the parser over all of it; a session that reads the stream in pieces returns that, provided
that every token comes with one read. A read that ends inside a token loses the token's beginning,
since the parser has consumed it and starts the next read with its registers reset.
-/
import ServerFrame.Http.Stream

namespace ServerFrame.Http

open Ragel

/-! ## What a stream holds -/

/-- The request with the body that its `content-length` announces, if that many bytes follow. -/
def withBody (cast : List UInt8 → Option UInt64) (data : HttpRequest) (rest : List UInt8) : Option HttpRequest :=
  let length := (data.getHeaderAs cast (bytes "content-length") 0).toNat
  if 0 < length ∧ length < 2 ^ 63 then
    if length ≤ rest.length then some { data with body := rest.take length } else none
  else some data

/-- What a parser makes of a stream that it is given all at once. -/
def requestOf (env : Env) (stream : List UInt8) : Except Fault (Option HttpRequest) :=
  (perform (cstr stream) env.object.new (events (cstr stream) stream.length 0 env.object.new.parser.cs)).map fun h =>
    if h.error = 0 ∧ (halt (cstr stream) stream.length 0 env.object.new.parser.cs).1.final then
      withBody env.cast h.data (stream.drop (halt (cstr stream) stream.length 0 env.object.new.parser.cs).2)
    else none

/-! ## Cuttings -/

/-- Where the reads begin and end. -/
def boundaries : Nat → List (List UInt8) → List Nat
  | k, [] => [k]
  | k, p :: ps => k :: boundaries (k + p.length) ps

/-- The pieces that successive reads return: none is empty, and none that is read before the end of the
header section is longer than what the loop asks for. -/
structure Cutting (env : Env) (stream : List UInt8) where
  pieces : List (List UInt8)
  nonempty : ∀ p ∈ pieces, p ≠ []
  whole : pieces.flatten = stream
  asked : ∀ pre p post, pieces = pre ++ p :: post →
    Running (halt (cstr stream) pre.flatten.length 0 env.object.new.parser.cs).1 → p.length ≤ env.bufferSize

namespace Cutting

variable {env : Env} {stream : List UInt8}

/-- A cutting into pieces that each fit in the buffer. -/
def ofPieces (pieces : List (List UInt8)) (nonempty : ∀ p ∈ pieces, p ≠ []) (whole : pieces.flatten = stream)
    (fit : ∀ p ∈ pieces, p.length ≤ env.bufferSize) : Cutting env stream :=
  ⟨pieces, nonempty, whole, fun _ _ _ h _ => fit _ (h ▸ List.mem_append_right _ (List.mem_cons_self ..))⟩

/-- What `recvRequest` returns when its reads return these pieces. -/
def request (c : Cutting env stream) : Except Fault (Option HttpRequest) :=
  (HttpSession.recvRequest env { input := c.pieces }).map Prod.fst

/-- Every token comes with one read. -/
def KeepsTokens (c : Cutting env stream) : Prop :=
  ∀ k ∈ boundaries 0 c.pieces, ∀ t ∈ tokens env.object stream, Apart k t

instance (c : Cutting env stream) : Decidable c.KeepsTokens :=
  inferInstanceAs (Decidable (∀ k ∈ boundaries 0 c.pieces, ∀ t ∈ tokens env.object stream, Apart k t))

end Cutting

/-! ## The reads up to an error -/

/-- The place of the action that sets the first error, or `p` where there is one already. -/
def firstError (stream : Nat → UInt8) : Nat → HttpRequestParser → List (Nat × Action) → Option Nat
  | p, h, [] => if h.error = 0 then none else some p
  | p, h, (fpc, a) :: ev =>
    if h.error = 0 then
      match h.act stream fpc a with
      | .error _ => none
      | .ok h => firstError stream fpc h ev
    else some p

/-- How many bytes are read from the byte `b` on until a read has brought the byte `e`, if that is given. -/
def taken (e : Option Nat) : Nat → List (List UInt8) → Nat
  | _, [] => 0
  | b, p :: ps => if ∃ x ∈ e, x < b + p.length then p.length else p.length + taken e (b + p.length) ps

/-- Every token that is taken comes with one read: all of them, or those in the reads up to the one in which the first
error is set, which is the last read. -/
def Cutting.KeepsTaken {env : Env} {stream : List UInt8} (c : Cutting env stream) : Prop :=
  ∀ k ∈ boundaries 0 c.pieces,
    ∀ t ∈ spans (cstr stream) env.object.new {} (events (cstr stream)
        (taken (firstError (cstr stream) 0 env.object.new
          (events (cstr stream) stream.length 0 env.object.new.parser.cs)) 0 c.pieces) 0 env.object.new.parser.cs),
      Apart k t

instance {env : Env} {stream : List UInt8} (c : Cutting env stream) : Decidable c.KeepsTaken :=
  inferInstanceAs (Decidable (∀ k ∈ boundaries 0 c.pieces, ∀ t ∈ _, Apart k t))

/-! ## The body -/

theorem read_cons {p : List UInt8} {ps : List (List UInt8)} {n : Nat} :
    Session.read { input := p :: ps } n = (p.take n, { input := if p.length ≤ n then ps else p.drop n :: ps }) := rfl

theorem available_of_ne {ps : List (List UInt8)} (hne : ∀ p ∈ ps, p ≠ []) :
    Session.available { input := ps } = ps.flatten := by
  rw [Session.available, if_pos rfl, List.takeWhile_eq_self_iff.2 fun p hp => decide_eq_true (hne p hp)]

theorem readFixSize_spec {n : Nat} {ps : List (List UInt8)} (hne : ∀ p ∈ ps, p ≠ []) (hn : 0 < n)
    (h31 : ps.flatten.length < 2 ^ 31) :
    (Session.readFixSize { input := ps } n).1 = if n ≤ ps.flatten.length then some (ps.flatten.take n) else none := by
  have havailable := available_of_ne hne
  obtain ⟨hread, hfail⟩ := Session.readFixSize_available { input := ps } hn
  rw [havailable] at hread hfail
  by_cases hfull : n ≤ ps.flatten.length
  · obtain ⟨s', hrun, -⟩ := hread hfull (Nat.lt_of_le_of_lt hfull h31)
    rw [hrun, if_pos hfull]
  · obtain ⟨s', hrun⟩ := hfail (Nat.not_le.1 hfull)
    rw [hrun, if_neg hfull]

theorem recvBody_spec {cast : List UInt8 → Option UInt64} {h : HttpRequestParser} {data : Nat → UInt8} {offset : Nat}
    {ps : List (List UInt8)} {rest : List UInt8} (hne : ∀ p ∈ ps, p ≠ [])
    (hrest : slice data 0 offset ++ ps.flatten = rest) (h31 : rest.length < 2 ^ 31) :
    (HttpSession.recvBody cast h data offset { input := ps }).1 = withBody cast h.data rest := by
  have hlen : rest.length = offset + ps.flatten.length := by rw [← hrest, List.length_append, length_slice]
  unfold HttpSession.recvBody withBody HttpRequestParser.getContentLength
  simp only
  generalize (h.data.getHeaderAs cast (bytes "content-length") 0).toNat = length
  split
  · split
    · rename_i hle
      rw [if_pos (by omega), ← hrest, List.take_append_of_le_length (by rwa [length_slice])]
      simp [slice, ← List.map_take, List.take_range, min_eq_left hle]
    · rename_i hle
      rcases hrun : Session.readFixSize { input := ps } (length - offset) with ⟨r, s⟩
      have hread : r =
          if length - offset ≤ ps.flatten.length then some (ps.flatten.take (length - offset)) else none := by
        rw [← readFixSize_spec hne (by omega) (by omega), hrun]
      by_cases hfull : length ≤ rest.length
      · rw [if_pos (by omega)] at hread
        subst hread
        rw [if_pos hfull, ← hrest, List.take_append, length_slice,
          List.take_of_length_le (l := slice data 0 offset) (by rw [length_slice]; omega)]
      · rw [if_neg (by omega)] at hread
        subst hread
        rw [if_neg hfull]
  · rfl

/-! ## The loop -/

theorem store_zero {data : Nat → UInt8} {q : List UInt8} {i : Nat} (hi : i < q.length) :
    store data 0 q i = q.getD i 0 := by
  rw [store, if_pos ⟨Nat.zero_le i, by omega⟩, Nat.sub_zero]

theorem holds_store {stream q r : List UInt8} {b : Nat} (hd : stream.drop b = q ++ r) (data : Nat → UInt8) :
    Holds (store data 0 q) (cstr stream) b (b + q.length) := by
  intro i hi
  have hget : stream[b + i]? = q[i]? := by
    rw [← List.getElem?_drop, hd, List.getElem?_append_left (by omega)]
  rw [store_zero (by omega), cstr, List.getD_eq_getElem?_getD, List.getD_eq_getElem?_getD, hget]

/-- What `memmove` brings to the front of the buffer is the part of the read that was not consumed. -/
theorem slice_memmove (data : Nat → UInt8) {q : List UInt8} {k : Nat} (hk : k ≤ q.length) :
    slice (HttpRequestParser.memmove (store data 0 q) k (q.length - k)) 0 (q.length - k) = q.drop k := by
  have hstore := slice_store data 0 q
  rw [Nat.zero_add] at hstore
  rw [slice_consumed hk, hstore]
  rfl

theorem le_halt {buffer : Nat → UInt8} : ∀ {n p : Nat} {cs : State Action}, p ≤ (halt buffer n p cs).2
  | 0, p, cs => le_refl p
  | n + 1, p, cs => by
    rw [halt]
    split
    · exact le_refl p
    · split
      · exact Nat.le_succ p
      · exact (Nat.le_succ p).trans le_halt

/-- A machine that has finished has consumed a byte. -/
theorem lt_halt {buffer : Nat → UInt8} {n p : Nat} {cs : State Action} (hr : Running cs)
    (hf : (halt buffer n p cs).1.final = true) : p < (halt buffer n p cs).2 := by
  match n with
  | 0 =>
    rw [halt, hr.2] at hf
    cases hf
  | n + 1 =>
    rw [halt] at hf ⊢
    split
    · rename_i he
      rw [if_pos he] at hf
      cases hf
    · split
      · exact Nat.lt_succ_self p
      · exact le_halt

theorem hasError_iff {h : HttpRequestParser} : h.hasError = true ↔ h.error ≠ 0 ∨ h.parser.cs = [] := by
  simp [HttpRequestParser.hasError, HttpParser.hasError]

theorem boundary_self (j : Nat) (ps : List (List UInt8)) : j ∈ boundaries j ps := by
  cases ps <;> exact List.mem_cons_self ..

section Loop

variable {stream : List UInt8} {buffSize : Nat} {k : Nat}

/-- The loop ended as the run over the stream, which left the parser `H` and halted at `r`. -/
def EndsAs (stream : List UInt8) (H : HttpRequestParser) (r : State Action × Nat) :
    Except Fault (Option (HttpRequestParser × (Nat → UInt8) × Nat) × Session) → Prop
  | .error _ => False
  | .ok (none, _) => ¬ (H.error = 0 ∧ r.1.final = true)
  | .ok (some (h, data, offset), s) =>
    (H.error = 0 ∧ r.1.final = true) ∧ h.data = H.data ∧ s.connected = true ∧ (∀ p ∈ s.input, p ≠ []) ∧
      slice data 0 offset ++ s.input.flatten = stream.drop r.2

/-- One turn of the loop, on a read that returned `q`. -/
theorem recvLoop_read {turns n : Nat} {h h' : HttpRequestParser} {data data' : Nat → UInt8} {q : List UInt8}
    {s s' : Session} (hread : s.read buffSize = (q, s')) (hq : q ≠ [])
    (hex : h.execute (store data 0 q) q.length = .ok (h', data', n)) :
    HttpSession.recvLoop buffSize (turns + 1) h data 0 s =
      if h'.hasError then .ok (none, s'.close)
      else if ((q.length - n : Nat) : Int) = toInt buffSize then .ok (none, s'.close)
      else if h'.isFinished then .ok (some (h', data', q.length - n), s')
      else HttpSession.recvLoop buffSize turns h' data' (q.length - n) s' := by
  rw [HttpSession.recvLoop, Nat.sub_zero, hread]
  rw [if_neg hq, Nat.zero_add]
  dsimp only
  rw [hex]

theorem recvLoop_cons {turns n : Nat} {h h' : HttpRequestParser} {data data' : Nat → UInt8} {q : List UInt8}
    {ps : List (List UInt8)} (hq : q ≠ []) (hle : q.length ≤ buffSize)
    (hex : h.execute (store data 0 q) q.length = .ok (h', data', n)) :
    HttpSession.recvLoop buffSize (turns + 1) h data 0 { input := q :: ps } =
      if h'.hasError then .ok (none, Session.close { input := ps })
      else if ((q.length - n : Nat) : Int) = toInt buffSize then .ok (none, Session.close { input := ps })
      else if h'.isFinished then .ok (some (h', data', q.length - n), { input := ps })
      else HttpSession.recvLoop buffSize turns h' data' (q.length - n) { input := ps } :=
  recvLoop_read (by rw [read_cons, List.take_of_length_le hle, if_pos hle]) hq hex

/-- The turn in which the machine stops. -/
theorem endsAs_stopped {h H : HttpRequestParser} {data : Nat → UInt8} {ps : List (List UInt8)} {p offset : Nat}
    {more : Except Fault (Option (HttpRequestParser × (Nat → UInt8) × Nat) × Session)} (hr : ¬ Running h.parser.cs)
    (hdata : h.data = H.data) (herr : h.error = H.error) (hne : ∀ p ∈ ps, p ≠ [])
    (hrest : slice data 0 offset ++ ps.flatten = stream.drop p)
    (hroom : h.parser.cs.final = true → ¬ (offset : Int) = buffSize) :
    EndsAs stream H (h.parser.cs, p)
      (if h.hasError then .ok (none, Session.close { input := ps })
      else if (offset : Int) = buffSize then .ok (none, Session.close { input := ps })
      else if h.isFinished then .ok (some (h, data, offset), { input := ps })
      else more) := by
  by_cases herror : h.hasError = true
  · rw [if_pos herror]
    rintro ⟨he, hf⟩
    rcases hasError_iff.1 herror with h0 | h0
    · exact h0 (herr.trans he)
    · simp only [h0] at hf
      cases hf
  · have hok := herror
    rw [hasError_iff, not_or, not_not] at hok
    have hfin : h.parser.cs.final = true := by
      by_contra hf
      exact hr ⟨hok.2, by simpa using hf⟩
    have hfin' : h.isFinished = true := hfin
    rw [if_neg herror, if_neg (hroom hfin), if_pos hfin']
    exact ⟨⟨herr ▸ hok.1, hfin⟩, hdata, rfl, hne, hrest⟩

/-- What a read needs together is among what the whole stream needs together. -/
theorem mem_spans_add {text : Nat → UInt8} {n m b : Nat} {cs : State Action} {H : HttpRequestParser} {g : Places}
    {t : Nat × Nat} (hcl : cs.Closes .done k) (hrun : Running cs) (ht : t ∈ spans text H g (events text n b cs)) :
    t ∈ spans text H g (events text (n + m) b cs) := by
  by_cases hr : Running (halt text n b cs).1
  · rw [(run_add hcl hr).2.2.2.1]
    exact mem_spans_append ht
  · rwa [(run_add_of_stopped hcl hrun hr).1]

/-- A read begins with its registers reset, which agrees with the stream as long as none of them was set
in this read. -/
theorem Agree.reset {b p : Nat} {g : Places} {h H : HttpRequestParser} (hdata : h.data = H.data)
    (herr : h.error = H.error) (hg : g.Upto p) (hp : p < b) : Agree b g { h with parser := h.parser.reset } H :=
  { data := hdata
    error := herr
    mark := fun hb => absurd (hb.trans hg.mark) (by omega)
    fieldStart := fun hb => absurd (hb.trans hg.fieldStart) (by omega)
    fieldLen := fun hb => absurd (hb.trans hg.fieldLen) (by omega)
    queryStart := fun hb => absurd (hb.trans hg.queryStart) (by omega) }

/-- The loop with the pieces `ps` to come, which are the stream from the byte `b` on: the machine is running, and the
parser agrees with the one that runs over the stream. -/
structure Ready (stream : List UInt8) (buffSize k b : Nat) (ps : List (List UInt8)) (h H : HttpRequestParser)
    (g : Places) : Prop where
  rest : stream.drop b = ps.flatten
  nonempty : ∀ p ∈ ps, p ≠ []
  asked : ∀ pre p post, ps = pre ++ p :: post →
    Running (halt (cstr stream) pre.flatten.length b h.parser.cs).1 → p.length ≤ buffSize
  running : Running h.parser.cs
  closes : h.parser.cs.Closes .done k
  bodyStart : h.parser.bodyStart = 0
  places : g.Upto b
  agree : Agree b g { h with parser := h.parser.reset } H

section Turn

variable {ps : List (List UInt8)} {q : List UInt8} {b m : Nat} {h H : HttpRequestParser} {g : Places}
  (data : Nat → UInt8)

/-- A read that needs nothing of another one: the parser agrees with the one over the stream, and a machine that is
still running has consumed it all and is ready for the next. -/
theorem Ready.turn (hs : stream.length < 2 ^ 31) (hready : Ready stream buffSize k b (q :: ps) h H g)
    (hsp : ∀ j ∈ boundaries b (q :: ps),
      ∀ t ∈ spans (cstr stream) H g (events (cstr stream) (q.length + m) b h.parser.cs), Apart j t) :
    q ≠ [] ∧ q.length ≤ buffSize ∧ ∃ h1 H1 n,
      h.execute (store data 0 q) q.length =
        .ok (h1, HttpRequestParser.memmove (store data 0 q) n (q.length - n), n) ∧ n ≤ q.length ∧
      perform (cstr stream) H (events (cstr stream) q.length b h.parser.cs) = .ok H1 ∧
      halt (cstr stream) q.length b h.parser.cs = (h1.parser.cs, b + n) ∧ h1.data = H1.data ∧ h1.error = H1.error ∧
      (Running h1.parser.cs → n = q.length ∧
        Ready stream buffSize k (b + q.length) ps h1 H1 (g.after (events (cstr stream) q.length b h.parser.cs)) ∧
        (∀ j ∈ boundaries (b + q.length) ps, ∀ t ∈ spans (cstr stream) H1
          (g.after (events (cstr stream) q.length b h.parser.cs))
          (events (cstr stream) m (b + q.length) h1.parser.cs), Apart j t) ∧
        ∀ m, events (cstr stream) (q.length + m) b h.parser.cs =
            events (cstr stream) q.length b h.parser.cs ++ events (cstr stream) m (b + q.length) h1.parser.cs ∧
          halt (cstr stream) (q.length + m) b h.parser.cs = halt (cstr stream) m (b + q.length) h1.parser.cs) := by
  obtain ⟨hd, hne, hask, hrun, hcl, hbody, hg, hag⟩ := hready
  have hqne := hne q List.mem_cons_self
  have hq := List.length_pos_iff.2 hqne
  have hle : q.length ≤ buffSize := hask [] q ps rfl hrun
  have hbN : b + q.length ≤ stream.length := by
    have := congrArg List.length hd
    simp only [List.length_drop, List.flatten_cons, List.length_append] at this
    omega
  rw [List.flatten_cons] at hd
  have hb1 : b ∈ boundaries b (q :: ps) := List.mem_cons_self
  have he1 : b + q.length ∈ boundaries b (q :: ps) := List.mem_cons_of_mem _ (boundary_self ..)
  obtain ⟨h1, H1, n, hex, hP, hhalt, hn, hdata, herr, hg1, hbody1⟩ :=
    execute_agree hq (holds_store hd data) (by omega) hrun hbody hg hag fun t ht =>
      ⟨hsp b hb1 t (mem_spans_add hcl hrun ht), hsp _ he1 t (mem_spans_add hcl hrun ht)⟩
  refine ⟨hqne, hle, h1, H1, n, hex, hn, hP, hhalt, hdata, herr, fun hr => ?_⟩
  have hr' : Running (halt (cstr stream) q.length b h.parser.cs).1 := by rwa [hhalt]
  obtain ⟨hplace, hcl1, hnodone, hev, -⟩ := run_add (m := m) hcl hr'
  rw [hhalt] at hplace hcl1 hev
  refine ⟨by simp only at hplace; omega, ?_, fun j hj t ht => hsp j (List.mem_cons_of_mem _ hj) t ?_, fun m' => ?_⟩
  · refine ⟨?_, fun p hp => hne p (List.mem_cons_of_mem _ hp), fun pre p post hps hrp => ?_, hr, hcl1, hbody1 hnodone,
      hg1.mono (by omega), .reset hdata herr hg1 (by omega)⟩
    · rw [← List.drop_drop, hd, List.drop_left]
    · refine hask (q :: pre) p post (by rw [hps, List.cons_append]) ?_
      rw [List.flatten_cons, List.length_append, (run_add hcl hr').2.2.2.2, hhalt]
      exact hrp
  · rw [hev, spans_append hP]
    exact List.mem_append_right _ ht
  · obtain ⟨-, -, -, hev', hha⟩ := run_add (m := m') hcl hr'
    rw [hhalt] at hev' hha
    exact ⟨hev', hha⟩

end Turn

/-- The loop from the byte `b` on. -/
theorem recvLoop_spec (hs : stream.length < 2 ^ 31) (hsize : buffSize < 2 ^ 31) {ps : List (List UInt8)}
    {turns b : Nat} {h H : HttpRequestParser} {g : Places} (data : Nat → UInt8)
    (hready : Ready stream buffSize k b ps h H g) (ht : ps.flatten.length < turns)
    (hsp : ∀ j ∈ boundaries b ps, ∀ t ∈ spans (cstr stream) H g (events (cstr stream) ps.flatten.length b h.parser.cs),
      Apart j t) :
    ∃ H', perform (cstr stream) H (events (cstr stream) ps.flatten.length b h.parser.cs) = .ok H' ∧
      EndsAs stream H' (halt (cstr stream) ps.flatten.length b h.parser.cs)
        (HttpSession.recvLoop buffSize turns h data 0 { input := ps }) := by
  obtain ⟨turns, rfl⟩ : ∃ t, turns = t + 1 := ⟨turns - 1, by omega⟩
  -- by induction on the pieces: a read that leaves the machine running has consumed its whole piece
  induction ps generalizing turns b h H g data with
  | nil =>
    refine ⟨H, rfl, fun hf => ?_⟩
    have hfin := hf.2
    rw [List.flatten_nil, List.length_nil, halt, hready.running.2] at hfin
    cases hfin
  | cons q ps ih =>
    have hd := hready.rest
    simp only [List.flatten_cons, List.length_append] at hd ht hsp ⊢
    obtain ⟨hqne, hle, h1, H1, n, hex, hn, hP, hhalt, hdata, herr, hnext⟩ := hready.turn data hs hsp
    have hq := List.length_pos_iff.2 hqne
    rw [recvLoop_cons hqne hle hex, toInt_of_lt hsize]
    by_cases hr : Running h1.parser.cs
    · obtain ⟨hnq, hready1, hsp1, hadd⟩ := hnext hr
      obtain ⟨hev, hha⟩ := hadd ps.flatten.length
      obtain ⟨turns, rfl⟩ : ∃ t, turns = t + 1 := ⟨turns - 1, by omega⟩
      obtain ⟨H', hP', hends⟩ := ih (HttpRequestParser.memmove (store data 0 q) n (q.length - n)) hready1 hsp1
        turns (by omega)
      refine ⟨H', by rw [hev, perform_append, hP]; exact hP', ?_⟩
      rw [hha]
      by_cases herror : h1.hasError = true
      · -- the loop gives up here, and over the stream the error stays set
        rw [if_pos herror]
        have : H1.error ≠ 0 := herr ▸ (hasError_iff.1 herror).resolve_right hr.1
        exact fun hf => (perform_frame hP').2.2 this hf.1
      · have hfin : ¬ h1.isFinished = true := by
          rw [HttpRequestParser.isFinished, HttpParser.isFinished, hr.2]
          simp
        rw [if_neg herror, if_neg (by omega), if_neg hfin, show q.length - n = 0 by omega]
        rw [show q.length - n = 0 by omega] at hends
        exact hends
    · have hr' : ¬ Running (halt (cstr stream) q.length b h.parser.cs).1 := by rwa [hhalt]
      obtain ⟨hev, hha⟩ := run_add_of_stopped (m := ps.flatten.length) hready.closes hready.running hr'
      have hpos : (halt (cstr stream) q.length b h.parser.cs).1.final = true →
          b < (halt (cstr stream) q.length b h.parser.cs).2 := lt_halt hready.running
      rw [hhalt] at hpos
      rw [hev, hha, hhalt]
      refine ⟨H1, hP, endsAs_stopped hr hdata herr
        (fun p hp => hready.nonempty p (List.mem_cons_of_mem _ hp)) ?_ fun hf => ?_⟩
      · rw [slice_memmove data hn, ← List.drop_drop, hd, List.drop_append_of_le_length hn]
      · have := hpos hf
        simp only at this
        omega

end Loop

/-! ## A run with an error -/

section Error

variable {stream : List UInt8} {buffSize k e p : Nat}

theorem taken_none (b : Nat) (ps : List (List UInt8)) : taken none b ps = ps.flatten.length := by
  induction ps generalizing b with
  | nil => rfl
  | cons q ps ih =>
    rw [taken, if_neg (by rintro ⟨x, ⟨⟩, -⟩), ih, List.flatten_cons, List.length_append]

theorem mem_of_firstError {text : Nat → UInt8} {ev : List (Nat × Action)} {h : HttpRequestParser}
    (he : firstError text p h ev = some e) : h.error ≠ 0 ∨ ∃ a, (e, a) ∈ ev := by
  induction ev generalizing p h with
  | nil =>
    rw [firstError] at he
    split at he
    · cases he
    · exact .inl ‹_›
  | cons x ev ih =>
    rw [firstError] at he
    split at he
    · split at he
      · cases he
      · rename_i h1 hact
        rcases ih he with hne | ⟨a, ha⟩
        · -- it is set by this action
          refine .inr ⟨x.2, ?_⟩
          have hplace : e = x.1 := by
            cases ev with
            | nil =>
              rw [firstError, if_neg hne] at he
              exact (Option.some.inj he).symm
            | cons y ev =>
              rw [firstError, if_neg hne] at he
              exact (Option.some.inj he).symm
          rw [hplace]
          exact List.mem_cons_self
        · exact .inr ⟨a, List.mem_cons_of_mem _ ha⟩
    · exact .inl ‹_›

/-- Behind actions that set no error the search goes on. -/
theorem firstError_append {text : Nat → UInt8} {ev : List (Nat × Action)} {h h' : HttpRequestParser}
    (hp : perform text h ev = .ok h') (herr : h'.error = 0) (ev' : List (Nat × Action)) :
    ∃ p', firstError text p h (ev ++ ev') = firstError text p' h' ev' := by
  induction ev generalizing p h with
  | nil =>
    cases hp
    exact ⟨p, rfl⟩
  | cons x ev ih =>
    obtain ⟨fpc, a⟩ := x
    have hzero : h.error = 0 := by
      by_contra hne
      exact (perform_frame hp).2.2 hne herr
    rw [perform] at hp
    rw [List.cons_append, firstError, if_pos hzero]
    cases hact : h.act text fpc a with
    | error f =>
      rw [hact] at hp
      cases hp
    | ok h1 =>
      rw [hact] at hp
      exact ih hp

/-- The loop over a stream in which an error is set ends in the read in which it is. -/
theorem recvLoop_fails (hs : stream.length < 2 ^ 31) (hsize : buffSize < 2 ^ 31) {ps : List (List UInt8)}
    {turns b : Nat} {h H : HttpRequestParser} {g : Places} (data : Nat → UInt8)
    (hready : Ready stream buffSize k b ps h H g) (ht : ps.flatten.length < turns)
    (herr : firstError (cstr stream) p H (events (cstr stream) ps.flatten.length b h.parser.cs) = some e)
    (hsp : ∀ j ∈ boundaries b ps, ∀ t ∈ spans (cstr stream) H g
      (events (cstr stream) (taken (some e) b ps) b h.parser.cs), Apart j t) :
    ∃ s, HttpSession.recvLoop buffSize turns h data 0 { input := ps } = .ok (none, s) := by
  obtain ⟨turns, rfl⟩ : ∃ t, turns = t + 1 := ⟨turns - 1, by omega⟩
  -- by induction on the pieces: before the read with the error nothing goes wrong
  induction ps generalizing turns b h H g data p with
  | nil => exact ⟨_, rfl⟩
  | cons q ps ih =>
    simp only [List.flatten_cons, List.length_append] at ht herr
    have htaken : ∃ m, taken (some e) b (q :: ps) = q.length + m := by
      rw [taken]
      split
      · exact ⟨0, rfl⟩
      · exact ⟨_, rfl⟩
    obtain ⟨m, htaken⟩ := htaken
    rw [htaken] at hsp
    obtain ⟨hqne, hle, h1, H1, n, hex, -, hP, hhalt, -, hkept, hnext⟩ := hready.turn data hs hsp
    have hq := List.length_pos_iff.2 hqne
    rw [recvLoop_cons hqne hle hex, toInt_of_lt hsize]
    by_cases herror : h1.hasError = true
    · rw [if_pos herror]
      exact ⟨_, rfl⟩
    -- no error so far: it is set by what is still to come, for which the machine has to be running
    have hzero : H1.error = 0 := by
      rw [← hkept]
      exact not_not.1 fun h0 => herror (hasError_iff.2 (.inl h0))
    by_cases hr : Running h1.parser.cs
    · obtain ⟨hnq, hready1, hsp1, hadd⟩ := hnext hr
      obtain ⟨turns, rfl⟩ : ∃ t, turns = t + 1 := ⟨turns - 1, by omega⟩
      obtain ⟨p', hfirst⟩ := firstError_append (p := p) hP hzero
        (events (cstr stream) ps.flatten.length (b + q.length) h1.parser.cs)
      rw [(hadd ps.flatten.length).1, hfirst] at herr
      have hlater : ¬ ∃ x ∈ some e, x < b + q.length := by
        rintro ⟨x, hx, hlt⟩
        cases hx
        obtain ⟨a, ha⟩ := (mem_of_firstError herr).resolve_left (not_not_intro hzero)
        exact absurd (mem_events _ ha).1 (Nat.not_le.2 hlt)
      rw [taken, if_neg hlater, Nat.add_left_cancel_iff] at htaken
      subst htaken
      have hfin : ¬ h1.isFinished = true := by
        rw [HttpRequestParser.isFinished, HttpParser.isFinished, hr.2]
        simp
      rw [if_neg herror, if_neg (by omega), if_neg hfin, show q.length - n = 0 by omega]
      exact ih _ hready1 herr hsp1 turns (by omega)
    · have hr' : ¬ Running (halt (cstr stream) q.length b h.parser.cs).1 := by rwa [hhalt]
      obtain ⟨hev, -⟩ := run_add_of_stopped (m := ps.flatten.length) hready.closes hready.running hr'
      obtain ⟨p', hfirst⟩ := firstError_append (p := p) hP hzero []
      rw [hev, ← List.append_nil (events ..), hfirst, firstError, if_pos hzero] at herr
      cases herr

end Error

/-! ## The result -/

set_option maxRecDepth 100000 in
theorem start_closes (relaxed : Bool) : ∃ k, (Grammar.main relaxed).start.Closes .done k := by
  refine ⟨_, fun e he => ⟨_, List.mem_singleton.1 he, ?_⟩⟩
  cases relaxed <;> decide

set_option maxRecDepth 100000 in
theorem start_running (relaxed : Bool) : Running (Grammar.main relaxed).start := by
  cases relaxed <;> decide

section Result

variable {env : Env} {stream : List UInt8}

/-- What `recvRequest` returns when the loop ended as the run over the stream. -/
theorem recvRequest_of_endsAs {H : HttpRequestParser} {r : State Action × Nat} {ps : List (List UInt8)}
    (hs : stream.length < 2 ^ 31)
    (hends : EndsAs stream H r
      (HttpSession.recvLoop env.bufferSize (ps.flatten.length + 1) env.object.new env.memory 0 { input := ps })) :
    (HttpSession.recvRequest env { input := ps }).map Prod.fst =
      .ok (if H.error = 0 ∧ r.1.final then withBody env.cast H.data (stream.drop r.2) else none) := by
  rw [HttpSession.recvRequest]
  rcases hres : HttpSession.recvLoop env.bufferSize (ps.flatten.length + 1) env.object.new env.memory 0
    { input := ps } with f | ⟨_ | ⟨h, data, offset⟩, s⟩
  · rw [hres] at hends
    cases hends
  · rw [hres] at hends
    simp only [Except.map]
    rw [if_neg hends]
  · rw [hres] at hends
    obtain ⟨hfin, hdata, hconn, hne, hrest⟩ := hends
    obtain ⟨qs, _⟩ := s
    subst hconn
    simp only [Except.map]
    rw [if_pos hfin, ← hdata, recvBody_spec hne hrest]
    rw [List.length_drop]
    omega

theorem Cutting.ready (c : Cutting env stream) : ∃ k,
    Ready stream env.bufferSize k 0 c.pieces env.object.new env.object.new {} := by
  obtain ⟨k, hcl⟩ := start_closes env.object.parser.uriRelaxed
  exact ⟨k, by rw [c.whole, List.drop_zero], c.nonempty, c.asked, start_running _, hcl, rfl,
    ⟨le_refl 0, le_refl 0, le_refl 0, le_refl 0⟩,
    ⟨rfl, rfl, fun _ => rfl, fun _ => rfl, fun _ => rfl, fun _ => (Nat.zero_add _).symm⟩⟩

/-- A session whose reads keep every token whole ends its loop as the run over the stream. -/
theorem Cutting.endsAs (hsize : env.bufferSize < 2 ^ 31) (hs : stream.length < 2 ^ 31) {c : Cutting env stream}
    (hc : c.KeepsTokens) :
    ∃ H, perform (cstr stream) env.object.new
        (events (cstr stream) stream.length 0 env.object.new.parser.cs) = .ok H ∧
      EndsAs stream H (halt (cstr stream) stream.length 0 env.object.new.parser.cs)
        (HttpSession.recvLoop env.bufferSize (c.pieces.flatten.length + 1) env.object.new env.memory 0
          { input := c.pieces }) := by
  obtain ⟨k, hready⟩ := c.ready
  have hlen : c.pieces.flatten.length = stream.length := by rw [c.whole]
  obtain ⟨H, hP, hends⟩ := recvLoop_spec hs hsize env.memory hready (Nat.lt_succ_self _)
    (by rw [hlen]; exact hc)
  refine ⟨H, hlen ▸ hP, ?_⟩
  rw [← hlen]
  exact hends

/-- A session whose reads keep every token whole returns what the stream holds. -/
theorem Cutting.request_eq (hsize : env.bufferSize < 2 ^ 31) (hs : stream.length < 2 ^ 31) {c : Cutting env stream}
    (hc : c.KeepsTokens) : c.request = requestOf env stream := by
  obtain ⟨H, hP, hends⟩ := c.endsAs hsize hs hc
  rw [request, requestOf, recvRequest_of_endsAs hs hends, hP]
  rfl

/-- Where an error is set, a session that takes its tokens whole until then returns `nullptr`. -/
theorem Cutting.request_eq_none (hsize : env.bufferSize < 2 ^ 31) (hs : stream.length < 2 ^ 31) {c : Cutting env stream}
    (hc : c.KeepsTaken) {e : Nat} (herr : firstError (cstr stream) 0 env.object.new
      (events (cstr stream) stream.length 0 env.object.new.parser.cs) = some e) : c.request = .ok none := by
  obtain ⟨k, hready⟩ := c.ready
  have hlen : c.pieces.flatten.length = stream.length := by rw [c.whole]
  rw [KeepsTaken, herr] at hc
  obtain ⟨s, hloop⟩ := recvLoop_fails hs hsize env.memory hready (Nat.lt_succ_self _)
    (by rw [hlen]; exact herr) hc
  rw [request, HttpSession.recvRequest, hloop]
  rfl

/-- `recvRequest` returns the same for any two ways of cutting a stream into reads by which the tokens that are taken
are kept whole. -/
theorem same_request_of_keepsTaken (hsize : env.bufferSize < 2 ^ 31) (hs : stream.length < 2 ^ 31)
    (c d : Cutting env stream) (hc : c.KeepsTaken) (hd : d.KeepsTaken) : c.request = d.request := by
  cases herr : firstError (cstr stream) 0 env.object.new
      (events (cstr stream) stream.length 0 env.object.new.parser.cs) with
  | none =>
    have hkeeps : ∀ c : Cutting env stream, c.KeepsTaken → c.KeepsTokens := by
      intro c hc
      rwa [Cutting.KeepsTaken, herr, taken_none, c.whole] at hc
    rw [c.request_eq hsize hs (hkeeps c hc), d.request_eq hsize hs (hkeeps d hd)]
  | some e => rw [c.request_eq_none hsize hs hc herr, d.request_eq_none hsize hs hd herr]

end Result

section Post

set_option maxRecDepth 100000

/-- A request with a body of two bytes. -/
def post : List UInt8 := bytes "POST /a HTTP/1.1\r\ncontent-length: 2\r\n\r\nhi"

/-- A server with the default buffer size whose memory is all zeros. -/
def zeroed : Env :=
  { bufferSize := 4 * 1024
    memory := fun _ => 0
    object := ⟨⟨[], 0, 0, 0, 0, 0, 0, 0, false, false, false⟩, {}, 0⟩
    cast := fun s => if s = bytes "2" then some 2 else none }

-- the method with the blank after it, the path, the version with its line end, the header's name and all of it
example : tokens zeroed.object post =
    [(0, 5), (5, 8), (8, 17), (18, 33), (18, 36), (32, 36), (34, 36)] := by decide

def postWhole : Cutting zeroed post := .ofPieces [post] (by decide) (by decide) (by decide)

def postLines : Cutting zeroed post :=
  .ofPieces
    [bytes "POST ", bytes "/a ", bytes "HTTP/1.1\r\n", bytes "content-length: 2\r", bytes "\n\r", bytes "\nh",
      bytes "i"]
    (by decide) (by decide) (by decide)

/-- The second read begins in the middle of `HTTP/1.1`. -/
def postSplit : Cutting zeroed post :=
  .ofPieces [bytes "POST /a HT", bytes "TP/1.1\r\ncontent-length: 2\r\n\r\nhi"] (by decide) (by decide) (by decide)

/-- A method that there is not: no token after it is taken. -/
def foo : List UInt8 := bytes "FOO /path HTTP/1.1\r\n\r\n"

def fooWhole : Cutting zeroed foo := .ofPieces [foo] (by decide) (by decide) (by decide)

/-- The third read begins in the middle of the path. -/
def fooSplit : Cutting zeroed foo :=
  .ofPieces [bytes "FOO ", bytes "/pa", bytes "th HTTP/1.1\r\n\r\n"] (by decide) (by decide) (by decide)

theorem same_request_of_keepsTaken_post :
    (postWhole.KeepsTaken ∧ postLines.KeepsTaken ∧ postWhole.request = postLines.request) ∧
    fooWhole.KeepsTaken ∧ fooSplit.KeepsTaken ∧ fooWhole.request = fooSplit.request := by
  have hw : postWhole.KeepsTaken := by decide
  have hl : postLines.KeepsTaken := by decide
  have hf : fooWhole.KeepsTaken := by decide
  have hs : fooSplit.KeepsTaken := by decide
  exact ⟨⟨hw, hl, same_request_of_keepsTaken (by decide) (by decide) _ _ hw hl⟩,
    hf, hs, same_request_of_keepsTaken (by decide) (by decide) _ _ hf hs⟩

/-- One read returns the request; two reads of which the second begins inside the version return
`nullptr`. -/
theorem split_version_rejected :
    postWhole.request = .ok (some
      { method := .post, path := bytes "/a", body := bytes "hi", headers := [(bytes "content-length", bytes "2")] }) ∧
    postSplit.request = .ok none := by
  constructor <;> decide

end Post

end ServerFrame.Http
