/-
The limits on the length of a body (`http.request.max_body_size`, `http.response.max_body_size`). Neither `recvRequest`
nor `recvResponse` asks `GetHttpRequestMaxBodySize()` or `GetHttpResponseMaxBodySize()` for its limit, so what is said
here is for any number in its place: what the string for the body grows to, and for which streams that is within it.
-/
import ServerFrame.Http.ChunkSize

namespace ServerFrame.Http

/-- What a limit asks of a call that receives a message: the string for the body never gets longer, nor is the body that
is returned, and for a message that is longer the socket is closed and nothing returned. -/
structure Enforced {ε α : Type} (max : Nat) (body : α → List UInt8) (sizes : List Nat) (oversized : Prop)
    (r : Except ε (Option α × Session)) : Prop where
  grown : ∀ n ∈ sizes, n ≤ max
  returned : ∀ m s, r = .ok (some m, s) → (body m).length ≤ max
  refused : oversized → ∃ s, r = .ok (none, s) ∧ s.connected = false

/-- `body.resize(length)` of an announced length, where that is positive as an `int64_t`. -/
def resized (length : Option Nat) : List Nat := length.toList.filter fun n => 0 < n ∧ n < 2 ^ 63

/-- The length that the header of a request announces, where it is received. -/
def HttpSession.announced (env : Env) (s : Session) : Option Nat :=
  match recvLoop env.bufferSize (s.input.flatten.length + 1) env.object.new env.memory 0 s with
  | .ok (some (parser, _, _), _) => some (parser.getContentLength env.cast).toNat
  | _ => none

namespace HttpConnection

/-- The length that the header of a response that is not in chunks announces, where it is received. -/
def announced (env : Env) (s : Session) : Option Nat :=
  match recvLoop env.bufferSize (s.input.flatten.length + 1) env.object.new env.memory 0 s with
  | .ok (some (parser, _, _), _) =>
    if parser.parser.chunked then none else some (parser.getContentLength env.cast).toNat
  | _ => none

/-! ## Chunks -/

/-- The count that `payloadLoop` reads at most, `left` bytes being missing. -/
def payloadCount (buffSize : Nat) (left : Int) : Nat := sizeT (if left > toInt buffSize then toInt buffSize else left)

/-- What `body.append` makes of a body of `size` bytes in `payloadLoop`. -/
def payloadSizes (buffSize : Nat) : Nat → Int → Nat → Session → List Nat
  | 0, _, _, _ => []
  | turns + 1, left, size, s =>
    let n := (s.read (payloadCount buffSize left)).1.length
    if left ≤ 0 ∨ n = 0 then []
    else (size + n) :: payloadSizes buffSize turns (left - n) (size + n) (s.read (payloadCount buffSize left)).2

/-- The number of bytes that `payloadLoop` gets. -/
def payloadTaken (buffSize : Nat) : Nat → Int → Session → Nat
  | 0, _, _ => 0
  | turns + 1, left, s =>
    let n := (s.read (payloadCount buffSize left)).1.length
    if left ≤ 0 ∨ n = 0 then 0
    else n + payloadTaken buffSize turns (left - n) (s.read (payloadCount buffSize left)).2

/-- A chunk as it stands behind its line: the number on the line, the bytes that are in the buffer, and the stream. -/
structure Arrival where
  contentLen : Int
  len : Nat
  stream : Session

namespace Arrival

variable (buffSize : Nat) (a : Arrival)

/-- The bytes that are read for a chunk that is not all in the buffer. -/
def taken : Nat :=
  payloadTaken buffSize ((a.contentLen - a.len + 2).toNat + 1) (a.contentLen - a.len + 2) a.stream

/-- What comes of the chunk: its size, where it is all in the buffer or too large for the sum of `content_len + 2`, and
else what there is of it and its line end. -/
def growth : Nat :=
  if 2 ^ 31 ≤ a.contentLen + 2 then a.contentLen.toNat
  else if a.contentLen + 2 ≤ a.len then if sizeT a.contentLen < 2 ^ 63 then sizeT a.contentLen else 0
  else a.len + a.taken buffSize

/-- What the chunks come to with this one behind `before` bytes, its line end taken off again. -/
def total (before : Nat) : Nat :=
  if a.contentLen + 2 ≤ a.len then before + a.growth buffSize else before + a.growth buffSize - 2

end Arrival

/-- What is left behind the rest of a chunk, `left` bytes of it being missing: the buffer and the stream. -/
def payloadRest (buffSize : Nat) : Nat → Int → (Nat → UInt8) → Session → Option ((Nat → UInt8) × Session)
  | 0, _, _, _ => none
  | turns + 1, left, data, s =>
    if left ≤ 0 then some (data, s)
    else
      let piece := (s.read (payloadCount buffSize left)).1
      if piece = [] then none
      else payloadRest buffSize turns (left - piece.length) (store data 0 piece) (s.read (payloadCount buffSize left)).2

/-- What is left behind a chunk: the buffer, the bytes in it and the stream. -/
def Arrival.behind (buffSize : Nat) (a : Arrival) (before : Nat) (data : Nat → UInt8) :
    Option ((Nat → UInt8) × Nat × Session) :=
  if 2 ^ 31 ≤ a.contentLen + 2 then none
  else if a.contentLen + 2 ≤ a.len then
    if sizeT a.contentLen < 2 ^ 63 then
      let n := a.contentLen.toNat + 2
      some (HttpRequestParser.memmove data n (a.len - n), a.len - n, a.stream)
    else none
  else if before + a.growth buffSize < 2 then none
  else (payloadRest buffSize ((a.contentLen - a.len + 2).toNat + 1) (a.contentLen - a.len + 2) data a.stream).map
    fun q => (q.1, 0, q.2)

/-- The chunks that stand in the stream, as their lines split it. -/
def loopArrivals (buffSize : Nat) : Nat → Nat → HttpResponseParser → (Nat → UInt8) → Nat → Session → List Arrival
  | 0, _, _, _, _, _ => []
  | turns + 1, before, parser, data, len, s =>
    match sizeLoop buffSize (s.input.flatten.length + 2) true parser data len s with
    | .ok (some (parser, data, len), s) =>
      ⟨parser.parser.contentLen, len, s⟩ ::
        match (Arrival.mk parser.parser.contentLen len s).behind buffSize before data with
        | some (data, len', s') =>
          if parser.parser.chunksDone then []
          else loopArrivals buffSize turns ((Arrival.mk parser.parser.contentLen len s).total buffSize before) parser
            data len' s'
        | none => []
    | _ => []

/-- With the chunks before it every chunk comes to the limit at most. -/
def Fits (buffSize max : Nat) : Nat → List Arrival → Prop
  | _, [] => True
  | before, a :: l => before + a.growth buffSize ≤ max ∧ Fits buffSize max (a.total buffSize before) l

/-- A chunk that the loop comes to, and the length of the body before it. -/
structure Head where
  size : Nat
  chunk : Arrival

/-- What the calls of `body.append` in `chunk` make of the body, except for one that throws. -/
def Head.sizes (buffSize : Nat) (h : Head) : List Nat :=
  if 2 ^ 31 ≤ h.chunk.contentLen + 2 then []
  else if h.chunk.contentLen + 2 ≤ h.chunk.len then
    if sizeT h.chunk.contentLen < 2 ^ 63 then [h.size + sizeT h.chunk.contentLen] else []
  else (h.size + h.chunk.len) ::
    payloadSizes buffSize ((h.chunk.contentLen - h.chunk.len + 2).toNat + 1) (h.chunk.contentLen - h.chunk.len + 2)
      (h.size + h.chunk.len) h.chunk.stream

/-- The chunks that `chunkLoop` comes to. -/
def loopHeads (buffSize : Nat) : Nat → HttpResponseParser → (Nat → UInt8) → Nat → List UInt8 → Session → List Head
  | 0, _, _, _, _, _ => []
  | turns + 1, parser, data, len, body, s =>
    match sizeLoop buffSize (s.input.flatten.length + 2) true parser data len s with
    | .ok (some (parser, data, len), s) =>
      ⟨body.length, ⟨parser.parser.contentLen, len, s⟩⟩ ::
        match chunk buffSize parser.parser.contentLen data len body s with
        | .ok (some (data, len, body), s) =>
          if parser.parser.chunksDone then [] else loopHeads buffSize turns parser data len body s
        | _ => []
    | _ => []

/-- The chunks of a response that `recvResponse` comes to. -/
def heads (env : Env) (s : Session) : List Head :=
  match recvLoop env.bufferSize (s.input.flatten.length + 1) env.object.new env.memory 0 s with
  | .ok (some (parser, data, offset), s) =>
    if parser.parser.chunked then
      loopHeads env.bufferSize (offset + s.input.flatten.length + 1) parser data offset [] s
    else []
  | _ => []

/-- The chunks of a response, none where it is not in chunks or its header is not received. -/
def arrivals (env : Env) (s : Session) : List Arrival :=
  match recvLoop env.bufferSize (s.input.flatten.length + 1) env.object.new env.memory 0 s with
  | .ok (some (parser, data, offset), s) =>
    if parser.parser.chunked then
      loopArrivals env.bufferSize (offset + s.input.flatten.length + 1) 0 parser data offset s
    else []
  | _ => []

/-! ## One chunk -/

section Chunk

variable {buffSize max turns size : Nat} {left : Int} {s s' : Session} {data data' : Nat → UInt8}
  {body body' : List UInt8}

theorem payloadSizes_le (hsize : size ≤ max) : (∀ n ∈ payloadSizes buffSize turns left size s, n ≤ max) ↔
    size + payloadTaken buffSize turns left s ≤ max := by
  induction turns generalizing left size s with
  | zero => exact iff_of_true (fun n hn => (List.not_mem_nil hn).elim) hsize
  | succ turns ih =>
    rw [payloadSizes, payloadTaken]
    split
    · exact iff_of_true (fun n hn => (List.not_mem_nil hn).elim) hsize
    · rw [List.forall_mem_cons, ← Nat.add_assoc]
      constructor
      · rintro ⟨hle, hrest⟩
        exact (ih hle).1 hrest
      · intro hle
        exact ⟨(Nat.le_add_right ..).trans hle, (ih ((Nat.le_add_right ..).trans hle)).2 hle⟩

/-- The rest of a chunk: where too little of it comes, the stream is closed, and else the body has what came. -/
theorem payloadLoop_spec (buffSize : Nat) (hturns : left < turns) (data : Nat → UInt8) (body : List UInt8)
    (s : Session) :
    ((payloadTaken buffSize turns left s : Int) < left →
      ∃ s', payloadLoop buffSize turns left data body s = (none, s') ∧ s'.connected = false) ∧
    ∀ data' body' s', payloadLoop buffSize turns left data body s = (some (data', body'), s') →
      body'.length = body.length + payloadTaken buffSize turns left s := by
  induction turns generalizing left data body s with
  | zero =>
    refine ⟨fun _ => ?_, fun data' body' s' hrun => by cases hrun⟩
    rw [payloadTaken] at *
    omega
  | succ turns ih =>
    rw [payloadLoop, payloadTaken]
    by_cases hleft : left ≤ 0
    · rw [if_pos hleft, if_pos (.inl hleft)]
      refine ⟨fun h => by omega, fun data' body' s' hrun => ?_⟩
      cases hrun
      rfl
    · rw [if_neg hleft, payloadCount]
      dsimp only
      generalize sizeT (if left > toInt buffSize then toInt buffSize else left) = count
      rcases s.read count with ⟨piece, s₁⟩
      cases piece with
      | nil =>
        rw [if_pos (.inr List.length_nil)]
        exact ⟨fun _ => ⟨s₁.close, rfl, rfl⟩, fun data' body' s' hrun => by cases hrun⟩
      | cons c piece =>
        have hpos : 0 < (c :: piece).length := Nat.succ_pos _
        have hgo : ¬ (left ≤ 0 ∨ (c :: piece).length = 0) := by omega
        obtain ⟨hshort, hbody⟩ :=
          @ih (left - (c :: piece).length) (by omega) (store data 0 (c :: piece)) (body ++ c :: piece) s₁
        dsimp only
        rw [if_neg hgo]
        refine ⟨fun h => hshort (by omega), fun data' body' s' hrun => ?_⟩
        rw [hbody data' body' s' hrun, List.length_append, Nat.add_assoc]

/-- The rest of a chunk leaves what it leaves, whatever body it is appended to. -/
theorem payloadRest_eq (buffSize : Nat) (data : Nat → UInt8) (body : List UInt8) (s : Session) :
    payloadRest buffSize turns left data s =
      (payloadLoop buffSize turns left data body s).1.map fun q =>
        (q.1, (payloadLoop buffSize turns left data body s).2) := by
  induction turns generalizing left data body s with
  | zero => rfl
  | succ turns ih =>
    rw [payloadRest, payloadLoop, payloadCount]
    by_cases hleft : left ≤ 0
    · rw [if_pos hleft, if_pos hleft]
      rfl
    · rw [if_neg hleft, if_neg hleft]
      dsimp only
      generalize sizeT (if left > toInt buffSize then toInt buffSize else left) = count
      rcases s.read count with ⟨piece, s₁⟩
      cases piece with
      | nil => rfl
      | cons c piece => exact ih ..

theorem sizeT_of_nonneg {c : Int} (h0 : 0 ≤ c) (h64 : c < 2 ^ 64) : sizeT c = c.toNat := by
  obtain ⟨n, rfl⟩ := Int.eq_ofNat_of_zero_le h0
  rw [sizeT_natCast (by omega), Int.toNat_natCast]

theorem lt_turns (left : Int) : left < ((left.toNat + 1 : Nat) : Int) := by
  omega

variable (buffSize) (c : Int) (data) (len : Nat) (body) (s)

/-- A chunk that is taken leaves what stands behind it, and in the body what the chunks come to. -/
theorem chunk_behind {len' : Nat} (hrun : chunk buffSize c data len body s = .ok (some (data', len', body'), s')) :
    (Arrival.mk c len s).behind buffSize body.length data = some (data', len', s') ∧
      body'.length = (Arrival.mk c len s).total buffSize body.length := by
  rw [chunk] at hrun
  rw [Arrival.behind, Arrival.total, Arrival.growth]
  dsimp only
  split at hrun
  · cases hrun
  · rename_i hover
    rw [if_neg hover, if_neg hover]
    split at hrun
    · rename_i hall
      rw [if_pos hall, if_pos hall, if_pos hall]
      split at hrun
      · cases hrun
      · rename_i hpayload
        cases hrun
        rw [mkString] at hpayload
        split at hpayload
        · rename_i hlt
          cases hpayload
          rw [if_pos hlt, if_pos hlt, List.length_append, length_slice]
          exact ⟨rfl, rfl⟩
        · cases hpayload
    · rename_i hall
      rw [if_neg hall, if_neg hall, if_neg hall, payloadRest_eq _ _ (body ++ slice data 0 len)]
      have hspec := (payloadLoop_spec buffSize (lt_turns (c - len + 2)) data (body ++ slice data 0 len) s).2
      dsimp only at hrun
      split at hrun
      · cases hrun
      · rename_i hloop
        have hlen := hspec _ _ _ hloop
        rw [List.length_append, length_slice] at hlen
        split at hrun
        · cases hrun
        · cases hrun
          rw [hloop, List.length_take, Arrival.taken]
          dsimp only
          rw [if_neg (by omega)]
          exact ⟨rfl, by omega⟩

/-- Behind a chunk that is not taken nothing is left. -/
theorem behind_eq_none (hrun : ∀ q t, chunk buffSize c data len body s ≠ .ok (some q, t)) :
    (Arrival.mk c len s).behind buffSize body.length data = none := by
  rw [chunk] at hrun
  rw [Arrival.behind, Arrival.growth]
  dsimp only
  split
  · rfl
  · rename_i hover
    rw [if_neg hover] at hrun
    split
    · rename_i hall
      rw [if_pos hall, mkString] at hrun
      split
      · rename_i hlt
        rw [if_pos hlt] at hrun
        exact absurd rfl (hrun _ _)
      · rfl
    · rename_i hall
      rw [if_neg hall] at hrun
      have hspec := (payloadLoop_spec buffSize (lt_turns (c - len + 2)) data (body ++ slice data 0 len) s).2
      rw [payloadRest_eq _ _ (body ++ slice data 0 len)]
      split
      · rfl
      · rename_i hlong
        rcases hloop : payloadLoop buffSize ((c - len + 2).toNat + 1) (c - len + 2) data (body ++ slice data 0 len)
          s with ⟨_ | ⟨data', body'⟩, t⟩
        · rfl
        · have hlen := hspec _ _ _ hloop
          rw [List.length_append, length_slice] at hlen
          rw [Arrival.taken] at hlong
          dsimp only at hlong hrun
          rw [hloop] at hrun
          dsimp only at hrun
          rw [if_neg (by omega)] at hrun
          exact absurd rfl (hrun _ _)

theorem total_le (a : Arrival) (before : Nat) : a.total buffSize before ≤ before + a.growth buffSize := by
  rw [Arrival.total]
  split
  · exact le_rfl
  · exact Nat.sub_le _ _

/-- A chunk that would make the body too long, but does not: too little of it comes. -/
theorem chunk_refused (hfits : body.length + (Arrival.mk c len s).growth buffSize ≤ max)
    (hover : (max : Int) < body.length + c) :
    ∃ s', chunk buffSize c data len body s = .ok (none, s') ∧ s'.connected = false := by
  rw [Arrival.growth] at hfits
  dsimp only at hfits
  rw [chunk]
  split at hfits
  · omega
  · rename_i hsum
    rw [if_neg hsum]
    split at hfits
    · rw [sizeT_of_nonneg (by omega) (by omega)] at hfits
      rw [if_pos (by omega)] at hfits
      omega
    · rename_i hall
      rw [if_neg hall]
      rw [Arrival.taken] at hfits
      dsimp only at hfits
      obtain ⟨s', hloop, hclosed⟩ := (payloadLoop_spec buffSize (lt_turns (c - len + 2)) data
        (body ++ slice data 0 len) s).1 (by omega)
      dsimp only
      rw [hloop]
      exact ⟨s', rfl, hclosed⟩

/-- The body keeps within the limit while a chunk is taken, exactly if it grows no further; of a chunk whose size is too
large for the sum, this is said of what it would grow to. -/
theorem head_sizes (hsize : body.length ≤ max)
    (hsum : (max : Int) < body.length + c → ∀ f, chunk buffSize c data len body s ≠ .error f) :
    (∀ n ∈ (Head.mk body.length ⟨c, len, s⟩).sizes buffSize, n ≤ max) ↔
      body.length + (Arrival.mk c len s).growth buffSize ≤ max := by
  rw [Head.sizes, Arrival.growth]
  dsimp only
  split
  · rename_i hover
    refine iff_of_true (fun n hn => (List.not_mem_nil hn).elim) ?_
    by_contra hlt
    exact hsum (by omega) .overflow (if_pos hover)
  · split
    · split
      · rw [List.forall_mem_singleton]
      · exact iff_of_true (fun n hn => (List.not_mem_nil hn).elim) hsize
    · rw [List.forall_mem_cons, Arrival.taken, ← Nat.add_assoc]
      dsimp only
      constructor
      · rintro ⟨hle, hrest⟩
        exact (payloadSizes_le hle).1 hrest
      · intro hle
        have hlen := (Nat.le_add_right ..).trans hle
        exact ⟨hlen, (payloadSizes_le hlen).2 hle⟩

/-- Where a chunk does not fault, nothing is said of sums. -/
theorem head_sizes_ok (hsize : body.length ≤ max) {r : Option ((Nat → UInt8) × Nat × List UInt8) × Session}
    (hrun : chunk buffSize c data len body s = .ok r) :
    (∀ n ∈ (Head.mk body.length ⟨c, len, s⟩).sizes buffSize, n ≤ max) ↔
      body.length + (Arrival.mk c len s).growth buffSize ≤ max :=
  head_sizes buffSize s data body c len hsize fun _ f h => by cases hrun.symm.trans h

end Chunk

/-! ## All chunks -/

section Loop

variable {buffSize max : Nat}

/-- The head is one of a chunk that makes the body longer than the limit. -/
def Oversized (max : Nat) (l : List Head) : Prop := ∃ h ∈ l, (max : Int) < h.size + h.chunk.contentLen

/-- Where no chunk is come to and no body returned, the limit is kept. -/
theorem enforced_nil {ε α : Type} {b : α → List UInt8} {r : Except ε (Option α × Session)}
    (hr : ∀ m s, r ≠ .ok (some m, s)) :
    Enforced max b (([] : List Head).flatMap (Head.sizes buffSize)) (Oversized max []) r ↔
      ∀ h ∈ ([] : List Head), h.size + h.chunk.growth buffSize ≤ max := by
  refine iff_of_true ⟨fun n hn => (List.not_mem_nil hn).elim, fun m s h => (hr m s h).elim, ?_⟩ fun h hh =>
    (List.not_mem_nil hh).elim
  rintro ⟨h, hh, -⟩
  exact (List.not_mem_nil hh).elim

/-- One chunk, and the chunks behind it. -/
theorem enforced_cons {ε α : Type} {b : α → List UInt8} {r : Except ε (Option α × Session)} {h : Head} {l : List Head}
    (hhead : (∀ n ∈ h.sizes buffSize, n ≤ max) ∧
      ((max : Int) < h.size + h.chunk.contentLen → ∃ s, r = .ok (none, s) ∧ s.connected = false) ↔
        h.size + h.chunk.growth buffSize ≤ max)
    (hrest : h.size + h.chunk.growth buffSize ≤ max →
      (Enforced max b (l.flatMap (Head.sizes buffSize)) (Oversized max l) r ↔
        ∀ h ∈ l, h.size + h.chunk.growth buffSize ≤ max)) :
    Enforced max b ((h :: l).flatMap (Head.sizes buffSize)) (Oversized max (h :: l)) r ↔
      ∀ g ∈ h :: l, g.size + g.chunk.growth buffSize ≤ max := by
  rw [List.flatMap_cons, List.forall_mem_cons]
  constructor
  · rintro ⟨hgrown, hreturned, hrefused⟩
    rw [List.forall_mem_append] at hgrown
    have hfits := hhead.1 ⟨hgrown.1, fun hover => hrefused ⟨h, List.mem_cons_self, hover⟩⟩
    refine ⟨hfits, (hrest hfits).1 ⟨hgrown.2, hreturned, ?_⟩⟩
    rintro ⟨h', hh', hover⟩
    exact hrefused ⟨h', List.mem_cons_of_mem _ hh', hover⟩
  · rintro ⟨hfits, hl⟩
    obtain ⟨hgrown, hreturned, hrefused⟩ := (hrest hfits).2 hl
    obtain ⟨hsizes, hover⟩ := hhead.2 hfits
    refine ⟨List.forall_mem_append.2 ⟨hsizes, hgrown⟩, hreturned, ?_⟩
    rintro ⟨h', hh', hlarge⟩
    rcases List.mem_cons.1 hh' with rfl | hh'
    · exact hover hlarge
    · exact hrefused ⟨h', hh', hlarge⟩

/-- The loop over the chunks keeps within the limit exactly if the body grows within it at every chunk. -/
theorem chunkLoop_enforced (turns : Nat) (parser : HttpResponseParser) (data : Nat → UInt8) (len : Nat)
    {body : List UInt8} (s : Session) (hsize : body.length ≤ max) :
    Enforced max Prod.snd ((loopHeads buffSize turns parser data len body s).flatMap (Head.sizes buffSize))
        (Oversized max (loopHeads buffSize turns parser data len body s))
        (chunkLoop buffSize turns parser data len body s) ↔
      ∀ h ∈ loopHeads buffSize turns parser data len body s, h.size + h.chunk.growth buffSize ≤ max := by
  induction turns generalizing parser data len body s with
  | zero => exact enforced_nil fun m s h => by cases h
  | succ turns ih =>
    rw [chunkLoop, loopHeads]
    generalize sizeLoop buffSize (s.input.flatten.length + 2) true parser data len s = found
    rcases found with f | ⟨_ | ⟨parser, data, len⟩, s⟩
    · exact enforced_nil fun m s h => by cases h
    · exact enforced_nil fun m s h => by cases h
    · dsimp only
      rcases hchunk : chunk buffSize parser.parser.contentLen data len body s with f | ⟨_ | ⟨data', len', body'⟩, s'⟩
      · -- the chunk faults
        refine enforced_cons ?_ fun _ => enforced_nil fun m s h => by cases h
        constructor
        · rintro ⟨hsizes, hover⟩
          refine (head_sizes buffSize s data body _ len hsize fun hlarge => ?_).1 hsizes
          obtain ⟨s', hs', -⟩ := hover hlarge
          cases hs'
        · intro hfits
          have hsmall : ¬ (max : Int) < body.length + parser.parser.contentLen := by
            intro hlarge
            obtain ⟨s', hs', -⟩ := chunk_refused buffSize s data body _ len hfits hlarge
            cases hchunk.symm.trans hs'
          exact ⟨(head_sizes buffSize s data body _ len hsize fun hlarge => (hsmall hlarge).elim).2 hfits,
            fun hlarge => (hsmall hlarge).elim⟩
      · -- the stream ends in the chunk
        have hsizes := head_sizes_ok buffSize s data body _ len hsize hchunk
        refine enforced_cons ?_ fun _ => enforced_nil fun m s h => by cases h
        constructor
        · rintro ⟨hgrown, -⟩
          exact hsizes.1 hgrown
        · intro hfits
          refine ⟨hsizes.2 hfits, fun hlarge => ?_⟩
          obtain ⟨t, ht, hclosed⟩ := chunk_refused buffSize s data body _ len hfits hlarge
          cases hchunk.symm.trans ht
          exact ⟨s', rfl, hclosed⟩
      · -- the chunk is taken
        have hsizes := head_sizes_ok buffSize s data body _ len hsize hchunk
        refine enforced_cons ?_ fun hfits => ?_
        · constructor
          · rintro ⟨hgrown, -⟩
            exact hsizes.1 hgrown
          · intro hfits
            refine ⟨hsizes.2 hfits, fun hlarge => ?_⟩
            obtain ⟨t, ht, -⟩ := chunk_refused buffSize s data body _ len hfits hlarge
            cases hchunk.symm.trans ht
        · have hlength : body'.length ≤ max :=
            ((chunk_behind buffSize s data body _ len hchunk).2.trans_le (total_le ..)).trans hfits
          dsimp only
          split
          · refine iff_of_true ⟨fun n hn => (List.not_mem_nil hn).elim, fun m s h => ?_, ?_⟩ fun h hh =>
              (List.not_mem_nil hh).elim
            · cases h
              exact hlength
            · rintro ⟨h, hh, -⟩
              exact (List.not_mem_nil hh).elim
          · exact ih parser data' len' s' hlength

/-- At every chunk the body has the bytes that the chunks before it have come to. -/
theorem loopHeads_fits (turns : Nat) (parser : HttpResponseParser) (data : Nat → UInt8) (len : Nat) (body : List UInt8)
    (s : Session) : (∀ h ∈ loopHeads buffSize turns parser data len body s, h.size + h.chunk.growth buffSize ≤ max) ↔
      Fits buffSize max body.length (loopArrivals buffSize turns body.length parser data len s) := by
  induction turns generalizing parser data len body s with
  | zero => exact iff_of_true (fun h hh => (List.not_mem_nil hh).elim) trivial
  | succ turns ih =>
    rw [loopHeads, loopArrivals]
    generalize sizeLoop buffSize (s.input.flatten.length + 2) true parser data len s = found
    rcases found with f | ⟨_ | ⟨parser, data, len⟩, s⟩
    · exact iff_of_true (fun h hh => (List.not_mem_nil hh).elim) trivial
    · exact iff_of_true (fun h hh => (List.not_mem_nil hh).elim) trivial
    · dsimp only
      rw [List.forall_mem_cons, Fits]
      refine and_congr_right fun _ => ?_
      have hend : (∀ h ∈ ([] : List Head), h.size + h.chunk.growth buffSize ≤ max) ↔
          Fits buffSize max ((Arrival.mk parser.parser.contentLen len s).total buffSize body.length) [] :=
        iff_of_true (fun h hh => (List.not_mem_nil hh).elim) trivial
      rcases hchunk : chunk buffSize parser.parser.contentLen data len body s with f | ⟨_ | ⟨data', len', body'⟩, s'⟩
      · rw [behind_eq_none buffSize s data body _ len fun q t ht => by cases hchunk.symm.trans ht]
        exact hend
      · rw [behind_eq_none buffSize s data body _ len fun q t ht => by cases hchunk.symm.trans ht]
        exact hend
      · obtain ⟨hbehind, hlength⟩ := chunk_behind buffSize s data body _ len hchunk
        rw [hbehind, ← hlength]
        dsimp only
        split
        · exact iff_of_true (fun h hh => (List.not_mem_nil hh).elim) trivial
        · exact ih parser data' len' body' s'

theorem heads_fits (env : Env) (s : Session) :
    (∀ h ∈ heads env s, h.size + h.chunk.growth env.bufferSize ≤ max) ↔ Fits env.bufferSize max 0 (arrivals env s) := by
  unfold heads arrivals
  rcases recvLoop env.bufferSize (s.input.flatten.length + 1) env.object.new env.memory 0 s with
    f | ⟨_ | ⟨parser, data, offset⟩, s'⟩
  · exact iff_of_true (fun h hh => (List.not_mem_nil hh).elim) trivial
  · exact iff_of_true (fun h hh => (List.not_mem_nil hh).elim) trivial
  · dsimp only
    split
    · exact loopHeads_fits _ _ _ _ [] _
    · exact iff_of_true (fun h hh => (List.not_mem_nil hh).elim) trivial

end Loop

end HttpConnection

/-! ## The parsers and the body -/

/-- No call of the parser touches the body of the request. -/
theorem HttpRequestParser.execute_body {h h' : HttpRequestParser} {data data' : Nat → UInt8} {len n : Nat}
    (hex : h.execute data len = .ok (h', data', n)) : h'.data.body = h.data.body := by
  obtain ⟨-, -, ⟨-, rfl⟩ | ⟨h₁, hperform, -, rfl⟩⟩ := execute_ok hex
  · rfl
  · exact (perform_message hperform).1

theorem HttpSession.recvLoop_body {buffSize turns offset offset' : Nat} {h h' : HttpRequestParser}
    {data data' : Nat → UInt8} {s s' : Session}
    (hloop : recvLoop buffSize turns h data offset s = .ok (some (h', data', offset'), s')) :
    h'.data.body = h.data.body := by
  induction turns generalizing h data offset s with
  | zero => cases hloop
  | succ turns ih =>
    rw [recvLoop] at hloop
    split at hloop
    · cases hloop
    · simp only at hloop
      split at hloop
      · cases hloop
      · rename_i hex
        have hbody := HttpRequestParser.execute_body hex
        split at hloop
        · cases hloop
        · split at hloop
          · cases hloop
          · split at hloop
            · cases hloop
              exact hbody
            · exact (ih hloop).trans hbody

namespace HttpConnection

theorem chunkLoop_body {buffSize turns len : Nat} {h h' : HttpResponseParser} {data : Nat → UInt8}
    {body body' : List UInt8} {s s' : Session}
    (hloop : chunkLoop buffSize turns h data len body s = .ok (some (h', body'), s')) :
    h'.data.body = h.data.body := by
  induction turns generalizing h data len body s with
  | zero => cases hloop
  | succ turns ih =>
    rw [chunkLoop] at hloop
    split at hloop
    · cases hloop
    · cases hloop
    · rename_i parser₁ data₁ len₁ s₁ hsize
      have hbody : parser₁.data.body = h.data.body := by
        obtain ⟨h₀, _, _, _, hkept, hex, -⟩ :=
          sizeLoop_execute (P := fun g => g.data.body = h.data.body)
            (fun hp hex => (execute_body hex).trans hp) rfl hsize
        exact (execute_body hex).trans hkept
      split at hloop
      · cases hloop
      · cases hloop
      · split at hloop
        · cases hloop
          exact hbody
        · exact (ih hloop).trans hbody

end HttpConnection

/-! ## The limits -/

section Limits

variable {max L : Nat}

/-- The limit is kept for a message made of one with the same body. -/
theorem Enforced.map {ε α β : Type} {b : α → List UInt8} {b' : β → List UInt8} (f : α → β) {sizes : List Nat} {p : Prop}
    {r : Except ε (Option α × Session)} (hf : ∀ m s, r = .ok (some m, s) → b' (f m) = b m) :
    Enforced max b' sizes p (r.map fun x => (x.1.map f, x.2)) ↔ Enforced max b sizes p r := by
  have hnone : ∀ s, r.map (fun x => (x.1.map f, x.2)) = .ok (none, s) ↔ r = .ok (none, s) := by
    intro s
    rcases r with e | ⟨_ | m, t⟩ <;> simp [Except.map]
  have hsome : ∀ m' s,
      r.map (fun x => (x.1.map f, x.2)) = .ok (some m', s) ↔ ∃ m, r = .ok (some m, s) ∧ f m = m' := by
    intro m' s
    rcases r with e | ⟨_ | m, t⟩ <;> simp [Except.map, and_comm]
  constructor
  · rintro ⟨hgrown, hreturned, hrefused⟩
    refine ⟨hgrown, fun m s hm => ?_, fun hp => ?_⟩
    · rw [← hf m s hm]
      exact hreturned _ s ((hsome _ s).2 ⟨m, hm, rfl⟩)
    · obtain ⟨s, hs, hclosed⟩ := hrefused hp
      exact ⟨s, (hnone s).1 hs, hclosed⟩
  · rintro ⟨hgrown, hreturned, hrefused⟩
    refine ⟨hgrown, fun m' s hm' => ?_, fun hp => ?_⟩
    · obtain ⟨m, hm, rfl⟩ := (hsome m' s).1 hm'
      rw [hf m s hm]
      exact hreturned m s hm
    · obtain ⟨s, hs, hclosed⟩ := hrefused hp
      exact ⟨s, (hnone s).2 hs, hclosed⟩

/-- A message with an announced length, of which as much is returned at most, keeps within the limit exactly if the
length is. From `2 ^ 63` on, the length is not taken for one, and something is returned. -/
theorem enforced_announced {ε α : Type} {b : α → List UInt8} {r : Option α × Session}
    (hshort : ∀ m, r.1 = some m → (b m).length ≤ L) (hlong : 2 ^ 63 ≤ L → ∃ m, r.1 = some m) :
    Enforced max b (resized (some L)) (∃ n ∈ some L, max < n) (.ok r : Except ε (Option α × Session)) ↔
      ∀ n ∈ some L, n ≤ max := by
  constructor
  · rintro ⟨hgrown, -, hrefused⟩ n hn
    cases hn
    by_contra hover
    obtain ⟨s, hs, -⟩ := hrefused ⟨L, rfl, Nat.lt_of_not_le hover⟩
    cases hs
    rcases Nat.lt_or_ge L (2 ^ 63) with hlt | hge
    · refine hover (hgrown L (List.mem_filter.2 ⟨List.mem_singleton_self L, decide_eq_true ⟨?_, hlt⟩⟩))
      omega
    · obtain ⟨m, hm⟩ := hlong hge
      cases hm
  · intro hle
    have hL := hle L rfl
    refine ⟨fun n hn => ?_, fun m s h => ?_, ?_⟩
    · rw [List.mem_singleton.1 (List.mem_filter.1 hn).1]
      exact hL
    · cases h
      exact (hshort m rfl).trans hL
    · rintro ⟨n, hn, hover⟩
      cases hn
      omega

theorem Session.length_readFixSize {s s' : Session} {n : Nat} {rest : List UInt8}
    (h : s.readFixSize n = (some rest, s')) : rest.length = n := by
  obtain ⟨hread, hfail⟩ := s.readLoop_available [] (Nat.lt_succ_self n)
  rw [Session.readFixSize] at h
  rcases Nat.lt_or_ge s.available.length n with hlt | hge
  · obtain ⟨t, ht⟩ := hfail hlt
    rw [ht] at h
    cases h
  · obtain ⟨t, ht, -⟩ := hread hge
    rw [ht] at h
    dsimp only at h
    split at h
    · cases h
    · cases h
      rw [List.nil_append, List.length_take, Nat.min_eq_left hge]

/-- Where nothing is received, nothing is asked. -/
theorem enforced_none {ε α : Type} {b : α → List UInt8} {r : Except ε (Option α × Session)}
    (hr : ∀ m s, r ≠ .ok (some m, s)) :
    Enforced max b (resized none) (∃ n ∈ (none : Option Nat), max < n) r ↔ ∀ n ∈ (none : Option Nat), n ≤ max := by
  refine iff_of_true ⟨fun n hn => (List.not_mem_nil hn).elim, fun m s h => (hr m s h).elim, ?_⟩ fun n hn => by cases hn
  rintro ⟨n, hn, -⟩
  cases hn

theorem HttpSession.limit_iff (env : Env) (s : Session) :
    Enforced max HttpRequest.body (resized (announced env s)) (∃ n ∈ announced env s, max < n) (recvRequest env s) ↔
      ∀ n ∈ announced env s, n ≤ max := by
  unfold announced recvRequest
  rcases hloop : recvLoop env.bufferSize (s.input.flatten.length + 1) env.object.new env.memory 0 s with
    f | ⟨_ | ⟨parser, data, offset⟩, s'⟩
  · exact enforced_none fun m s h => by cases h
  · exact enforced_none fun m s h => by cases h
  · dsimp only
    have hbody : parser.data.body = [] := recvLoop_body hloop
    refine enforced_announced (fun m hm => ?_) fun hlong => ?_
    · rw [recvBody] at hm
      dsimp only at hm
      split at hm
      · rename_i hpos
        split at hm
        · cases hm
          exact (length_slice ..).le
        · rename_i hlt
          split at hm
          · cases hm
          · rename_i hread
            cases hm
            have hrest := Session.length_readFixSize hread
            dsimp only
            rw [List.length_append, length_slice, hrest]
            omega
      · cases hm
        rw [hbody]
        exact Nat.zero_le _
    · refine ⟨parser.data, ?_⟩
      rw [recvBody]
      dsimp only
      rw [if_neg (by omega)]

namespace HttpConnection

theorem body_withBody {d : HttpResponse} (hd : d.body = []) (text : List UInt8) : (withBody d text).body = text := by
  rw [withBody]
  split
  · rename_i hnil
    rw [hd, hnil]
  · rfl

theorem recvBody_enforced (cast : List UInt8 → Option UInt64) {parser : HttpResponseParser}
    (hbody : parser.data.body = []) (data : Nat → UInt8) (offset : Nat) (s : Session) :
    Enforced max HttpResponse.body (resized (some (parser.getContentLength cast).toNat))
        (∃ n ∈ some (parser.getContentLength cast).toNat, max < n)
        (.ok (recvBody cast parser data offset s) : Except ClientFault _) ↔
      ∀ n ∈ some (parser.getContentLength cast).toNat, n ≤ max := by
  have hwith := body_withBody hbody
  refine enforced_announced (fun m hm => ?_) fun hlong => ?_
  · rw [recvBody] at hm
    split at hm
    · rename_i hpos
      split at hm
      · cases hm
        rw [hwith, length_slice]
      · rename_i hlt
        split at hm
        · cases hm
        · rename_i hread
          cases hm
          have hrest := Session.length_readFixSize hread
          rw [hwith, List.length_append, length_slice, hrest]
          omega
    · cases hm
      rw [hwith]
      exact Nat.zero_le _
  · refine ⟨withBody parser.data [], ?_⟩
    rw [recvBody]
    rw [if_neg (by omega)]

/-- The sizes that `recvResponse` gives to the body. -/
def sizes (env : Env) (s : Session) : List Nat :=
  resized (announced env s) ++ (heads env s).flatMap (Head.sizes env.bufferSize)

/-- A response is longer than the limit: its header says so, or one of its chunks makes it so. -/
def TooLong (max : Nat) (env : Env) (s : Session) : Prop :=
  (∃ n ∈ announced env s, max < n) ∨ Oversized max (heads env s)

theorem limit_iff (env : Env) (s : Session) :
    Enforced max HttpResponse.body (sizes env s) (TooLong max env s) (recvResponse env s) ↔
      (∀ n ∈ announced env s, n ≤ max) ∧ ∀ h ∈ heads env s, h.size + h.chunk.growth env.bufferSize ≤ max := by
  have hnone : ∀ p : Prop, ((∃ n ∈ (none : Option Nat), max < n) ∨ p) = p := by
    intro p
    simp
  have hnil : ∀ p : Prop, (p ∨ Oversized max []) = p := by
    intro p
    simp [Oversized]
  have hall : ∀ p : Prop, ((∀ n ∈ (none : Option Nat), n ≤ max) ∧ p) = p := by
    intro p
    simp
  have hresized : resized none = [] := rfl
  unfold sizes TooLong announced heads recvResponse
  rcases hloop : recvLoop env.bufferSize (s.input.flatten.length + 1) env.object.new env.memory 0 s with
    f | ⟨_ | ⟨parser, data, offset⟩, s'⟩
  · dsimp only
    rw [hresized, hnone, hall, List.nil_append]
    exact enforced_nil fun m s h => by cases h
  · dsimp only
    rw [hresized, hnone, hall, List.nil_append]
    exact enforced_nil fun m s h => by cases h
  · dsimp only
    have hbody : parser.data.body = [] := (recvLoop_break (Nat.zero_le _) hloop).2.1
    by_cases hchunked : parser.parser.chunked = true
    · simp only [hchunked, if_true]
      rw [hresized, hnone, hall, List.nil_append, ← chunkLoop_enforced _ _ _ _ _ (Nat.zero_le max)]
      rw [← Enforced.map (fun q : HttpResponseParser × List UInt8 => withBody q.1.data q.2) fun q t hrun => ?_]
      · rcases chunkLoop env.bufferSize (offset + s'.input.flatten.length + 1) parser data offset [] s' with
          f | ⟨_ | q, t⟩ <;> rfl
      · exact body_withBody ((chunkLoop_body hrun).trans hbody) q.2
    · simp only [hchunked, Bool.false_eq_true, if_false]
      rw [hnil, List.flatMap_nil, List.append_nil, recvBody_enforced env.cast hbody]
      exact (and_iff_left fun h hh => (List.not_mem_nil hh).elim).symm

end HttpConnection

end Limits

/-- Whatever the limits are: a request keeps within its limit exactly if no longer body is announced, and a response
exactly if no longer one is announced and, in chunks, what comes of them is no more. -/
theorem body_limit_iff (max : Nat) (env : Env) (conn : HttpConnection.Env) (s : Session) :
    (Enforced max HttpRequest.body (resized (HttpSession.announced env s)) (∃ n ∈ HttpSession.announced env s, max < n)
          (HttpSession.recvRequest env s) ↔
        ∀ n ∈ HttpSession.announced env s, n ≤ max) ∧
    (Enforced max HttpResponse.body (HttpConnection.sizes conn s) (HttpConnection.TooLong max conn s)
          (HttpConnection.recvResponse conn s) ↔
        (∀ n ∈ HttpConnection.announced conn s, n ≤ max) ∧
          HttpConnection.Fits conn.bufferSize max 0 (HttpConnection.arrivals conn s)) := by
  constructor
  · exact HttpSession.limit_iff env s
  · rw [← HttpConnection.heads_fits]
    exact HttpConnection.limit_iff conn s

set_option maxRecDepth 100000 in
/-- A request with a body of two bytes, where the limit is one. -/
theorem two_bytes_not_limited : ¬ ((∀ (max : Nat) (env : Env) (s : Session),
      Enforced max HttpRequest.body (resized (HttpSession.announced env s)) (∃ n ∈ HttpSession.announced env s, max < n)
        (HttpSession.recvRequest env s)) ∧
    ∀ (max : Nat) (env : HttpConnection.Env) (s : Session),
      Enforced max HttpResponse.body (HttpConnection.sizes env s) (HttpConnection.TooLong max env s)
        (HttpConnection.recvResponse env s)) := by
  rintro ⟨h, -⟩
  have hgrown := (h 1 server { input := [bytes "POST / HTTP/1.1\r\ncontent-length: 2\r\n\r\nhi"] }).grown 2 (by decide)
  omega

end ServerFrame.Http
