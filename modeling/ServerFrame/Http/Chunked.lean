/-
Responses in chunks. `recvResponse` parses every line with the size of a chunk from the start state, also when its end
comes with a later read than its beginning; where each line is whole in the buffer when it is first parsed, the body is
what the chunks hold.
-/
import ServerFrame.Http.HeaderEnd

namespace ServerFrame.Http

open Ragel CLib

/-- A chunk as it is sent: the digits of its size and its bytes. The last one has no bytes. -/
structure Chunk where
  digits : List UInt8
  payload : List UInt8
  digits_ne : digits ≠ []
  hex : ∀ d ∈ digits, digitValue d < 16
  size : value 16 digits = payload.length
  fits : payload.length < 2 ^ 31

namespace Chunk

/-- The line before the bytes. -/
def line (c : Chunk) : List UInt8 := c.digits ++ [13, 10]

def encode (c : Chunk) : List UInt8 := c.line ++ (c.payload ++ [13, 10])

end Chunk

/-! ## The machine on a line -/

section Line

/-- What the machine does on a line: the states behind a digit, the carriage return and the line feed. -/
structure OnLine (digit return_ feed : State ClientAction) : Prop where
  first : ∀ d, digitValue d < 16 → ClientGrammar.main.start.step d = digit ∧ ClientGrammar.main.start.acts d = [.mark]
  more : ∀ d, digitValue d < 16 → digit.step d = digit ∧ digit.acts d = []
  lineEnd : digit.step 13 = return_ ∧ digit.acts 13 = [.chunkSize] ∧ return_.step 10 = feed ∧ return_.acts 10 = [.done]
  feedEnd : digit.step 10 = feed ∧ digit.acts 10 = [.chunkSize, .done]
  running : digit ≠ [] ∧ return_ ≠ [] ∧ feed ≠ []
  final : firstFinal feed = true

set_option maxRecDepth 100000 in
theorem exists_onLine : ∃ digit return_ feed, OnLine digit return_ feed := by
  refine ⟨ClientGrammar.main.start.step 48, (ClientGrammar.main.start.step 48).step 13,
    ((ClientGrammar.main.start.step 48).step 13).step 10, ?_⟩
  have hall : ∀ n : Fin 256, digitValue (UInt8.ofNat n) < 16 →
      (ClientGrammar.main.start.step (UInt8.ofNat n) = ClientGrammar.main.start.step 48 ∧
        ClientGrammar.main.start.acts (UInt8.ofNat n) = [.mark]) ∧
      (ClientGrammar.main.start.step 48).step (UInt8.ofNat n) = ClientGrammar.main.start.step 48 ∧
        (ClientGrammar.main.start.step 48).acts (UInt8.ofNat n) = [] := by decide
  have hofNat : ∀ d : UInt8, UInt8.ofNat d.toNat = d := fun d => UInt8.ofNat_toNat
  constructor
  · intro d hd
    have h := (hall ⟨d.toNat, d.toNat_lt⟩ (by rw [hofNat]; exact hd)).1
    rwa [hofNat] at h
  · intro d hd
    have h := (hall ⟨d.toNat, d.toNat_lt⟩ (by rw [hofNat]; exact hd)).2
    rwa [hofNat] at h
  · decide
  · decide
  · decide
  · decide

section Steps

variable {buffer : Nat → UInt8} {pe n p : Nat} {cs : State ClientAction} {h h' : HttpResponseParser}
  {as : List ClientAction}

/-- A byte on which the machine goes on. -/
theorem exec_step (hne : cs.step (buffer p) ≠ []) (hacts : cs.acts (buffer p) = as)
    (hrun : h.acts buffer pe p as = .ok (h', false)) :
    HttpResponseParser.exec buffer pe (n + 1) p cs h =
      HttpResponseParser.exec buffer pe n (p + 1) (cs.step (buffer p)) h' := by
  rw [HttpResponseParser.exec, if_neg (by rwa [List.isEmpty_iff]), hacts, hrun]

/-- The byte at which it breaks off. -/
theorem exec_stop (hne : cs.step (buffer p) ≠ []) (hacts : cs.acts (buffer p) = as)
    (hrun : h.acts buffer pe p as = .ok (h', true)) :
    HttpResponseParser.exec buffer pe (n + 1) p cs h = .ok (h', cs.step (buffer p), p + 1) := by
  rw [HttpResponseParser.exec, if_neg (by rwa [List.isEmpty_iff]), hacts, hrun]

variable {digit return_ feed : State ClientAction} (hline : OnLine digit return_ feed)

include hline

theorem exec_digits {ds : List UInt8} (hat : At buffer p ds) (hds : ∀ d ∈ ds, digitValue d < 16) :
    HttpResponseParser.exec buffer pe (ds.length + n) p digit h =
      HttpResponseParser.exec buffer pe n (p + ds.length) digit h := by
  induction ds generalizing p with
  | nil => rw [List.length_nil, Nat.zero_add, Nat.add_zero]
  | cons d ds ih =>
    rw [List.forall_mem_cons] at hds
    obtain ⟨hstep, hacts⟩ := hline.more d hds.1
    rw [← hat.head] at hstep hacts
    have hgo : digit.step (buffer p) ≠ [] := by
      rw [hstep]
      exact hline.running.1
    rw [List.length_cons, Nat.add_right_comm, exec_step hgo hacts rfl, hstep, ih hat.tail hds.2, Nat.add_assoc,
      Nat.add_comm 1]

omit hline in
theorem acts_mark : h.acts buffer pe p [.mark] = .ok ({ h with parser := { h.parser with mark := p } }, false) := rfl

omit hline in
theorem acts_done : h.acts buffer pe p [.done] =
    .ok ({ h with parser := { h.parser with bodyStart := p + 1 } }, true) := rfl

omit hline in
theorem acts_chunkSize : h.acts buffer pe p [.chunkSize] = .ok ({ h with
    parser := { h.parser with
      chunked := true
      contentLen := strtol 16 buffer h.parser.mark pe
      chunksDone := strtol 16 buffer h.parser.mark pe ≤ 0 } }, false) := rfl

omit hline in
theorem acts_chunkSize_done : h.acts buffer pe p [.chunkSize, .done] = .ok ({ h with
    parser := { h.parser with
      chunked := true
      contentLen := strtol 16 buffer h.parser.mark pe
      chunksDone := strtol 16 buffer h.parser.mark pe ≤ 0
      bodyStart := p + 1 } }, true) := rfl

/-- The end of a line behind its digits: the carriage return and the line feed, or the line feed alone. -/
theorem exec_lineEnd {e : List UInt8} (he : e = [13, 10] ∨ e = [10]) (hat : At buffer p e) :
    HttpResponseParser.exec buffer pe (e.length + n) p digit h = .ok ({ h with
      parser := { h.parser with
        chunked := true
        contentLen := strtol 16 buffer h.parser.mark pe
        chunksDone := strtol 16 buffer h.parser.mark pe ≤ 0
        bodyStart := p + e.length } }, feed, p + e.length) := by
  obtain ⟨hreturn, hsize, hfeed, hdone⟩ := hline.lineEnd
  obtain ⟨hfeed', hboth⟩ := hline.feedEnd
  obtain ⟨-, hreturn', hrunning⟩ := hline.running
  rcases he with rfl | rfl
  · have h13 : buffer p = 13 := hat.head
    have h10 : buffer (p + 1) = 10 := hat.tail.head
    rw [← h13] at hreturn hsize
    rw [← h10] at hfeed hdone
    have hcount : ([13, 10] : List UInt8).length + n = n + 1 + 1 := by
      rw [List.length_cons, List.length_singleton]
      omega
    rw [hcount, exec_step (by rwa [hreturn]) hsize acts_chunkSize, hreturn, exec_stop (by rwa [hfeed]) hdone acts_done,
      hfeed]
    rfl
  · have h10 : buffer p = 10 := hat.head
    rw [← h10] at hfeed' hboth
    have hcount : ([10] : List UInt8).length + n = n + 1 := Nat.add_comm 1 n
    rw [hcount, exec_stop (by rwa [hfeed']) hboth acts_chunkSize_done, hfeed']
    rfl

/-- A line from the start state: the first digit, the others and the line end. -/
theorem exec_line {d : UInt8} {ds e : List UInt8} (he : e = [13, 10] ∨ e = [10]) (hat : At buffer 0 (d :: ds ++ e))
    (hds : ∀ c ∈ d :: ds, digitValue c < 16) :
    HttpResponseParser.exec buffer pe ((d :: ds ++ e).length + n) 0 ClientGrammar.main.start h =
      .ok ({ h with
        parser := { h.parser with
          mark := 0
          chunked := true
          contentLen := strtol 16 buffer 0 pe
          chunksDone := strtol 16 buffer 0 pe ≤ 0
          bodyStart := (d :: ds ++ e).length } }, feed, (d :: ds ++ e).length) := by
  rw [List.forall_mem_cons] at hds
  have hdigits : At buffer 0 (d :: ds) := At.left hat
  have hend : At buffer (0 + (d :: ds).length) e := At.right hat
  have hplace : 0 + (d :: ds).length = 0 + 1 + ds.length := by
    rw [List.length_cons]
    omega
  have hcount : (d :: ds ++ e).length + n = ds.length + (e.length + n) + 1 := by
    rw [List.length_append, List.length_cons]
    omega
  have hstop : 0 + 1 + ds.length + e.length = (d :: ds ++ e).length := by
    rw [List.length_append, List.length_cons]
    omega
  rw [hplace] at hend
  obtain ⟨hfirst, hmark⟩ := hline.first d hds.1
  rw [← hdigits.head] at hfirst hmark
  rw [hcount, exec_step (by rw [hfirst]; exact hline.running.1) hmark acts_mark, hfirst,
    exec_digits hline hdigits.tail hds.2, exec_lineEnd hline he hend, hstop]

end Steps

/-- The parser of a response behind a line with these digits: the number is what `strtol` gives for them, as an
`int`. -/
structure Lined (ds : List UInt8) (h h' : HttpResponseParser) : Prop where
  finished : h'.isFinished = true
  hasError : h'.hasError = (h.error != 0)
  error : h'.error = h.error
  data : h'.data = h.data
  contentLen : h'.parser.contentLen = (min (value 16 ds : Int) (2 ^ 63 - 1)).bmod (2 ^ 32)
  chunksDone : h'.parser.chunksDone = decide (h'.parser.contentLen ≤ 0)

/-- A line that is whole is parsed to its end. -/
theorem execute_digits {ds e : List UInt8} (hne : ds ≠ []) (hhex : ∀ d ∈ ds, digitValue d < 16)
    (he : e = [13, 10] ∨ e = [10]) {buffer : Nat → UInt8} {len : Nat} (h : HttpResponseParser)
    (hat : At buffer 0 (ds ++ e)) (hle : (ds ++ e).length ≤ len) (h31 : len < 2 ^ 31) (hnul : buffer len = 0) : ∃ h',
    h.execute buffer len true =
      .ok (h', HttpRequestParser.memmove buffer (ds ++ e).length (len - (ds ++ e).length), (ds ++ e).length) ∧
    Lined ds h h' := by
  obtain ⟨digit, return_, feed, hline⟩ := exists_onLine
  -- `strtol` stops at the line end, which is no digit
  have hvalue : strtol 16 buffer 0 len = (min (value 16 ds : Int) (2 ^ 63 - 1)).bmod (2 ^ 32) := by
    have hend : digitValue (buffer (0 + ds.length)) = 36 := by
      rcases he with rfl | rfl
      · rw [(At.right hat).head]
        rfl
      · rw [(At.right hat).head]
        rfl
    refine strtol_eq (by decide) (At.left hat) hne hhex ?_ hend
    rw [List.length_append] at hle
    omega
  obtain ⟨d, ds, rfl⟩ := List.exists_cons_of_ne_nil hne
  have hpos : 0 < len := Nat.lt_of_lt_of_le (Nat.succ_pos _) hle
  let fresh : HttpResponseParser := { h with parser := h.parser.init }
  let start : HttpResponseParser := { fresh with parser := fresh.parser.reset }
  let lined : ClientParser :=
    { start.parser with
      mark := 0
      chunked := true
      contentLen := strtol 16 buffer 0 len
      chunksDone := strtol 16 buffer 0 len ≤ 0
      bodyStart := (d :: ds ++ e).length }
  let stopped : ClientParser := { lined with cs := feed, nread := (d :: ds ++ e).length }
  have hexec : HttpResponseParser.exec buffer len (len - 0) 0 fresh.parser.cs start =
      .ok ({ start with parser := lined }, feed, (d :: ds ++ e).length) := by
    obtain ⟨n, rfl⟩ : ∃ n, len = (d :: ds ++ e).length + n := ⟨len - (d :: ds ++ e).length, by omega⟩
    exact exec_line hline he hat hhex
  have hparse : fresh.parserExecute buffer len 0 =
      .ok ({ h with parser := stopped }, some (d :: ds ++ e).length) := by
    have hwidth : (len : Int) - (0 : Nat) = toInt len - toInt 0 := by
      rw [toInt_of_lt h31, toInt_of_lt (by decide)]
    rw [HttpResponseParser.parserExecute, if_neg (not_not_intro (Nat.zero_le len)), if_neg (not_not_intro hnul),
      if_neg (not_not_intro hwidth), hexec]
    refine (if_pos ⟨hle, hle⟩).trans (congrArg (fun r => Except.ok (_, r)) ?_)
    exact if_pos ⟨hpos, Nat.zero_le len, hpos⟩
  refine ⟨{ h with parser := stopped }, ?_, ?_⟩
  · have hparse' : ({ h with parser := h.parser.init } : HttpResponseParser).parserExecute buffer len 0 =
        .ok ({ h with parser := stopped }, some (d :: ds ++ e).length) := hparse
    rw [HttpResponseParser.execute, if_pos rfl]
    simp only [hparse']
  · have hrunning : feed.isEmpty = false := by
      rw [List.isEmpty_eq_false_iff]
      exact hline.running.2.2
    constructor
    · exact hline.final
    · change (h.error != 0 || feed.isEmpty) = _
      rw [hrunning, Bool.or_false]
    · rfl
    · rfl
    · exact hvalue
    · rfl

/-- The parser of a response behind the line of a chunk. -/
structure Sized (c : Chunk) (h h' : HttpResponseParser) : Prop where
  finished : h'.isFinished = true
  hasError : h'.hasError = (h.error != 0)
  error : h'.error = h.error
  data : h'.data = h.data
  contentLen : h'.parser.contentLen = c.payload.length
  chunksDone : h'.parser.chunksDone = decide (c.payload = [])

theorem execute_line (c : Chunk) {buffer : Nat → UInt8} {len : Nat} (h : HttpResponseParser) (hat : At buffer 0 c.line)
    (hle : c.line.length ≤ len) (h31 : len < 2 ^ 31) (hnul : buffer len = 0) : ∃ h', h.execute buffer len true =
      .ok (h', HttpRequestParser.memmove buffer c.line.length (len - c.line.length), c.line.length) ∧ Sized c h h' := by
  obtain ⟨h', hexecute, hlined⟩ := execute_digits c.digits_ne c.hex (.inl rfl) h hat hle h31 hnul
  have hfits := c.fits
  have hlen : h'.parser.contentLen = c.payload.length := by
    rw [hlined.contentLen, c.size, Int.min_eq_left (by omega)]
    exact Int.bmod_eq_of_le_mul_two (by omega) (by omega)
  refine ⟨h', hexecute, hlined.finished, hlined.hasError, hlined.error, hlined.data, hlen, ?_⟩
  rw [hlined.chunksDone, hlen]
  refine decide_eq_decide.2 ?_
  rw [← List.length_eq_zero_iff]
  omega

end Line

/-! ## The stream in pieces -/

section Pieces

/-- The pieces that are left when `n` bytes have been read. -/
def dropBytes : Nat → List (List UInt8) → List (List UInt8)
  | _, [] => []
  | n, p :: ps => if p.length ≤ n then dropBytes (n - p.length) ps else p.drop n :: ps

variable {p : List UInt8} {ps : List (List UInt8)} {m n : Nat}

theorem dropBytes_zero (hne : ∀ p ∈ ps, p ≠ []) : dropBytes 0 ps = ps := by
  cases ps with
  | nil => rfl
  | cons p ps =>
    have hpos := List.length_pos_iff.2 (hne p (List.mem_cons_self ..))
    rw [dropBytes, if_neg (Nat.not_le.2 hpos), List.drop_zero]

theorem dropBytes_add : dropBytes (m + n) ps = dropBytes n (dropBytes m ps) := by
  induction ps generalizing m with
  | nil => rfl
  | cons p ps ih =>
    by_cases hm : p.length ≤ m
    · rw [dropBytes, dropBytes, if_pos hm, if_pos (hm.trans (Nat.le_add_right m n)), ← ih]
      congr 1
      omega
    · have hdrop : (p.drop m).length = p.length - m := List.length_drop
      rw [dropBytes, dropBytes, if_neg hm, dropBytes, hdrop]
      by_cases hn : p.length ≤ m + n
      · rw [if_pos hn, if_pos (by omega)]
        congr 1
        omega
      · rw [if_neg hn, if_neg (by omega), List.drop_drop]

theorem flatten_dropBytes : (dropBytes n ps).flatten = ps.flatten.drop n := by
  induction ps generalizing n with
  | nil => rw [dropBytes, List.flatten_nil, List.drop_nil]
  | cons p ps ih =>
    rw [dropBytes, List.flatten_cons, List.drop_append]
    split
    · rename_i hle
      rw [ih, List.drop_of_length_le hle, List.nil_append]
    · rename_i hlt
      rw [List.flatten_cons, Nat.sub_eq_zero_of_le (Nat.le_of_not_le hlt), List.drop_zero]

theorem dropBytes_ne (hne : ∀ p ∈ ps, p ≠ []) : ∀ p ∈ dropBytes n ps, p ≠ [] := by
  induction ps generalizing n with
  | nil => exact hne
  | cons p ps ih =>
    rw [List.forall_mem_cons] at hne
    rw [dropBytes]
    split
    · exact ih hne.2
    · rename_i hlt
      rw [List.forall_mem_cons]
      exact ⟨fun h0 => hlt (List.drop_eq_nil_iff.1 h0), hne.2⟩

theorem read_pieces (hne : ∀ q ∈ p :: ps, q ≠ []) : Session.read { input := p :: ps } n =
    (p.take n, { input := dropBytes (p.take n).length (p :: ps) }) := by
  rw [List.forall_mem_cons] at hne
  have hread : Session.read { input := p :: ps } n =
      (p.take n, { input := if p.length ≤ n then ps else p.drop n :: ps }) := rfl
  rw [hread, dropBytes, List.length_take]
  by_cases hle : p.length ≤ n
  · rw [if_pos hle, Nat.min_eq_right hle, if_pos le_rfl, Nat.sub_self, dropBytes_zero hne.2]
  · rw [if_neg hle, Nat.min_eq_left (Nat.le_of_not_le hle), if_neg hle]

theorem sizeT_natCast (hn : n < 2 ^ 64) : sizeT n = n := by
  unfold sizeT
  omega

variable {buffSize : Nat}

/-- The rest of a chunk, whatever pieces it comes in. -/
theorem payloadLoop_pieces (hsize : 0 < buffSize) (h31 : buffSize < 2 ^ 31) : ∀ {turns left : Nat} (data : Nat → UInt8)
    (body : List UInt8) {ps : List (List UInt8)}, (∀ p ∈ ps, p ≠ []) → left ≤ ps.flatten.length → left < turns →
    ∃ data', HttpConnection.payloadLoop buffSize turns left data body { input := ps } =
      (some (data', body ++ ps.flatten.take left), { input := dropBytes left ps })
  | turns + 1, left, data, body, ps, hne, hle, hturns => by
    rw [HttpConnection.payloadLoop]
    rcases Nat.eq_zero_or_pos left with rfl | hleft
    · rw [if_pos (by exact le_rfl), dropBytes_zero hne, List.take_zero, List.append_nil]
      exact ⟨data, rfl⟩
    · have hlength : sizeT (if (left : Int) > toInt buffSize then toInt buffSize else left) = min left buffSize := by
        rw [toInt_of_lt h31]
        split
        · rw [sizeT_natCast (by omega)]
          omega
        · rename_i hgt
          have hsmall : left ≤ buffSize := by omega
          rw [sizeT_natCast (by omega), Nat.min_eq_left hsmall]
      rw [if_neg (by omega)]
      simp only [hlength]
      cases ps with
      | nil =>
        rw [List.flatten_nil, List.length_nil] at hle
        omega
      | cons p ps =>
        have hp := List.length_pos_iff.2 (hne p (List.mem_cons_self ..))
        have htake : (p.take (min left buffSize)).length = min (min left buffSize) p.length := List.length_take
        rw [read_pieces hne]
        obtain ⟨b, piece, hpiece⟩ : ∃ b piece, p.take (min left buffSize) = b :: piece :=
          List.exists_cons_of_length_pos (by omega)
        rw [hpiece] at htake ⊢
        simp only
        have hleft' : (left : Int) - ((b :: piece).length : Nat) = ((left - (b :: piece).length : Nat) : Int) := by
          omega
        have hshort : (b :: piece).length ≤ left := by omega
        -- what was read is the front of the stream, what is left its rest
        have hfront : (p :: ps).flatten = (b :: piece) ++ (dropBytes (b :: piece).length (p :: ps)).flatten := by
          have hsplit : (p :: ps).flatten = (b :: piece) ++ (p.drop (min left buffSize) ++ ps.flatten) := by
            rw [← hpiece, List.flatten_cons, ← List.append_assoc, List.take_append_drop]
          rw [flatten_dropBytes, hsplit, List.drop_left]
        have hmore : left - (b :: piece).length ≤ (dropBytes (b :: piece).length (p :: ps)).flatten.length := by
          rw [hfront, List.length_append] at hle
          omega
        have hfuel : left - (b :: piece).length < turns := by omega
        obtain ⟨data', hrun⟩ := payloadLoop_pieces hsize h31 (store data 0 (b :: piece)) (body ++ b :: piece)
          (dropBytes_ne hne) hmore hfuel
        refine ⟨data', ?_⟩
        rw [hleft', hrun, ← dropBytes_add, Nat.add_sub_cancel' hshort, hfront, List.take_append,
          List.take_of_length_le hshort, List.append_assoc]

end Pieces

/-! ## The loops -/

section Loops

/-- What the buffer holds when a line is first parsed, and what is still to come: an empty buffer is filled first. -/
def atHand (buffSize : Nat) (buffered : List UInt8) (pieces : List (List UInt8)) : List UInt8 × List (List UInt8) :=
  if buffered = [] then
    ((Session.read { input := pieces } buffSize).1, (Session.read { input := pieces } buffSize).2.input)
  else (buffered, pieces)

/-- Where every line is whole in the buffer when it is first parsed, and no size is too large for an `int` when the line
end behind the chunk is added to it. -/
def Whole (buffSize : Nat) : List Chunk → List UInt8 → List (List UInt8) → Prop
  | [], _, _ => True
  | c :: cs, buffered, pieces =>
    c.line <+: (atHand buffSize buffered pieces).1 ∧ c.payload.length + 2 < 2 ^ 31 ∧
      Whole buffSize cs
        (((atHand buffSize buffered pieces).1.drop c.line.length).drop (c.payload.length + 2))
        (dropBytes (c.payload.length + 2 - ((atHand buffSize buffered pieces).1.length - c.line.length))
          (atHand buffSize buffered pieces).2)

instance decidableWhole (buffSize : Nat) : ∀ (cs : List Chunk) (buffered : List UInt8) (pieces : List (List UInt8)),
    Decidable (Whole buffSize cs buffered pieces)
  | [], _, _ => isTrue trivial
  | _ :: cs, _, _ => @instDecidableAnd _ _ inferInstance (@instDecidableAnd _ _ inferInstance (decidableWhole _ cs _ _))

variable {buffSize len : Nat} {pieces : List (List UInt8)} {data : Nat → UInt8} {h : HttpResponseParser} {c : Chunk}
  {body rest : List UInt8}

theorem Chunk.length_line_pos (c : Chunk) : 0 < c.line.length := by
  rw [Chunk.line, List.length_append]
  exact Nat.add_pos_right _ (by decide)

theorem at_of_slice {n : Nat} {u w : List UInt8} (hslice : slice data 0 n = w) (hu : u <+: w) : At data 0 u := by
  obtain ⟨v, rfl⟩ := hu
  intro i b hi
  have hlt : i < u.length := (List.getElem?_eq_some_iff.1 hi).1
  have hlen : n = u.length + v.length := by rw [← length_slice data 0 n, hslice, List.length_append]
  have hget : (slice data 0 n)[i]? = some (data (0 + i)) := getElem?_slice (by omega)
  rw [hslice, List.getElem?_append_left hlt, hi] at hget
  exact (Option.some.inj hget).symm

theorem Session.eq_of_connected {s : Session} (h : s.connected = true) : s = { input := s.input } := by
  obtain ⟨input, connected⟩ := s
  cases h
  rfl

/-- The pieces at hand and to come are what was buffered and to come. -/
theorem atHand_append (buffSize : Nat) (buffered : List UInt8) (pieces : List (List UInt8)) :
    (atHand buffSize buffered pieces).1 ++ (atHand buffSize buffered pieces).2.flatten =
      buffered ++ pieces.flatten := by
  unfold atHand
  split
  · rename_i hnil
    rw [hnil]
    exact (Session.read_flatten { input := pieces } buffSize).1.symm
  · rfl

theorem atHand_ne {buffered : List UInt8} (hne : ∀ p ∈ pieces, p ≠ []) :
    ∀ p ∈ (atHand buffSize buffered pieces).2, p ≠ [] := by
  unfold atHand
  split
  · cases pieces with
    | nil => exact hne
    | cons p ps =>
      rw [read_pieces hne]
      exact dropBytes_ne hne
  · exact hne

theorem length_atHand_le {buffered : List UInt8} (hle : buffered.length ≤ buffSize) :
    (atHand buffSize buffered pieces).1.length ≤ buffSize := by
  unfold atHand
  split
  · exact Session.length_read_le _ _
  · exact hle

/-- The line of a chunk, where it is whole: one call of the parser. -/
theorem sizeLoop_whole (h31 : buffSize < 2 ^ 31) (herror : h.error = 0) (hle : len ≤ buffSize)
    (hline : c.line <+: (atHand buffSize (slice data 0 len) pieces).1) (turns : Nat) : ∃ h' data' len',
    HttpConnection.sizeLoop buffSize (turns + 1) true h data len { input := pieces } =
      .ok (some (h', data', len'), { input := (atHand buffSize (slice data 0 len) pieces).2 }) ∧ Sized c h h' ∧
    slice data' 0 len' = (atHand buffSize (slice data 0 len) pieces).1.drop c.line.length := by
  have hlength : (atHand buffSize (slice data 0 len) pieces).1.length ≤ buffSize :=
    length_atHand_le (by rwa [length_slice])
  have hlinePos := c.length_line_pos
  have hlineLe := hline.length_le
  -- whether or not the buffer is filled first, what is at hand is what stands in it
  obtain ⟨piece, hreads⟩ : ∃ piece : List UInt8,
      (if (len == 0) = true then (Session.read { input := pieces } (buffSize - len)).1 else []) = piece ∧
      (if (len == 0) = true then (Session.read { input := pieces } (buffSize - len)).2 else { input := pieces }) =
        { input := (atHand buffSize (slice data 0 len) pieces).2 } ∧
      slice data 0 len ++ piece = (atHand buffSize (slice data 0 len) pieces).1 ∧
      ¬ ((len == 0) = true ∧ piece = []) := by
    rcases Nat.eq_zero_or_pos len with rfl | hpos
    · refine ⟨(Session.read { input := pieces } buffSize).1, rfl, ?_, rfl, ?_⟩
      · exact Session.eq_of_connected (Session.read_flatten _ _).2
      · rintro ⟨-, hnil⟩
        have hhand : (atHand buffSize (slice data 0 0) pieces).1 = [] := hnil
        rw [hhand, List.length_nil] at hlineLe
        omega
    · have hne : slice data 0 len ≠ [] := List.ne_nil_of_length_pos (by rwa [length_slice])
      have hzero : ¬ (len == 0) = true := by
        rw [beq_iff_eq]
        omega
      refine ⟨[], if_neg hzero, ?_, ?_, fun h0 => hzero h0.1⟩
      · rw [if_neg hzero, atHand, if_neg hne]
      · rw [List.append_nil, atHand, if_neg hne]
  obtain ⟨hpiece, hsession, hhand, hgo⟩ := hreads
  have hfill := slice_fill data len piece
  rw [hhand] at hfill
  have hlen : len + piece.length = (atHand buffSize (slice data 0 len) pieces).1.length := by
    rw [← hhand, List.length_append, length_slice]
  have hnul : HttpConnection.fill data len piece (len + piece.length) = 0 := by
    rw [HttpConnection.fill, store, if_pos ⟨le_rfl, Nat.lt_succ_self _⟩, Nat.sub_self]
    rfl
  obtain ⟨h', hexecute, hsized⟩ := execute_line c h (at_of_slice hfill hline) (hlen ▸ hlineLe) (by omega) hnul
  have hok : h'.hasError = false := by rw [hsized.hasError, herror]; rfl
  have hroom : ¬ ((len + piece.length - c.line.length : Nat) : Int) = toInt buffSize := by
    rw [toInt_of_lt h31]
    omega
  refine ⟨h', HttpRequestParser.memmove (HttpConnection.fill data len piece) c.line.length
    (len + piece.length - c.line.length), len + piece.length - c.line.length, ?_, hsized, ?_⟩
  · rw [HttpConnection.sizeLoop]
    simp only [Bool.not_true, Bool.false_or, hpiece, hsession, if_neg hgo, hexecute, hok, hroom, hsized.finished,
      Bool.false_eq_true, if_false, if_true]
  · rw [slice_consumed (hlen ▸ hlineLe), hfill]

/-- The bytes of a chunk and its line end, of which the buffer holds some or all. -/
theorem chunk_whole {payload : List UInt8} (hsize : 0 < buffSize) (h31 : buffSize < 2 ^ 31) (hne : ∀ p ∈ pieces, p ≠ [])
    (hfits : payload.length + 2 < 2 ^ 31)
    (hstream : slice data 0 len ++ pieces.flatten = payload ++ [13, 10] ++ rest) (body : List UInt8) :
    ∃ data' len', HttpConnection.chunk buffSize payload.length data len body { input := pieces } =
      .ok (some (data', len', body ++ payload), { input := dropBytes (payload.length + 2 - len) pieces }) ∧
    len' ≤ len ∧ slice data' 0 len' = (slice data 0 len).drop (payload.length + 2) := by
  have hfit : ¬ (2 : Int) ^ 31 ≤ (payload.length : Int) + 2 := by omega
  have hframe : (payload ++ [13, 10]).length = payload.length + 2 := List.length_append
  rw [HttpConnection.chunk, if_neg hfit]
  rcases Nat.lt_or_ge len (payload.length + 2) with hlt | hge
  · -- the rest is read; what is behind the bytes of the chunk is cut off
    have hshort : ¬ (payload.length : Int) + 2 ≤ len := by omega
    have hleft : (payload.length : Int) - len + 2 = ((payload.length + 2 - len : Nat) : Int) := by omega
    have htotal := congrArg List.length hstream
    rw [List.length_append, List.length_append, length_slice, hframe] at htotal
    have hmore : payload.length + 2 - len ≤ pieces.flatten.length := by omega
    obtain ⟨data', hrun⟩ := payloadLoop_pieces hsize h31 data (body ++ slice data 0 len) hne hmore (Nat.lt_succ_self _)
    have htaken : slice data 0 len ++ pieces.flatten.take (payload.length + 2 - len) = payload ++ [13, 10] := by
      have htake := congrArg (List.take (payload.length + 2)) hstream
      rw [List.take_append, length_slice, List.take_of_length_le (by rw [length_slice]; omega), ← hframe,
        List.take_left, hframe] at htake
      exact htake
    rw [if_neg hshort]
    simp only [hleft, Int.toNat_natCast, hrun]
    rw [List.append_assoc, htaken, if_neg (by rw [List.length_append, hframe]; omega)]
    refine ⟨data', 0, ?_, Nat.zero_le len, ?_⟩
    · have hcut : (body ++ (payload ++ [13, 10])).length - 2 = (body ++ payload).length := by
        rw [List.length_append, hframe, List.length_append]
        omega
      rw [hcut, ← List.append_assoc, List.take_left]
    · rw [List.drop_of_length_le (by rw [length_slice]; omega)]
      rfl
  · -- all of it is in the buffer
    have hall : (payload.length : Int) + 2 ≤ len := by omega
    have hpayload : slice data 0 payload.length = payload := by
      have hsplit : slice data 0 len = slice data 0 payload.length ++
          slice data (0 + payload.length) (len - payload.length) := by
        rw [← slice_add, Nat.add_sub_cancel' (by omega)]
      rw [hsplit, List.append_assoc, List.append_assoc] at hstream
      exact (List.append_inj hstream (length_slice ..)).1
    rw [if_pos hall, sizeT_natCast (by omega), mkString, if_pos (by omega), hpayload]
    refine ⟨_, _, ?_, Nat.sub_le len (payload.length + 2), slice_consumed hge⟩
    rw [Nat.sub_eq_zero_of_le hge, dropBytes_zero hne]
    rfl

/-- One turn of the outer loop takes a chunk off the stream. -/
theorem chunkLoop_turn (hsize : 0 < buffSize) (h31 : buffSize < 2 ^ 31) {cs : List Chunk} (herror : h.error = 0)
    (hle : len ≤ buffSize) (hne : ∀ p ∈ pieces, p ≠ [])
    (hstream : slice data 0 len ++ pieces.flatten = c.encode ++ rest)
    (hwhole : Whole buffSize (c :: cs) (slice data 0 len) pieces) (turns : Nat) (body : List UInt8) :
    ∃ h' data' len' pieces', Sized c h h' ∧ len' ≤ buffSize ∧ (∀ p ∈ pieces', p ≠ []) ∧
      slice data' 0 len' ++ pieces'.flatten = rest ∧ Whole buffSize cs (slice data' 0 len') pieces' ∧
      HttpConnection.chunkLoop buffSize (turns + 1) h data len body { input := pieces } =
        if h'.parser.chunksDone then .ok (some (h', body ++ c.payload), { input := pieces' })
        else HttpConnection.chunkLoop buffSize turns h' data' len' (body ++ c.payload) { input := pieces' } := by
  obtain ⟨hline, hfits, hmore⟩ := hwhole
  obtain ⟨h', data₁, len₁, hsizeLoop, hsized, hslice⟩ := sizeLoop_whole h31 herror hle hline (pieces.flatten.length + 1)
  have hhand := atHand_append buffSize (slice data 0 len) pieces
  have hne' : ∀ p ∈ (atHand buffSize (slice data 0 len) pieces).2, p ≠ [] := atHand_ne hne
  have hlength : (atHand buffSize (slice data 0 len) pieces).1.length ≤ buffSize :=
    length_atHand_le (by rwa [length_slice])
  generalize (atHand buffSize (slice data 0 len) pieces).1 = hand at hline hmore hslice hhand hlength
  generalize (atHand buffSize (slice data 0 len) pieces).2 = ps at hmore hsizeLoop hhand hne'
  have hlen₁ : len₁ = hand.length - c.line.length := by
    rw [← length_slice data₁ 0 len₁, hslice, List.length_drop]
  -- behind the line
  have hframe : slice data₁ 0 len₁ ++ ps.flatten = c.payload ++ [13, 10] ++ rest := by
    obtain ⟨t, rfl⟩ := hline
    rw [hstream, Chunk.encode, List.append_assoc, List.append_assoc] at hhand
    rw [hslice, List.drop_left]
    exact List.append_cancel_left hhand
  obtain ⟨data₂, len₂, hchunk, hlen₂, hslice₂⟩ := chunk_whole hsize h31 hne' hfits hframe body
  have hrest : slice data₂ 0 len₂ ++ (dropBytes (c.payload.length + 2 - len₁) ps).flatten = rest := by
    have hdrop := congrArg (List.drop (c.payload.length + 2)) hframe
    have htotal : (c.payload ++ [13, 10]).length = c.payload.length + 2 := List.length_append
    rw [List.drop_append, length_slice, ← hslice₂, ← flatten_dropBytes, ← htotal, List.drop_left, htotal] at hdrop
    exact hdrop
  refine ⟨h', data₂, len₂, dropBytes (c.payload.length + 2 - len₁) ps, hsized, by omega, dropBytes_ne hne', hrest, ?_,
    ?_⟩
  · rw [hslice₂, hslice, hlen₁]
    exact hmore
  · rw [HttpConnection.chunkLoop]
    simp only [hsizeLoop, hsized.contentLen, hchunk]

/-- The whole loop: all chunks up to the last one, which is empty. -/
theorem chunkLoop_whole (hsize : 0 < buffSize) (h31 : buffSize < 2 ^ 31) {last : Chunk} (hlast : last.payload = [])
    {chunks : List Chunk} {turns : Nat} (body : List UInt8) (hpos : ∀ c ∈ chunks, c.payload ≠ []) (herror : h.error = 0)
    (hle : len ≤ buffSize) (hne : ∀ p ∈ pieces, p ≠ [])
    (hstream : slice data 0 len ++ pieces.flatten = (chunks ++ [last]).flatMap Chunk.encode ++ rest)
    (hwhole : Whole buffSize (chunks ++ [last]) (slice data 0 len) pieces) (hturns : chunks.length < turns) :
    ∃ h' s', HttpConnection.chunkLoop buffSize turns h data len body { input := pieces } =
      .ok (some (h', body ++ chunks.flatMap Chunk.payload), s') ∧ h'.data = h.data := by
  induction chunks generalizing turns h data len pieces body with
  | nil =>
    obtain ⟨turns, rfl⟩ := Nat.exists_eq_succ_of_ne_zero (Nat.ne_zero_of_lt hturns)
    rw [List.nil_append, List.flatMap_singleton] at hstream
    obtain ⟨h', data', len', pieces', hsized, -, -, -, -, hturn⟩ :=
      chunkLoop_turn hsize h31 herror hle hne hstream hwhole turns body
    have hdone : h'.parser.chunksDone = true := by rw [hsized.chunksDone, decide_eq_true hlast]
    rw [hdone, if_pos rfl, hlast] at hturn
    exact ⟨h', _, hturn, hsized.data⟩
  | cons c chunks ih =>
    obtain ⟨turns, rfl⟩ := Nat.exists_eq_succ_of_ne_zero (Nat.ne_zero_of_lt hturns)
    rw [List.forall_mem_cons] at hpos
    rw [List.cons_append, List.flatMap_cons, List.append_assoc] at hstream
    obtain ⟨h', data', len', pieces', hsized, hle', hne', hstream', hwhole', hturn⟩ :=
      chunkLoop_turn hsize h31 herror hle hne hstream hwhole turns body
    have hdone : h'.parser.chunksDone = false := by rw [hsized.chunksDone, decide_eq_false hpos.1]
    rw [hdone, if_neg Bool.false_ne_true] at hturn
    obtain ⟨h'', s', hrun, hdata⟩ := ih (body ++ c.payload) hpos.2 (hsized.error.trans herror) hle' hne' hstream'
      hwhole' (Nat.lt_of_succ_lt_succ hturns)
    refine ⟨h'', s', ?_, hdata.trans hsized.data⟩
    rw [hturn, hrun, List.flatMap_cons, List.append_assoc]

end Loops

/-! ## The response -/

section Response

theorem read_connected {s : Session} {n : Nat} (h : (s.read n).1 ≠ []) : s.connected = true := by
  by_contra hconn
  rw [Session.read, if_pos (by simpa using hconn)] at h
  exact h rfl

/-- What holds at the `break` of the loop for the header. -/
theorem recvLoop_break {buffSize offset' : Nat} {h' : HttpResponseParser} {data' : Nat → UInt8} {s' : Session}
    {turns : Nat} {h : HttpResponseParser} {data : Nat → UInt8} {offset : Nat} {s : Session} (hle : offset ≤ buffSize)
    (hloop : HttpConnection.recvLoop buffSize turns h data offset s = .ok (some (h', data', offset'), s')) :
    h'.error = 0 ∧ h'.data.body = h.data.body ∧ offset' ≤ buffSize ∧ 0 < buffSize ∧ s'.connected = true := by
  induction turns generalizing h data offset s with
  | zero => cases hloop
  | succ turns ih =>
    rw [HttpConnection.recvLoop] at hloop
    split at hloop
    · cases hloop
    · rename_i hpiece
      have hlength := Session.length_read_le s (buffSize - offset)
      have hpos := List.length_pos_iff.2 hpiece
      simp only at hloop
      split at hloop
      · cases hloop
      · rename_i hex
        have hn := (HttpResponseParser.execute_ok hex).1
        have hbody := execute_body hex
        split at hloop
        · cases hloop
        · rename_i herror
          split at hloop
          · cases hloop
          · split at hloop
            · cases hloop
              rw [HttpResponseParser.hasError, Bool.or_eq_true, not_or, bne_iff_ne, not_not] at herror
              -- a read that gives something was one of an open connection
              refine ⟨herror.1, hbody, by omega, by omega, ?_⟩
              rw [(Session.read_flatten s (buffSize - offset)).2]
              exact read_connected hpiece
            · obtain ⟨he, hb, hrest⟩ := ih (by omega) hloop
              exact ⟨he, hb.trans hbody, hrest⟩

theorem length_le_encode (chunks : List Chunk) : chunks.length ≤ (chunks.flatMap Chunk.encode).length := by
  induction chunks with
  | nil => exact Nat.le_refl 0
  | cons c chunks ih =>
    have hpos := c.length_line_pos
    rw [List.flatMap_cons, List.length_append, List.length_cons, Chunk.encode, List.length_append]
    omega

/-- The body of a response in chunks is what the chunks hold, however the stream is cut, where the header ends in the
first final state and every line with a size is whole in the buffer when it is first parsed. -/
theorem chunked_body (env : HttpConnection.Env) {s s' : Session} {parser : HttpResponseParser} {data : Nat → UInt8}
    {offset : Nat}
    (hend : HttpConnection.headerLoop env.bufferSize (s.input.flatten.length + 1) env.object.new env.memory 0 s =
      some (parser, data, offset, s'))
    (hchunked : parser.parser.chunked = true) (hfin : firstFinal parser.parser.cs = true)
    (hne : ∀ p ∈ s'.input, p ≠ []) {chunks : List Chunk} {last : Chunk} {rest : List UInt8}
    (hpos : ∀ c ∈ chunks, c.payload ≠ []) (hlast : last.payload = [])
    (hstream : slice data 0 offset ++ s'.input.flatten = (chunks ++ [last]).flatMap Chunk.encode ++ rest)
    (h31 : env.bufferSize < 2 ^ 31)
    (hwhole : Whole env.bufferSize (chunks ++ [last]) (slice data 0 offset) s'.input) :
    ∃ r s'', HttpConnection.recvResponse env s = .ok (some r, s'') ∧ r.body = chunks.flatMap Chunk.payload := by
  have hloop := HttpConnection.recvLoop_headerLoop (Nat.lt_succ_self _) hend
  rw [if_pos (show parser.isFinished = true from hfin)] at hloop
  obtain ⟨herror, hbody, hoffset, hsize, hconn⟩ := recvLoop_break (Nat.zero_le _) hloop
  obtain ⟨input, connected⟩ := s'
  cases hconn
  have hturns : chunks.length < offset + input.flatten.length + 1 := by
    have hcount := length_le_encode chunks
    have htotal := congrArg List.length hstream
    rw [List.length_append, length_slice, List.flatMap_append, List.length_append, List.length_append] at htotal
    simp only at htotal
    omega
  obtain ⟨h', s'', hrun, hdata⟩ := chunkLoop_whole hsize h31 hlast [] hpos herror hoffset hne hstream hwhole hturns
  refine ⟨HttpConnection.withBody h'.data (chunks.flatMap Chunk.payload), s'', ?_, ?_⟩
  · rw [HttpConnection.recvResponse, hloop]
    simp only [hchunked, if_true, hrun, List.nil_append]
  · rw [HttpConnection.withBody]
    split
    · rename_i hnil
      rw [hnil, hdata, hbody]
      rfl
    · rfl

section Cut

set_option maxRecDepth 100000

/-- The beginning of a response in chunks. -/
def chunkedHeader : List UInt8 := bytes "HTTP/1.1 200 OK\r\nTransfer-Encoding: chunked\r\n\r\n"

/-- The last chunk. -/
def lastChunk : Chunk := ⟨bytes "0", [], by decide, by decide, by decide, by decide⟩

/-- A chunk that comes in two pieces, and its line with the first of them. -/
theorem chunked_body_pieces : ∃ r s'', HttpConnection.recvResponse client
      { input := [chunkedHeader, bytes "3\r\nab", bytes "c\r\n0\r\n\r\n"] } = .ok (some r, s'') ∧
    r.body = bytes "abc" := by
  let s : Session := { input := [chunkedHeader, bytes "3\r\nab", bytes "c\r\n0\r\n\r\n"] }
  let abc : Chunk := ⟨bytes "3", bytes "abc", by decide, by decide, by decide, by decide⟩
  have hrun : (HttpConnection.headerLoop 64 (s.input.flatten.length + 1) client.object.new (fun _ => 0) 0 s).map
      (fun q => (q.1.parser.chunked, firstFinal q.1.parser.cs, q.2.2)) =
      some (true, true, 0, { input := [bytes "3\r\nab", bytes "c\r\n0\r\n\r\n"] }) := by decide
  obtain ⟨⟨parser, data, offset, s'⟩, hend, heq⟩ := Option.map_eq_some_iff.1 hrun
  simp only [Prod.mk.injEq] at heq
  obtain ⟨hchunked, hfin, rfl, rfl⟩ := heq
  have hpos : ∀ c ∈ [abc], c.payload ≠ [] := by decide
  have hstream : [] ++ [bytes "3\r\nab", bytes "c\r\n0\r\n\r\n"].flatten =
      ([abc] ++ [lastChunk]).flatMap Chunk.encode ++ [] := by decide
  have hwhole : Whole 64 ([abc] ++ [lastChunk]) [] [bytes "3\r\nab", bytes "c\r\n0\r\n\r\n"] := by decide
  exact chunked_body client hend hchunked hfin (by decide) hpos rfl hstream (by decide) hwhole

/-- A line of which one digit comes alone: what follows it is read as a size of its own. -/
theorem cut_line_read : ¬ ∀ (env : HttpConnection.Env) (s s' : Session) (parser : HttpResponseParser)
    (data : Nat → UInt8) (offset : Nat),
    HttpConnection.headerLoop env.bufferSize (s.input.flatten.length + 1) env.object.new env.memory 0 s =
      some (parser, data, offset, s') → parser.parser.chunked = true → (∀ p ∈ s'.input, p ≠ []) →
    ∀ (chunks : List Chunk) (last : Chunk), (∀ c ∈ chunks, c.payload ≠ []) → last.payload = [] →
    slice data 0 offset ++ s'.input.flatten = (chunks ++ [last]).flatMap Chunk.encode → env.bufferSize < 2 ^ 31 →
    ∃ r s'', HttpConnection.recvResponse env s = .ok (some r, s'') ∧ r.body = chunks.flatMap Chunk.payload := by
  intro hall
  let s : Session := { input := [chunkedHeader, bytes "1", bytes "0\r\n0123456789abcdef\r\n0\r\n\r\n"] }
  let c : Chunk := ⟨bytes "10", bytes "0123456789abcdef", by decide, by decide, by decide, by decide⟩
  have hrun : (HttpConnection.headerLoop 64 (s.input.flatten.length + 1) client.object.new (fun _ => 0) 0 s).map
      (fun q => (q.1.parser.chunked, q.2.2)) =
      some (true, 0, { input := [bytes "1", bytes "0\r\n0123456789abcdef\r\n0\r\n\r\n"] }) := by decide
  have hempty : (HttpConnection.recvResponse client s).toOption.bind (fun p => p.1.map fun r => r.body) = some [] := by
    decide
  obtain ⟨⟨parser, data, offset, s'⟩, hend, heq⟩ := Option.map_eq_some_iff.1 hrun
  simp only [Prod.mk.injEq] at heq
  obtain ⟨hchunked, rfl, rfl⟩ := heq
  have hstream : [] ++ [bytes "1", bytes "0\r\n0123456789abcdef\r\n0\r\n\r\n"].flatten =
      ([c] ++ [lastChunk]).flatMap Chunk.encode := by decide
  obtain ⟨r, s'', hr, hbody⟩ := hall client s _ parser data 0 hend hchunked (by decide) [c] lastChunk (by decide) rfl
    hstream (by decide)
  obtain ⟨r', t, hr', hbody'⟩ := exists_of_toOption hempty
  cases hr.symm.trans hr'
  exact absurd (hbody.symm.trans hbody') (by decide)

end Cut

end Response

end ServerFrame.Http
