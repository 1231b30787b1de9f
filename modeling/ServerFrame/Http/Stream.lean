/-
What reads of a stream return (`stream.cc`): the bytes that come before the first read that returns nothing; and where
they stand in the buffer.
-/
import ServerFrame.Http.Reads

namespace ServerFrame.Http

/-! ## The buffer -/

section Buffer

variable {data : Nat → UInt8} {n : Nat}

theorem length_slice (data : Nat → UInt8) (start n : Nat) : (slice data start n).length = n := by
  rw [slice, List.length_map, List.length_range]

theorem getElem?_slice {start i : Nat} (hi : i < n) : (slice data start n)[i]? = some (data (start + i)) := by
  rw [slice, List.getElem?_map, List.getElem?_range hi, Option.map_some]

theorem slice_congr {data' : Nat → UInt8} {start start' : Nat} (h : ∀ i < n, data (start + i) = data' (start' + i)) :
    slice data start n = slice data' start' n :=
  List.map_congr_left fun i hi => h i (List.mem_range.1 hi)

theorem slice_add (data : Nat → UInt8) (start k n : Nat) :
    slice data start (k + n) = slice data start k ++ slice data (start + k) n := by
  rw [slice, List.range_add, List.map_append, List.map_map]
  congr 1
  refine List.map_congr_left fun i _ => ?_
  rw [Function.comp_apply, Nat.add_assoc]

/-- What was read stands behind what was there. -/
theorem slice_store (data : Nat → UInt8) (offset : Nat) (piece : List UInt8) :
    slice (store data offset piece) 0 (offset + piece.length) = slice data 0 offset ++ piece := by
  rw [slice_add]
  congr 1
  · refine slice_congr fun i hi => ?_
    rw [store, if_neg (by omega)]
  · refine List.ext_getElem? fun i => ?_
    rcases Nat.lt_or_ge i piece.length with hi | hi
    · rw [getElem?_slice hi, store, if_pos (by omega), List.getD_eq_getElem?_getD, List.getElem?_eq_getElem (by omega),
        Option.getD_some, List.getElem?_eq_getElem hi]
      congr 2
      omega
    · rw [List.getElem?_eq_none (by rwa [length_slice]), List.getElem?_eq_none hi]

/-- `memmove` brings what was not consumed to the front. -/
theorem slice_consumed {len : Nat} (hn : n ≤ len) :
    slice (HttpRequestParser.memmove data n (len - n)) 0 (len - n) = (slice data 0 len).drop n := by
  have hsplit : slice data 0 len = slice data 0 n ++ slice data (0 + n) (len - n) := by
    rw [← slice_add, Nat.add_sub_cancel' hn]
  rw [hsplit, List.drop_left' (length_slice ..)]
  refine slice_congr fun i hi => ?_
  rw [HttpRequestParser.memmove, if_pos (by omega)]
  congr 1
  omega

end Buffer

/-! ## Reads -/

namespace Session

variable {s : Session} {n : Nat}

/-- The bytes that reads return before one returns nothing. -/
def available (s : Session) : List UInt8 := if s.connected then (s.input.takeWhile (· ≠ [])).flatten else []

/-- A read takes what it returns off the stream and leaves the socket open or closed. -/
theorem read_flatten (s : Session) (n : Nat) :
    s.input.flatten = (s.read n).1 ++ (s.read n).2.input.flatten ∧ (s.read n).2.connected = s.connected := by
  unfold read
  split
  · exact ⟨rfl, rfl⟩
  · split
    · exact ⟨rfl, rfl⟩
    · rename_i p ps hinput
      rw [hinput, List.flatten_cons]
      refine ⟨?_, rfl⟩
      dsimp only
      split
      · rename_i hle
        rw [List.take_of_length_le hle]
      · rw [List.flatten_cons, ← List.append_assoc, List.take_append_drop]

theorem length_read_le (s : Session) (n : Nat) : (s.read n).1.length ≤ n := by
  unfold read
  split
  · exact Nat.zero_le _
  · split
    · exact Nat.zero_le _
    · exact List.length_take_le ..

theorem available_of_closed (h : s.connected = false) : s.available = [] := by
  rw [available, h, if_neg Bool.false_ne_true]

theorem available_nil (h : s.input = []) : s.available = [] := by
  rw [available, h]
  exact ite_self _

theorem available_stop {ps : List (List UInt8)} (h : s.input = [] :: ps) : s.available = [] := by
  rw [available, h]
  exact ite_self _

theorem available_cons {p : List UInt8} {ps : List (List UInt8)} (hconn : s.connected = true) (h : s.input = p :: ps)
    (hp : p ≠ []) : s.available = p ++ { s with input := ps }.available := by
  rw [available, available, h, hconn, if_pos rfl, if_pos rfl, List.takeWhile_cons_of_pos (by simpa using hp),
    List.flatten_cons]

/-- A read of at least one byte returns nothing where nothing is available, else a part of what is. -/
theorem read_available (s : Session) (hn : 0 < n) : ((s.read n).1 = [] ∧ s.available = []) ∨
    ((s.read n).1 ≠ [] ∧ s.available = (s.read n).1 ++ (s.read n).2.available) := by
  unfold read
  split
  · rename_i hclosed
    exact .inl ⟨rfl, available_of_closed (by simpa using hclosed)⟩
  · rename_i hopen
    have hconn : s.connected = true := by simpa using hopen
    split
    · rename_i hinput
      exact .inl ⟨rfl, available_nil hinput⟩
    · rename_i p ps hinput
      by_cases hp : p = []
      · subst hp
        exact .inl ⟨List.take_nil, available_stop hinput⟩
      · have hpos := List.length_pos_iff.2 hp
        refine .inr ⟨fun h0 => ?_, ?_⟩
        · have hlen := congrArg List.length h0
          rw [List.length_take, List.length_nil] at hlen
          omega
        · rw [available_cons hconn hinput hp]
          dsimp only
          split
          · rename_i hle
            rw [List.take_of_length_le hle]
          · rename_i hlt
            have hdrop : p.drop n ≠ [] := fun h0 => hlt (List.drop_eq_nil_iff.1 h0)
            rw [available_cons (s := { s with input := p.drop n :: ps }) hconn rfl hdrop, ← List.append_assoc,
              List.take_append_drop]

/-- The first `n` bytes of what is available are taken off. -/
structure Took (s : Session) (n : Nat) (s' : Session) : Prop where
  available : s'.available = s.available.drop n
  flatten : s'.input.flatten = s.input.flatten.drop n
  connected : s'.connected = s.connected

theorem Took.zero (s : Session) : Took s 0 s := ⟨rfl, rfl, rfl⟩

theorem Took.trans {t u : Session} {m : Nat} (h : Took s n t) (h' : Took t m u) : Took s (n + m) u where
  available := by rw [h'.available, h.available, List.drop_drop]
  flatten := by rw [h'.flatten, h.flatten, List.drop_drop]
  connected := h'.connected.trans h.connected

theorem read_took (hread : s.available = (s.read n).1 ++ (s.read n).2.available) :
    Took s (s.read n).1.length (s.read n).2 where
  available := by rw [hread, List.drop_left]
  flatten := by
    rw [(read_flatten s n).1, List.drop_left]
  connected := (read_flatten s n).2

/-- The loop of `readFixSize`, whatever pieces the bytes come in. -/
theorem readLoop_available : ∀ {turns left : Nat} (s : Session) (buffer : List UInt8), left < turns →
    (left ≤ s.available.length → ∃ s', s.readLoop turns left buffer = (some (buffer ++ s.available.take left), s') ∧
      Took s left s') ∧
    (s.available.length < left → ∃ s', s.readLoop turns left buffer = (none, s'))
  | turns + 1, left, s, buffer, hturns => by
    rw [readLoop]
    by_cases hleft : left = 0
    · subst hleft
      rw [if_pos rfl]
      exact ⟨fun _ => ⟨s, by rw [List.take_zero, List.append_nil], .zero s⟩, fun h => absurd h (Nat.not_lt_zero _)⟩
    · rw [if_neg hleft]
      have hpos : 0 < left := Nat.pos_of_ne_zero hleft
      have hlen := length_read_le s left
      rcases read_available s hpos with ⟨hpiece, hnone⟩ | ⟨hpiece, hsome⟩
      · rcases hread : s.read left with ⟨piece, s₁⟩
        rw [hread] at hpiece
        subst hpiece
        rw [hnone]
        exact ⟨fun hle => absurd hle (Nat.not_le.2 hpos), fun _ => ⟨s₁, rfl⟩⟩
      · have htook := read_took hsome
        rcases hread : s.read left with ⟨piece, s₁⟩
        rw [hread] at hpiece hsome htook hlen
        simp only at hpiece hsome htook hlen
        obtain ⟨c, cs, rfl⟩ := List.exists_cons_of_ne_nil hpiece
        have hmore : left - (c :: cs).length < turns := by
          rw [List.length_cons]
          omega
        obtain ⟨hread', hfail⟩ := readLoop_available s₁ (buffer ++ c :: cs) hmore
        have havail : s.available.length = (c :: cs).length + s₁.available.length := by rw [hsome, List.length_append]
        refine ⟨fun hle => ?_, fun hlt => hfail (by omega)⟩
        obtain ⟨s', hrun, htook'⟩ := hread' (by omega)
        refine ⟨s', ?_, ?_⟩
        · simp only
          rw [hrun, hsome, List.append_assoc, List.take_append, List.take_of_length_le hlen]
        · rw [← Nat.add_sub_cancel' hlen]
          exact htook.trans htook'

/-- `readFixSize(buffer, length)`: exactly the next bytes, if their number is positive as an `int`, or nothing where
fewer are available. -/
theorem readFixSize_available (s : Session) (hn : 0 < n) :
    (n ≤ s.available.length → n < 2 ^ 31 → ∃ s', s.readFixSize n = (some (s.available.take n), s') ∧ Took s n s') ∧
    (s.available.length < n → ∃ s', s.readFixSize n = (none, s')) := by
  obtain ⟨hread, hfail⟩ := readLoop_available s [] (Nat.lt_succ_self n)
  refine ⟨fun hle h31 => ?_, fun hlt => ?_⟩
  · obtain ⟨s', hrun, htook⟩ := hread hle
    refine ⟨s', ?_, htook⟩
    rw [readFixSize, hrun]
    exact if_neg (by rw [toInt_of_lt h31]; omega)
  · obtain ⟨s', hrun⟩ := hfail hlt
    exact ⟨s', by rw [readFixSize, hrun]⟩

end Session

end ServerFrame.Http
