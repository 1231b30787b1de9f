/-
The header lines of a response, as `HttpResponse::dump` prints them, in front of the parser of responses. The rules
for `Transfer-Encoding`, `Connection` and `Content-Length` stay in the machine as long as a name begins like theirs;
beside them it is in one state in every name.
-/
import ServerFrame.Http.ResponseFeed
import ServerFrame.Http.Framing
import ServerFrame.Lib.Firsts

namespace ServerFrame.Http

open Ragel

namespace HttpResponseParser

open ClientGrammar (main token)

/-! ## The states of a header line -/

/-- The state after a text. -/
def after (cs : State ClientAction) (w : List UInt8) : State ClientAction := w.foldl (fun s c => s.step c) cs

/-- At the beginning of a header line: what is left of the machine behind the status line. -/
def headersState : State ClientAction :=
  match (main 0).1 with
  | .finishing l (.alt (.seq (.seq _ headers) e) _) => [.finishing l (.seq headers e)]
  | _ => []

/-- In a name, where no other rule than that for all fields goes on. -/
def nameState : State ClientAction := headersState.step 97

/-- After the colon of such a name. -/
def colonState : State ClientAction := nameState.step 58

/-- After the blank behind the colon. -/
def blankState : State ClientAction := colonState.step 32

/-- In the value. -/
def valueState : State ClientAction := blankState.step 97

/-- After the carriage return at the end of the line. -/
def lineEndState : State ClientAction := valueState.step 13

/-- The names with rules of their own, in lower case. -/
def specialNames : List (List UInt8) := [bytes "transfer-encoding", bytes "connection", bytes "content-length"]

/-- The text begins one of them. -/
def Begins (u : List UInt8) : Prop := ∃ name ∈ specialNames, u <+: name

instance : DecidablePred Begins := fun u => inferInstanceAs (Decidable (∃ name ∈ specialNames, u <+: name))

def toupper (c : UInt8) : UInt8 := if 97 ≤ c ∧ c ≤ 122 then c - 32 else c

set_option maxRecDepth 100000 in
/-- The machine on the first byte of a name and, apart from the rules for special names, on the others. -/
theorem name_bytes : ∀ c, token.has c = true →
    (¬ Begins [tolower c] → headersState.step c = nameState) ∧
    headersState.acts c = [.startField] ∧
    nameState.step c = nameState ∧ nameState.acts c = [] := by
  apply forall_byte
  decide

set_option maxRecDepth 100000 in
/-- A name that begins like a special one goes through its states, in upper and in lower case. -/
theorem special_bytes : ∀ name ∈ specialNames, ∀ n : Fin name.length,
    ((after headersState (name.take n)).step (name.getD n 0) = after headersState (name.take (n + 1)) ∧
      (after headersState (name.take n)).step (toupper (name.getD n 0)) = after headersState (name.take (n + 1))) ∧
    (n.1 ≠ 0 → (after headersState (name.take n)).acts (name.getD n 0) = [] ∧
      (after headersState (name.take n)).acts (toupper (name.getD n 0)) = []) ∧
    after headersState (name.take (n + 1)) = (after headersState (name.take (n + 1))).dropLast ++ nameState := by
  decide

/-- The bytes on which the rules for special names go on after a text. -/
def nextBytes (u : List UInt8) : List UInt8 :=
  specialNames.flatMap fun name =>
    if u <+: name then
      match name.drop u.length with
      | [] => [58]
      | d :: _ => [d, toupper d]
    else []

set_option maxRecDepth 100000 in
/-- The rules for special names are left at the first byte that is not the next one of theirs. -/
theorem special_left : ∀ name ∈ specialNames, ∀ n : Fin name.length,
    ∀ e ∈ (after headersState (name.take (n + 1))).dropLast,
      e.firsts &&& ~~~(ByteSet.ofList (nextBytes (name.take (n + 1)))) = 0#256 := by
  decide

set_option maxRecDepth 100000 in
/-- The machine on a byte of a value. -/
theorem value_bytes : ∀ c : UInt8, c ≠ 13 → c ≠ 10 →
    (CLib.isspace c = false → blankState.step c = valueState ∧ blankState.acts c = [.startValue]) ∧
    valueState.step c = valueState ∧ valueState.acts c = [] := by
  apply forall_byte
  decide

set_option maxRecDepth 100000 in
/-- The machine on the bytes between the parts of a line. -/
theorem line_bytes :
    (nameState.acts 58 = [.writeField] ∧ colonState.acts 32 = [.startValue]) ∧
    (blankState.acts 13 = [.startValue, .writeValue] ∧ valueState.acts 13 = [.writeValue]) ∧
    (blankState.step 13 = lineEndState ∧ lineEndState.step 10 = headersState ∧ lineEndState.acts 10 = []) ∧
    ∀ s ∈ [headersState, nameState, colonState, blankState, valueState, lineEndState], s ≠ [] := by
  decide

theorem states_ne_nil :
    ∀ s ∈ [headersState, nameState, colonState, blankState, valueState, lineEndState], s ≠ [] :=
  line_bytes.2.2.2

/-! ## A name -/

theorem letters : ∀ name ∈ specialNames, 58 ∉ name ∧ ∀ d ∈ name, tolower d = d ∧ tolower (toupper d) = d := by
  have hall : (specialNames.all fun name => !name.contains 58 && name.all fun d =>
      tolower d == d && tolower (toupper d) == d) = true := by
    decide
  simpa [List.all_eq_true] using hall

set_option maxRecDepth 100000 in
theorem tolower_cases : ∀ c : UInt8, c = tolower c ∨ c = toupper (tolower c) := by
  apply forall_byte
  decide

theorem mem_nextBytes {u : List UInt8} {c : UInt8} (hc : c ∈ nextBytes u) :
    (c = 58 ∧ u ∈ specialNames) ∨ Begins (u ++ [tolower c]) := by
  obtain ⟨name, hname, hc⟩ := List.mem_flatMap.1 hc
  split at hc
  · rename_i hpre
    obtain ⟨v, rfl⟩ := hpre
    rw [List.drop_left] at hc
    cases v with
    | nil =>
      rw [List.append_nil] at hname
      exact .inl ⟨List.mem_singleton.1 hc, hname⟩
    | cons d v =>
      obtain ⟨hd, hd'⟩ := (letters _ hname).2 d (by simp)
      have hlow : tolower c = d := by
        rcases List.mem_cons.1 hc with rfl | hc
        · exact hd
        · rw [List.mem_singleton.1 hc]
          exact hd'
      refine .inr ⟨_, hname, v, ?_⟩
      rw [hlow, List.append_assoc]
      rfl
  · cases hc

/-- The state after the bytes of a name. -/
def nameAfter (key : List UInt8) : State ClientAction :=
  if Begins (key.map tolower) then after headersState (key.map tolower) else nameState

/-- In a name that begins like a special one the machine is in the state of every name and in others, all of which go
on with the special name only. -/
theorem nameAfter_begins {u : List UInt8} (hne : u ≠ []) (hu : Begins u) :
    ∃ s : State ClientAction, after headersState u = s ++ nameState ∧
      ∀ e ∈ s, ∀ c, e.firsts.has c = true → c ∈ nextBytes u := by
  obtain ⟨name, hname, hpre⟩ := hu
  have hlen := hpre.length_le
  have hpos := List.length_pos_iff.2 hne
  have htake : name.take (u.length - 1 + 1) = u := by
    rw [Nat.sub_add_cancel hpos]
    exact (List.prefix_iff_eq_take.1 hpre).symm
  have hspec := (special_bytes name hname ⟨u.length - 1, by omega⟩).2.2
  have hleft := special_left name hname ⟨u.length - 1, by omega⟩
  rw [htake] at hspec hleft
  exact ⟨_, hspec, fun e he c hc => ByteSet.has_ofList.1 (ByteSet.has_of_diff (hleft e he) hc)⟩

theorem step_special {u : List UInt8} {c d : UInt8} (hc : c = d ∨ c = toupper d) (hu : Begins (u ++ [d])) :
    (after headersState u).step c = after headersState (u ++ [d]) ∧
      (u ≠ [] → (after headersState u).acts c = []) := by
  obtain ⟨name, hname, v, rfl⟩ := hu
  have hlt : u.length < (u ++ [d] ++ v).length := by
    rw [List.length_append, List.length_append, List.length_singleton]
    omega
  have htake : (u ++ [d] ++ v).take u.length = u := by
    rw [List.append_assoc, List.take_left]
  have htake' : (u ++ [d] ++ v).take (u.length + 1) = u ++ [d] := List.take_left' (by simp)
  have hget : (u ++ [d] ++ v).getD u.length 0 = d := by
    rw [List.append_assoc, List.getD_eq_getElem?_getD, List.getElem?_append_right (le_refl _), Nat.sub_self]
    rfl
  obtain ⟨⟨hlow, hup⟩, hacts, -⟩ := special_bytes _ hname ⟨u.length, hlt⟩
  rw [htake, htake', hget] at hlow hup
  rw [htake, hget] at hacts
  have hpos : u ≠ [] → u.length ≠ 0 := fun hne h0 => hne (List.length_eq_zero_iff.1 h0)
  rcases hc with rfl | rfl
  · exact ⟨hlow, fun hne => (hacts (hpos hne)).1⟩
  · exact ⟨hup, fun hne => (hacts (hpos hne)).2⟩

theorem Begins.of_append {u v : List UInt8} (h : Begins (u ++ v)) : Begins u := by
  obtain ⟨name, hname, hpre⟩ := h
  exact ⟨name, hname, (List.prefix_append u v).trans hpre⟩

/-- A further byte of a name. -/
theorem step_nameAfter {key : List UInt8} {c : UInt8} (hne : key ≠ []) (hc : token.has c = true) :
    (nameAfter key).step c = nameAfter (key ++ [c]) ∧ (nameAfter key).acts c = [] := by
  obtain ⟨-, -, hstep, hacts⟩ := name_bytes c hc
  have hmap : (key ++ [c]).map tolower = key.map tolower ++ [tolower c] := by simp
  have hne' : key.map tolower ≠ [] := by simpa using hne
  have h58 : c ≠ 58 := by
    rintro rfl
    revert hc
    decide
  unfold nameAfter
  rw [hmap]
  by_cases hlong : Begins (key.map tolower ++ [tolower c])
  · rw [if_pos hlong, if_pos hlong.of_append]
    exact ⟨(step_special (tolower_cases c) hlong).1, (step_special (tolower_cases c) hlong).2 hne'⟩
  · rw [if_neg hlong]
    by_cases hshort : Begins (key.map tolower)
    · obtain ⟨s, hs, hfirsts⟩ := nameAfter_begins hne' hshort
      have hleft : ∀ e ∈ s, e.firsts.has c = false := fun e he => by
        rw [Bool.eq_false_iff]
        intro h
        rcases mem_nextBytes (hfirsts e he c h) with ⟨rfl, -⟩ | h
        · exact h58 rfl
        · exact hlong h
      rw [if_pos hshort, hs, State.step_append_of_firsts hleft, State.acts_append_of_firsts hleft]
      exact ⟨hstep, hacts⟩
    · rw [if_neg hshort]
      exact ⟨hstep, hacts⟩

/-- The first byte of a name. -/
theorem step_headersState {c : UInt8} (hc : token.has c = true) : headersState.step c = nameAfter [c] := by
  unfold nameAfter
  rw [List.map_singleton]
  split
  · rename_i hb
    exact (step_special (u := []) (tolower_cases c) hb).1
  · rename_i hb
    exact (name_bytes c hc).1 hb

theorem nameAfter_ne_nil {key : List UInt8} (hne : key ≠ []) : nameAfter key ≠ [] := by
  have hname : nameState ≠ [] := states_ne_nil _ (by simp)
  unfold nameAfter
  split
  · rename_i hb
    obtain ⟨s, hs, -⟩ := nameAfter_begins (by simpa using hne) hb
    rw [hs]
    simp [hname]
  · exact hname

/-- The colon after a name without rules of its own. -/
theorem colon_nameAfter {key : List UInt8} (hne : key ≠ []) (hkey : key.map tolower ∉ specialNames) :
    (nameAfter key).step 58 = colonState ∧ (nameAfter key).acts 58 = [.writeField] := by
  have hcolon : nameState.acts 58 = [.writeField] := line_bytes.1.1
  unfold nameAfter
  split
  · rename_i hb
    obtain ⟨s, hs, hfirsts⟩ := nameAfter_begins (by simpa using hne) hb
    have hleft : ∀ e ∈ s, e.firsts.has 58 = false := fun e he => by
      rw [Bool.eq_false_iff]
      intro h
      rcases mem_nextBytes (hfirsts e he 58 h) with ⟨-, h⟩ | ⟨name, hname, hpre⟩
      · exact hkey h
      · exact (letters name hname).1 (hpre.subset (by simp [tolower]))
    rw [hs, State.step_append_of_firsts hleft, State.acts_append_of_firsts hleft]
    exact ⟨rfl, hcolon⟩
  · exact ⟨rfl, hcolon⟩

section Lines

variable {buffer : Nat → UInt8} {pe p : Nat} {h h' : HttpResponseParser}

/-- The parser after a name of `n` bytes at `p`. -/
def named (h : HttpResponseParser) (p n : Nat) : HttpResponseParser :=
  { h with parser := { h.parser with fieldStart := p, fieldLen := n } }

def marked (h : HttpResponseParser) (p : Nat) : HttpResponseParser := { h with parser := { h.parser with mark := p } }

theorem feeds_nameRest {w : List UInt8} (hw : ∀ c ∈ w, token.has c = true) {u : List UInt8} (hne : u ≠ [])
    (hp : Spells buffer p w) : Feeds buffer pe p w.length (nameAfter u) h (nameAfter (u ++ w)) h := by
  induction w generalizing u p with
  | nil =>
    rw [List.append_nil]
    exact .none
  | cons c w ih =>
    obtain ⟨hstep, hacts⟩ := step_nameAfter hne (hw c (List.mem_cons_self ..))
    have hne' : u ++ [c] ≠ [] := by simp
    have hfirst : Feeds buffer pe p 1 (nameAfter u) h (nameAfter (u ++ [c])) h :=
      .byte hp.1 hstep (nameAfter_ne_nil hne') hacts (by simp) rfl
    have hrest := ih (fun d hd => hw d (List.mem_cons_of_mem _ hd)) hne' hp.2
    rw [List.append_assoc] at hrest
    rw [List.length_cons, Nat.add_comm]
    exact hfirst.trans hrest

/-- A name, the colon and the blank behind it. -/
theorem feeds_name (pe : Nat) {key : List UInt8} (hne : key ≠ []) (htok : ∀ c ∈ key, token.has c = true)
    (hkey : key.map tolower ∉ specialNames) (hp : Spells buffer p (key ++ [58, 32])) :
    Feeds buffer pe p (key.length + 2) headersState h blankState
      ((h.named p key.length).marked (p + key.length + 1)) := by
  obtain ⟨hpk, hpc, hpb, -⟩ := spells_append.1 hp
  obtain ⟨hcolon, hwrite⟩ := colon_nameAfter hne hkey
  have hname : Feeds buffer pe p key.length headersState h (nameAfter key)
      { h with parser := { h.parser with fieldStart := p } } := by
    match key, hne with
    | c :: w, _ =>
      have hc := htok c (List.mem_cons_self ..)
      have hfirst : Feeds buffer pe p 1 headersState h (nameAfter [c])
          { h with parser := { h.parser with fieldStart := p } } :=
        .byte hpk.1 (step_headersState hc) (nameAfter_ne_nil (by simp)) (name_bytes c hc).2.1 (by decide) rfl
      rw [List.length_cons, Nat.add_comm]
      exact hfirst.trans (feeds_nameRest (fun d hd => htok d (List.mem_cons_of_mem _ hd)) (by simp) hpk.2)
  have hfield : Feeds buffer pe (p + key.length) 1 (nameAfter key)
      { h with parser := { h.parser with fieldStart := p } } colonState (h.named p key.length) := by
    refine .byte hpc hcolon (states_ne_nil _ (by simp)) hwrite (by decide) ?_
    simp [perform, act, named, len]
  have hblank : Feeds buffer pe (p + key.length + 1) 1 colonState (h.named p key.length) blankState
      ((h.named p key.length).marked (p + key.length + 1)) :=
    .byte hpb rfl (states_ne_nil _ (by simp)) line_bytes.1.2 (by decide) rfl
  exact hname.trans (hfield.trans hblank)

/-- A value up to the end of its line. -/
theorem feeds_value (pe : Nat) {val : List UInt8} (hval : ∀ c ∈ val, c ≠ 13 ∧ c ≠ 10)
    (hblank : ∀ c, val.head? = some c → CLib.isspace c = false) (hp : Spells buffer p val) :
    Feeds buffer pe p val.length blankState h (if val = [] then blankState else valueState)
      (if val = [] then h else h.marked p) := by
  match val with
  | [] => exact .none
  | c :: w =>
    obtain ⟨h13, h10⟩ := hval c (List.mem_cons_self ..)
    obtain ⟨hstep, hacts⟩ := (value_bytes c h13 h10).1 (hblank c rfl)
    have hne : valueState ≠ [] := states_ne_nil _ (by simp)
    have hfirst : Feeds buffer pe p 1 blankState h valueState (h.marked p) :=
      .byte hp.1 hstep hne hacts (by decide) rfl
    have hrest : Feeds buffer pe (p + 1) w.length valueState (h.marked p) valueState (h.marked p) :=
      .quiet (fun d hd => (value_bytes d (hval d (List.mem_cons_of_mem _ hd)).1
        (hval d (List.mem_cons_of_mem _ hd)).2).2) hne hp.2
    rw [if_neg (by simp), if_neg (by simp), List.length_cons, Nat.add_comm]
    exact hfirst.trans hrest

theorem act_writeValue {key val : List UInt8} {start m fpc : Nat} (hpk : Spells buffer start key)
    (hpv : Spells buffer m val) (hs : h.parser.fieldStart = start) (hl : h.parser.fieldLen = key.length)
    (hm : h.parser.mark = m) (hfpc : fpc = m + val.length) (hne : key ≠ []) (hklen : key.length < 2 ^ 63)
    (hvlen : val.length < 2 ^ 63) :
    h.act buffer pe fpc .writeValue = .ok { h with data := h.data.setHeader key val } := by
  have hk : mkString buffer start key.length = .ok key := hpk.mkString_eq rfl hklen
  have hflen : key.length ≠ 0 := fun hk => hne (List.length_eq_zero_iff.1 hk)
  rw [act, onResponseHttpField, hs, hl, hm, if_neg hflen, hk, len_string hvlen hpv hfpc]
  rfl

/-- What the client makes of a header line that has no rule of its own: its name is taken to the colon, and its value
from the first byte that is no blank to the end of the line. -/
structure Receivable (x : List UInt8 × List UInt8) : Prop where
  nonempty : x.1 ≠ []
  tokens : ∀ c ∈ x.1, token.has c = true
  plain : x.1.map tolower ∉ specialNames
  value : ∀ c ∈ x.2, c ≠ 13 ∧ c ≠ 10
  blank : ∀ c, x.2.head? = some c → CLib.isspace c = false

/-- The parser has gone on to this response and is otherwise as it was, for what is looked at when it is done. -/
structure Leaves (h : HttpResponseParser) (data : HttpResponse) (h' : HttpResponseParser) : Prop where
  data : h'.data = data
  error : h'.error = h.error
  chunked : h'.parser.chunked = h.parser.chunked

theorem Leaves.trans {d d' : HttpResponse} {h'' : HttpResponseParser} (h1 : Leaves h d h') (h2 : Leaves h' d' h'') :
    Leaves h d' h'' :=
  ⟨h2.data, h2.error.trans h1.error, h2.chunked.trans h1.chunked⟩

/-- The end of a line with a value that has been marked. -/
theorem feeds_lineEnd {s : State ClientAction} (hs : s.step 13 = lineEndState) {as : List ClientAction}
    (hacts : s.acts 13 = as) (hd : .done ∉ as) (hperform : perform buffer pe h (as.map (Prod.mk p)) = .ok h')
    (hp : Spells buffer p [13, 10]) : Feeds buffer pe p 2 s h headersState h' := by
  have hreturn : Feeds buffer pe p 1 s h lineEndState h' :=
    .byte hp.1 hs (states_ne_nil _ (by simp)) hacts hd hperform
  have hfeed : Feeds buffer pe (p + 1) 1 lineEndState h' headersState h' :=
    .byte hp.2.1 line_bytes.2.2.1.2.1 (states_ne_nil _ (by simp)) line_bytes.2.2.1.2.2 (by simp) rfl
  exact hreturn.trans hfeed

/-- A header line. -/
theorem feeds_header (pe : Nat) {x : List UInt8 × List UInt8} (hx : Receivable x)
    (hp : Spells buffer p (HttpRequest.dumpHeader x.1 x.2)) (hklen : x.1.length < 2 ^ 63)
    (hvlen : x.2.length < 2 ^ 63) :
    ∃ h', Feeds buffer pe p (HttpRequest.dumpHeader x.1 x.2).length headersState h headersState h' ∧
      Leaves h (h.data.setHeader x.1 x.2) h' := by
  obtain ⟨key, val⟩ := x
  have htext : HttpRequest.dumpHeader key val = (key ++ [58, 32]) ++ (val ++ [13, 10]) := by
    simp [HttpRequest.dumpHeader, bytes]
  rw [htext] at hp ⊢
  obtain ⟨hpn, hpt⟩ := spells_append.1 hp
  obtain ⟨hpv, hpe⟩ := spells_append.1 hpt
  have hname := feeds_name (h := h) pe hx.nonempty hx.tokens hx.plain hpn
  let h1 := (h.named p key.length).marked (p + key.length + 1)
  have hm : p + (key ++ [58, 32]).length = p + (key.length + 2) := by simp
  rw [hm] at hpv hpe
  generalize hmark : p + (key.length + 2) = m at hpv hpe
  have hvalue := feeds_value (h := h1) pe hx.value hx.blank hpv
  let h2 : HttpResponseParser := { h1.marked m with data := h.data.setHeader key val }
  have hwrite : (h1.marked m).act buffer pe (m + val.length) .writeValue = .ok h2 :=
    act_writeValue (h := h1.marked m) (spells_append.1 hpn).1 hpv rfl rfl rfl rfl hx.nonempty hklen hvlen
  have hend : Feeds buffer pe (m + val.length) 2 (if val = [] then blankState else valueState)
      (if val = [] then h1 else h1.marked m) headersState h2 := by
    by_cases hval : val = []
    · subst hval
      rw [if_pos rfl, if_pos rfl]
      refine feeds_lineEnd line_bytes.2.2.1.1 line_bytes.2.1.1 (by decide) ?_ hpe
      have hmarked : h1.act buffer pe (m + ([] : List UInt8).length) .startValue = .ok (h1.marked m) := rfl
      rw [List.map_cons, perform, hmarked, List.map_singleton]
      simp only
      rw [perform, hwrite]
      rfl
    · rw [if_neg hval, if_neg hval]
      refine feeds_lineEnd rfl line_bytes.2.1.2 (by decide) ?_ hpe
      rw [List.map_singleton, perform, hwrite]
      rfl
  have hlen : ((key ++ [58, 32]) ++ (val ++ [13, 10])).length = (key.length + 2) + (val.length + 2) := by
    rw [List.length_append, List.length_append, List.length_append]
    rfl
  rw [hlen]
  refine ⟨h2, hname.trans ?_, rfl, rfl, rfl⟩
  rw [hmark]
  exact hvalue.trans hend

/-- Header lines in sequence. -/
theorem feeds_headers (pe : Nat) {xs : MapType} (hxs : ∀ x ∈ xs, Receivable x) (hp : Spells buffer p (linesText xs))
    (hlen : (linesText xs).length < 2 ^ 63) :
    ∃ h', Feeds buffer pe p (linesText xs).length headersState h headersState h' ∧
      Leaves h (xs.foldl (fun r x => r.setHeader x.1 x.2) h.data) h' := by
  induction xs generalizing p h with
  | nil => exact ⟨h, .none, rfl, rfl, rfl⟩
  | cons x xs ih =>
    have htext : linesText (x :: xs) = HttpRequest.dumpHeader x.1 x.2 ++ linesText xs := List.flatMap_cons
    rw [htext] at hp hlen ⊢
    obtain ⟨hpx, hpxs⟩ := spells_append.1 hp
    rw [List.length_append] at hlen ⊢
    have hbig : x.1.length + x.2.length ≤ (HttpRequest.dumpHeader x.1 x.2).length := by
      simp only [HttpRequest.dumpHeader, List.length_append]
      omega
    obtain ⟨h1, hfirst, hleaves⟩ :=
      feeds_header (h := h) pe (hxs x (List.mem_cons_self ..)) hpx (by omega) (by omega)
    obtain ⟨h2, hrest, hleaves'⟩ := ih (h := h1) (fun y hy => hxs y (List.mem_cons_of_mem _ hy)) hpxs (by omega)
    rw [hleaves.data] at hleaves'
    exact ⟨h2, hfirst.trans hrest, hleaves.trans hleaves'⟩

end Lines

end HttpResponseParser

end ServerFrame.Http
