/-
The parser on the header lines: a line whose name and value the grammar takes is assigned to the headers. The states the
machine goes through are few and closed, so that what it does on a byte is a question about that byte only.
-/
import ServerFrame.Http.RequestLine
import ServerFrame.Http.Dump

namespace ServerFrame.Http

open Ragel Grammar

/-! ## The states of a header line -/

/-- In the name. -/
def nameState : State Action := headerState.step 97

/-- After a carriage return at the beginning of a line, which may be the first byte of a name. -/
def returnState : State Action := headerState.step 13

/-- After the colon. -/
def colonState : State Action := nameState.step 58

/-- After the blank that follows the colon. -/
def blankState : State Action := colonState.step 32

/-- In the value. -/
def valueState : State Action := blankState.step 97

/-- In the value, after a blank of it. -/
def valueBlankState : State Action := valueState.step 32

/-- After the carriage return at the end of the line. -/
def lineEndState : State Action := valueState.step 13

/-- The bytes of a value that are not bytes of a line break. -/
def valueChar (c : UInt8) : Bool := c != 0 && c != 127 && c != 13 && c != 10

/-- The machine on a byte of a name. -/
theorem name_bytes : ∀ c, token.has c = true →
    (c ≠ 10 → c ≠ 13 → headerState.step c = nameState ∧ headerState.acts c = [.startField]) ∧
    (nameState.step c = nameState ∧ nameState.acts c = []) ∧
    (c ≠ 10 → returnState.step c = nameState ∧ returnState.acts c = []) := by
  apply forall_byte
  decide +kernel

/-- The machine on a byte of a value. -/
theorem value_bytes : ∀ c, valueChar c = true →
    (c ≠ 32 → c ≠ 9 → blankState.step c = valueState ∧ blankState.acts c = [.startValue]) ∧
    ∀ s ∈ [valueState, valueBlankState],
      s.step c = (if c = 32 ∨ c = 9 then valueBlankState else valueState) ∧ s.acts c = [] := by
  apply forall_byte
  decide +kernel

set_option maxRecDepth 100000 in
/-- The machine on the bytes between the parts of a line. -/
theorem line_bytes :
    (headerState.acts 13 = [.startField] ∧ nameState.acts 58 = [.writeField] ∧
      returnState.step 58 = colonState ∧ returnState.acts 58 = [.writeField] ∧ colonState.acts 32 = [.startValue]) ∧
    (∀ s ∈ [nameState, returnState, colonState, blankState, valueState, valueBlankState, lineEndState], s ≠ []) ∧
    (∀ s ∈ [blankState, valueState, valueBlankState],
      s.step 13 = lineEndState ∧ s.step 0 = [] ∧ s.step 127 = []) ∧
    (blankState.acts 13 = [.startValue, .writeValue] ∧ valueState.acts 13 = [.writeValue] ∧
      valueBlankState.acts 13 = [.writeValue] ∧ lineEndState.step 10 = headerState ∧ lineEndState.acts 10 = []) ∧
    (headerState.acts 10 = [.startField, .done] ∧ (headerState.step 10).final = true ∧
      returnState.acts 10 = [.done] ∧ (returnState.step 10).final = true) := by
  decide

theorem headerState_name (c : UInt8) (hc : token.has c = true) (h10 : c ≠ 10) (h13 : c ≠ 13) :
    headerState.step c = nameState ∧ headerState.acts c = [.startField] :=
  (name_bytes c hc).1 h10 h13

theorem nameState_name (c : UInt8) (hc : token.has c = true) : nameState.step c = nameState ∧ nameState.acts c = [] :=
  (name_bytes c hc).2.1

theorem returnState_name (c : UInt8) (hc : token.has c = true) (h10 : c ≠ 10) :
    returnState.step c = nameState ∧ returnState.acts c = [] :=
  (name_bytes c hc).2.2 h10

theorem name_states : headerState.acts 13 = [.startField] ∧ nameState.acts 58 = [.writeField] ∧
    returnState.step 58 = colonState ∧ returnState.acts 58 = [.writeField] ∧ colonState.acts 32 = [.startValue] :=
  line_bytes.1

theorem states_ne_nil :
    ∀ s ∈ [nameState, returnState, colonState, blankState, valueState, valueBlankState, lineEndState], s ≠ [] :=
  line_bytes.2.1

theorem blankState_value (c : UInt8) (hc : valueChar c = true) (h32 : c ≠ 32) (h9 : c ≠ 9) :
    blankState.step c = valueState ∧ blankState.acts c = [.startValue] :=
  (value_bytes c hc).1 h32 h9

theorem valueState_value (c : UInt8) (hc : valueChar c = true) :
    valueState.step c = (if c = 32 ∨ c = 9 then valueBlankState else valueState) ∧ valueState.acts c = [] :=
  (value_bytes c hc).2 _ (by simp)

theorem valueBlankState_value (c : UInt8) (hc : valueChar c = true) :
    valueBlankState.step c = (if c = 32 ∨ c = 9 then valueBlankState else valueState) ∧ valueBlankState.acts c = [] :=
  (value_bytes c hc).2 _ (by simp)

theorem value_ends : ∀ s ∈ [blankState, valueState, valueBlankState],
    s.step 13 = lineEndState ∧ s.step 0 = [] ∧ s.step 127 = [] :=
  line_bytes.2.2.1

theorem value_acts : blankState.acts 13 = [.startValue, .writeValue] ∧ valueState.acts 13 = [.writeValue] ∧
    valueBlankState.acts 13 = [.writeValue] ∧ lineEndState.step 10 = headerState ∧ lineEndState.acts 10 = [] :=
  line_bytes.2.2.2.1

theorem done_states : headerState.acts 10 = [.startField, .done] ∧ (headerState.step 10).final = true ∧
    returnState.acts 10 = [.done] ∧ (returnState.step 10).final = true :=
  line_bytes.2.2.2.2

/-! ## A name -/

/-- Names that the machine takes to the colon: others begin like the line that ends the headers. -/
def Plausible (key : List UInt8) : Prop := key.head? ≠ some 10 ∧ key.take 2 ≠ [13, 10]

instance (key : List UInt8) : Decidable (Plausible key) := inferInstanceAs (Decidable (_ ∧ _))

section Lines

variable {buffer : Nat → UInt8} {p : Nat} {h : HttpRequestParser}

theorem quiet_name {w : List UInt8} (hw : ∀ c ∈ w, token.has c = true) : quiet nameState w = some nameState := by
  induction w with
  | nil => rfl
  | cons c w ih =>
    obtain ⟨hstep, hacts⟩ := nameState_name c (hw c (List.mem_cons_self ..))
    rw [quiet, hstep, hacts, if_neg (by simpa using states_ne_nil nameState (by simp))]
    exact ih fun d hd => hw d (List.mem_cons_of_mem _ hd)

/-- The bytes of a name. -/
theorem feeds_nameBytes {key : List UInt8} (hne : key ≠ []) (htok : ∀ c ∈ key, token.has c = true)
    (hplaus : Plausible key) (hp : Spells buffer p key) :
    ∃ s, (s = nameState ∨ s = returnState) ∧ Feeds buffer p key.length headerState h s
      { h with parser := { h.parser with fieldStart := p } } := by
  match key, hne with
  | c :: key, _ =>
    have hc := htok c (List.mem_cons_self ..)
    have hlf : c ≠ 10 := fun hc => hplaus.1 (by rw [hc]; rfl)
    have hrest : ∀ d ∈ key, token.has d = true := fun d hd => htok d (List.mem_cons_of_mem _ hd)
    rw [List.length_cons, Nat.add_comm]
    by_cases hcr : c = 13
    · subst hcr
      have hfirst : Feeds buffer p 1 headerState h returnState { h with parser := { h.parser with fieldStart := p } } :=
        .byte hp.1 rfl (states_ne_nil _ (by simp)) name_states.1 (by decide) rfl
      match key with
      | [] => exact ⟨_, .inr rfl, hfirst.trans .none⟩
      | d :: key =>
        have hd : d ≠ 10 := fun hd => hplaus.2 (by rw [hd]; rfl)
        obtain ⟨hstep, hacts⟩ := returnState_name d (hrest d (List.mem_cons_self ..)) hd
        refine ⟨_, .inl rfl, hfirst.trans (.quiet ?_ hp.2)⟩
        rw [quiet, hstep, hacts, if_neg (by simpa using states_ne_nil nameState (by simp))]
        exact quiet_name fun e he => hrest e (List.mem_cons_of_mem _ he)
    · obtain ⟨hstep, hacts⟩ := headerState_name c hc hlf hcr
      have hfirst : Feeds buffer p 1 headerState h nameState { h with parser := { h.parser with fieldStart := p } } :=
        .byte hp.1 hstep (states_ne_nil _ (by simp)) hacts (by decide) rfl
      exact ⟨_, .inl rfl, hfirst.trans (.quiet (quiet_name hrest) hp.2)⟩

/-- The parser after a name of `n` bytes at `p`. -/
def HttpRequestParser.named (h : HttpRequestParser) (p n : Nat) : HttpRequestParser :=
  { h with parser := { h.parser with fieldStart := p, fieldLen := n } }

/-- A name and the colon after it. -/
theorem feeds_name {key : List UInt8} (hne : key ≠ []) (htok : ∀ c ∈ key, token.has c = true) (hplaus : Plausible key)
    (hp : Spells buffer p (key ++ [58])) :
    Feeds buffer p (key.length + 1) headerState h colonState (h.named p key.length) := by
  obtain ⟨hpk, hpc, -⟩ := spells_append.1 hp
  obtain ⟨s, hs, hfeeds⟩ := feeds_nameBytes (h := h) hne htok hplaus hpk
  obtain ⟨-, hname, hstep, hreturn, -⟩ := name_states
  have hcolon : s.step 58 = colonState ∧ s.acts 58 = [.writeField] := by
    rcases hs with rfl | rfl
    · exact ⟨rfl, hname⟩
    · exact ⟨hstep, hreturn⟩
  refine hfeeds.trans (.byte hpc hcolon.1 (states_ne_nil _ (by simp)) hcolon.2 (by decide) ?_)
  simp [perform, HttpRequestParser.act, HttpRequestParser.named, len]

/-! ## A value -/

theorem quiet_value {w : List UInt8} (hw : ∀ c ∈ w, valueChar c = true) : ∀ s ∈ [valueState, valueBlankState],
    ∃ s' ∈ [valueState, valueBlankState], quiet s w = some s' := by
  induction w with
  | nil => exact fun s hs => ⟨s, hs, rfl⟩
  | cons c w ih =>
    intro s hs
    have hstep : s.step c = (if c = 32 ∨ c = 9 then valueBlankState else valueState) ∧ s.acts c = [] := by
      simp only [List.mem_cons, List.not_mem_nil, or_false] at hs
      rcases hs with rfl | rfl
      · exact valueState_value c (hw c (List.mem_cons_self ..))
      · exact valueBlankState_value c (hw c (List.mem_cons_self ..))
    have hmem : s.step c ∈ [valueState, valueBlankState] := by
      rw [hstep.1]
      split <;> simp
    obtain ⟨s', hs', hq⟩ := ih (fun d hd => hw d (List.mem_cons_of_mem _ hd)) _ hmem
    refine ⟨s', hs', ?_⟩
    have hne : s.step c ≠ [] := by
      rw [hstep.1]
      split
      · exact states_ne_nil valueBlankState (by simp)
      · exact states_ne_nil valueState (by simp)
    rw [quiet, if_neg (by simp [hne, hstep.2])]
    exact hq

/-- A value up to one of its ends. -/
theorem feeds_valueBytes {val : List UInt8} (hval : ∀ c ∈ val, valueChar c = true) (hblank : val.head? ≠ some 32)
    (htab : val.head? ≠ some 9) (hp : Spells buffer p val) :
    ∃ s ∈ [blankState, valueState, valueBlankState], Feeds buffer p val.length blankState h s
        (if val = [] then h else h.marked p) ∧
      s.acts 13 = if val = [] then [.startValue, .writeValue] else [.writeValue] := by
  match val with
  | [] => exact ⟨_, by simp, .none, value_acts.1⟩
  | c :: val =>
    obtain ⟨hstep, hacts⟩ := blankState_value c (hval c (List.mem_cons_self ..))
      (fun hc => hblank (by rw [hc]; rfl)) (fun hc => htab (by rw [hc]; rfl))
    obtain ⟨s, hs, hq⟩ := quiet_value (fun d hd => hval d (List.mem_cons_of_mem _ hd)) valueState (by simp)
    have hfirst : Feeds buffer p 1 blankState h valueState (h.marked p) :=
      .byte hp.1 hstep (states_ne_nil _ (by simp)) hacts (by decide) rfl
    refine ⟨s, List.mem_cons_of_mem _ hs, ?_, ?_⟩
    · rw [List.length_cons, Nat.add_comm, if_neg (by simp)]
      exact hfirst.trans (.quiet hq hp.2)
    · rw [if_neg (by simp)]
      simp only [List.mem_cons, List.not_mem_nil, or_false] at hs
      rcases hs with rfl | rfl
      · exact value_acts.2.1
      · exact value_acts.2.2.1

/-! ## A header line -/

theorem act_writeValue {key val : List UInt8} {start m fpc : Nat} (hpk : Spells buffer start key)
    (hpv : Spells buffer m val) (hs : h.parser.fieldStart = start) (hl : h.parser.fieldLen = key.length)
    (hm : h.parser.mark = m) (hfpc : fpc = m + val.length) (hne : key ≠ []) (hklen : key.length < 2 ^ 63)
    (hvlen : val.length < 2 ^ 63) :
    h.act buffer fpc .writeValue = .ok { h with data := h.data.setHeader key val } := by
  have hk : mkString buffer start key.length = .ok key := hpk.mkString_eq rfl hklen
  have hflen : key.length ≠ 0 := fun hk => hne (List.length_eq_zero_iff.1 hk)
  rw [HttpRequestParser.act, HttpRequestParser.onRequestHttpField, hs, hl, hm, if_neg hflen, hk,
    len_string hvlen hpv hfpc]
  rfl

/-- What the receiver makes of a header: its name is taken to the colon, and its value to the end of the line. -/
structure Receivable (x : List UInt8 × List UInt8) : Prop where
  nonempty : x.1 ≠ []
  tokens : ∀ c ∈ x.1, token.has c = true
  begins : Plausible x.1
  value : ∀ c ∈ x.2, valueChar c = true
  blank : x.2.head? ≠ some 32
  tab : x.2.head? ≠ some 9

/-- The name of a header, the colon and the blank. -/
theorem feeds_colon {key : List UInt8} (hne : key ≠ []) (htok : ∀ c ∈ key, token.has c = true) (hplaus : Plausible key)
    (hp : Spells buffer p (key ++ [58, 32])) :
    Feeds buffer p (key.length + 2) headerState h blankState ((h.named p key.length).marked (p + key.length + 1)) := by
  obtain ⟨hpk, hpc, hpb, -⟩ := spells_append.1 hp
  have hname : Feeds buffer p (key.length + 1) headerState h colonState (h.named p key.length) :=
    feeds_name hne htok hplaus (spells_append.2 ⟨hpk, hpc, trivial⟩)
  have hblank : Feeds buffer (p + (key.length + 1)) 1 colonState (h.named p key.length) blankState
      ((h.named p key.length).marked (p + key.length + 1)) :=
    .byte hpb rfl (states_ne_nil _ (by simp)) name_states.2.2.2.2 (by decide) rfl
  exact hname.trans hblank

theorem feeds_header {x : List UInt8 × List UInt8} (hx : Receivable x)
    (hp : Spells buffer p (HttpRequest.dumpHeader x.1 x.2))
    (hklen : x.1.length < 2 ^ 63) (hvlen : x.2.length < 2 ^ 63) :
    ∃ h', Feeds buffer p (HttpRequest.dumpHeader x.1 x.2).length headerState h headerState h' ∧
      h'.data = h.data.setHeader x.1 x.2 ∧ h'.error = h.error := by
  obtain ⟨key, val⟩ := x
  have htext : HttpRequest.dumpHeader key val = (key ++ [58, 32]) ++ (val ++ [13, 10]) := by
    simp [HttpRequest.dumpHeader, bytes]
  rw [htext] at hp ⊢
  obtain ⟨hpn, hpt⟩ := spells_append.1 hp
  obtain ⟨hpv, hpr, hpl, -⟩ := spells_append.1 hpt
  have hcolon := feeds_colon (h := h) hx.nonempty hx.tokens hx.begins hpn
  let h1 := (h.named p key.length).marked (p + key.length + 1)
  let m := p + (key ++ [58, 32]).length
  let h2 : HttpRequestParser := { h1.marked m with data := h.data.setHeader key val }
  obtain ⟨s, hs, hvalue, hacts⟩ := feeds_valueBytes (h := h1) hx.value hx.blank hx.tab hpv
  have hwrite : (h1.marked m).act buffer (m + val.length) .writeValue = .ok h2 :=
    act_writeValue (h := h1.marked m) (spells_append.1 hpn).1 hpv rfl rfl rfl rfl hx.nonempty hklen hvlen
  have hperform : perform buffer (if val = [] then h1 else h1.marked m) ((s.acts 13).map (Prod.mk (m + val.length))) =
      .ok h2 := by
    rw [hacts]
    by_cases hval : val = []
    · subst hval
      have hmark : h1.act buffer (m + 0) .startValue = .ok (h1.marked m) := rfl
      rw [if_pos rfl, if_pos rfl, List.map_cons, List.length_nil, perform, hmark, List.map_cons]
      rw [List.length_nil] at hwrite
      simp only
      rw [perform, hwrite]
      rfl
    · rw [if_neg hval, if_neg hval, List.map_cons, perform, hwrite]
      rfl
  have hreturn : Feeds buffer (m + val.length) 1 s (if val = [] then h1 else h1.marked m) lineEndState h2 := by
    refine .byte hpr (value_ends s hs).1 (states_ne_nil _ (by simp)) rfl ?_ hperform
    rw [hacts]
    split <;> decide
  have hline : Feeds buffer (m + val.length + 1) 1 lineEndState h2 headerState h2 :=
    .silent hpl value_acts.2.2.2.1 (by decide) value_acts.2.2.2.2
  have hlen : ((key ++ [58, 32]) ++ (val ++ [13, 10])).length = (key.length + 2) + (val.length + (1 + 1)) := by
    simp
    omega
  have hstart : m = p + (key.length + 2) := by simp [m]
  rw [hlen]
  refine ⟨h2, hcolon.trans ?_, rfl, rfl⟩
  rw [← hstart]
  exact hvalue.trans (hreturn.trans hline)

/-- Header lines in sequence. -/
theorem feeds_headers {xs : MapType} (hxs : ∀ x ∈ xs, Receivable x)
    (hp : Spells buffer p (xs.flatMap fun x => HttpRequest.dumpHeader x.1 x.2))
    (hlen : (xs.flatMap fun x => HttpRequest.dumpHeader x.1 x.2).length < 2 ^ 63) :
    ∃ h', Feeds buffer p (xs.flatMap fun x => HttpRequest.dumpHeader x.1 x.2).length headerState h headerState h' ∧
      h'.data = xs.foldl (fun r x => r.setHeader x.1 x.2) h.data ∧ h'.error = h.error := by
  induction xs generalizing p h with
  | nil => exact ⟨h, .none, rfl, rfl⟩
  | cons x xs ih =>
    rw [List.flatMap_cons] at hp hlen ⊢
    obtain ⟨hpx, hpxs⟩ := spells_append.1 hp
    rw [List.length_append] at hlen ⊢
    have hbig : x.1.length + x.2.length ≤ (HttpRequest.dumpHeader x.1 x.2).length := by
      simp only [HttpRequest.dumpHeader, List.length_append]
      omega
    obtain ⟨h1, hfirst, hdata, herr⟩ := feeds_header (h := h) (hxs x (List.mem_cons_self ..)) hpx (by omega) (by omega)
    obtain ⟨h2, hrest, hdata', herr'⟩ := ih (h := h1) (fun y hy => hxs y (List.mem_cons_of_mem _ hy)) hpxs (by omega)
    exact ⟨h2, hfirst.trans hrest, by rw [hdata', hdata, List.foldl_cons], herr'.trans herr⟩

/-! ## The end of the headers -/

/-- The byte at which the machine is done. -/
theorem exec_last {cs : State Action} {l : List Action} {h1 : HttpRequestParser} (hp : buffer p = 10)
    (hfin : (cs.step 10).final = true) (hacts : cs.acts 10 = l ++ [.done]) (hl : .done ∉ l)
    (hperform : perform buffer h (l.map (Prod.mk p)) = .ok h1) (m : Nat) :
    ∃ h', HttpRequestParser.exec buffer (m + 1) p cs h = .ok (h', cs.step 10, p + 1) ∧ h'.data = h1.data ∧
      h'.error = h1.error := by
  have hne : (cs.step 10).isEmpty = false := by
    cases hs : cs.step 10 with
    | nil => rw [hs] at hfin; cases hfin
    | cons => rfl
  obtain ⟨start, length, hdone, -⟩ := act_done h1 buffer p
  have hrun : h.acts buffer p (cs.acts 10) =
      .ok ({ h1 with parser := { h1.parser with bodyStart := start, contentLen := length } }, true) := by
    rw [hacts]
    clear hacts
    induction l generalizing h with
    | nil =>
      cases hperform
      rw [List.nil_append, HttpRequestParser.acts, hdone]
      rfl
    | cons a l ih =>
      rw [List.mem_cons, not_or] at hl
      rw [List.map_cons, perform] at hperform
      rw [List.cons_append, HttpRequestParser.acts]
      cases hact : h.act buffer p a with
      | error f => rw [hact] at hperform; cases hperform
      | ok h2 =>
        rw [hact] at hperform
        simp only [if_neg (Ne.symm hl.1)]
        exact ih hl.2 hperform
  refine ⟨{ h1 with parser := { h1.parser with bodyStart := start, contentLen := length } }, ?_, rfl, rfl⟩
  rw [HttpRequestParser.exec, hp, hne, if_neg Bool.false_ne_true, hrun]

/-- A line feed ends the headers. -/
theorem exec_lineFeed (hp : buffer p = 10) (m : Nat) : ∃ h' cs',
    HttpRequestParser.exec buffer (m + 1) p headerState h = .ok (h', cs', p + 1) ∧ cs'.final = true ∧
      h'.data = h.data ∧ h'.error = h.error := by
  obtain ⟨h', hrun, hdata, herr⟩ := exec_last (h := h) (l := [.startField]) hp done_states.2.1 done_states.1
    (by decide) rfl m
  exact ⟨h', _, hrun, done_states.2.1, hdata, herr⟩

/-- A line break ends the headers. -/
theorem exec_lineBreak (hp : Spells buffer p [13, 10]) (m : Nat) : ∃ h' cs',
    HttpRequestParser.exec buffer (2 + m) p headerState h = .ok (h', cs', p + 2) ∧ cs'.final = true ∧
      h'.data = h.data ∧ h'.error = h.error := by
  have hfirst : Feeds buffer p 1 headerState h returnState { h with parser := { h.parser with fieldStart := p } } :=
    .byte hp.1 rfl (states_ne_nil _ (by simp)) name_states.1 (by decide) rfl
  obtain ⟨h', hrun, hdata, herr⟩ := exec_last (h := { h with parser := { h.parser with fieldStart := p } })
    (l := []) hp.2.1
    done_states.2.2.2 done_states.2.2.1 (by decide) rfl m
  refine ⟨h', _, ?_, done_states.2.2.2, hdata, herr⟩
  rw [show 2 + m = 1 + (m + 1) by omega, hfirst, hrun]

end Lines

end ServerFrame.Http
