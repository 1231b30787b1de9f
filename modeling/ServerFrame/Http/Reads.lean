/-
One read against the whole stream: over a buffer that holds the bytes of the stream from `b` up to
`e`, the parser does what it would do over the whole stream, as long as no token sticks out at either
end.
-/
import ServerFrame.Http.Tokens
import Mathlib.Data.List.Find

namespace ServerFrame.Http

open Ragel

/-! ## Looking at memory -/

theorem len_of_le {x y : Nat} (h : x ≤ y) : len x y = y - x := if_pos h

theorem len_add (b x y : Nat) : len (b + x) (b + y) = len x y := by
  unfold len
  simp only [Nat.add_le_add_iff_left]
  congr 1 <;> omega

theorem strncmp_congr : ∀ {n : Nat} {a a' b : Nat → UInt8}, (∀ i < n, a i = a' i) → strncmp n a b = strncmp n a' b
  | 0, _, _, _, _ => rfl
  | n + 1, a, a', b, h => by
    rw [strncmp, strncmp, h 0 (by omega), strncmp_congr fun i hi => h (i + 1) (by omega)]

/-- A name is compared with the bytes `compared` counts and no others. -/
theorem strncmp_compared : ∀ {t : List UInt8} {m m' : Nat → UInt8}, (∀ i < compared t m, m i = m' i) →
    strncmp t.length (cstr t) m = strncmp t.length (cstr t) m'
  | [], _, _, _ => rfl
  | c :: t, m, m', h => by
    have h0 : m 0 = m' 0 := h 0 (by rw [compared]; split <;> omega)
    rw [List.length_cons, strncmp, strncmp, ← h0]
    by_cases hc : c = m 0
    · have ht : strncmp t.length (cstr t) (fun i => m (i + 1)) = strncmp t.length (cstr t) (fun i => m' (i + 1)) :=
        strncmp_compared fun i hi => h (i + 1) (by rw [compared, if_pos hc]; omega)
      have hcs : (fun i => cstr (c :: t) (i + 1)) = cstr t := rfl
      rw [hcs, ht]
    · have : (cstr (c :: t) 0 == m 0) = false := by simpa [cstr] using hc
      rw [this, Bool.false_and, Bool.false_and]

theorem compared_le_lookedAt {m : Nat → UInt8} : ∀ {l : List (HttpMethod × List UInt8)}, ∀ x ∈ l,
    compared x.2 m ≤ (l.map fun x => compared x.2 m).foldr max 0
  | y :: l, x, hx => by
    rw [List.map_cons, List.foldr_cons]
    rcases List.mem_cons.1 hx with rfl | hx
    · exact le_max_left _ _
    · exact (compared_le_lookedAt x hx).trans (le_max_right _ _)

theorem charsToHttpMethod_congr {m m' : Nat → UInt8} (h : ∀ i < lookedAt m, m i = m' i) :
    charsToHttpMethod m = charsToHttpMethod m' := by
  unfold charsToHttpMethod
  rw [List.find?_congr fun x hx =>
    strncmp_compared fun i hi => h i (lt_of_lt_of_le hi (compared_le_lookedAt x hx))]

theorem toInt_of_lt {n : Nat} (h : n < 2 ^ 31) : toInt n = n := by
  have h32 : ((2 ^ 32 : Nat) : Int) = 4294967296 := rfl
  refine Int.bmod_eq_of_le_mul_two ?_ ?_ <;> omega

/-! ## One action -/

/-- Every offset the parser holds is one of a byte up to `p`. -/
structure InRange (p : Nat) (h : HttpRequestParser) : Prop where
  mark : h.parser.mark ≤ p
  fieldStart : h.parser.fieldStart ≤ p
  fieldLen : h.parser.fieldLen ≤ p
  bodyStart : h.parser.bodyStart ≤ p + 1

theorem InRange.mono {p q : Nat} {h : HttpRequestParser} (hr : InRange p h) (hpq : p ≤ q) : InRange q h :=
  ⟨hr.mark.trans hpq, hr.fieldStart.trans hpq, hr.fieldLen.trans hpq, hr.bodyStart.trans (by omega)⟩

theorem InRange.of_registers {p : Nat} {h h' : HttpRequestParser} (hr : InRange p h) (hp : h'.parser = h.parser) :
    InRange p h' :=
  ⟨hp ▸ hr.mark, hp ▸ hr.fieldStart, hp ▸ hr.fieldLen, hp ▸ hr.bodyStart⟩

/-- What a callback leaves alone: the registers, an error once set, the body, and whether the connection is to be
closed. -/
structure Called (h h' : HttpRequestParser) : Prop where
  parser : h'.parser = h.parser
  error : h.error ≠ 0 → h'.error ≠ 0
  body : h'.data.body = h.data.body
  close : h'.data.close = h.data.close

theorem Called.refl (h : HttpRequestParser) : Called h h := ⟨rfl, id, rfl, rfl⟩

theorem onRequestMethod_called (h : HttpRequestParser) (buffer : Nat → UInt8) (start : Nat) :
    Called h (h.onRequestMethod buffer start) := by
  unfold HttpRequestParser.onRequestMethod
  simp only
  split
  · exact ⟨rfl, fun _ => (by decide : (1000 : Int) ≠ 0), rfl, rfl⟩
  · exact ⟨rfl, id, rfl, rfl⟩

theorem onRequestVersion_called (h : HttpRequestParser) (buffer : Nat → UInt8) (start length : Nat) :
    Called h (h.onRequestVersion buffer start length) := by
  unfold HttpRequestParser.onRequestVersion
  simp only
  split
  · exact ⟨rfl, id, rfl, rfl⟩
  · split
    · exact ⟨rfl, id, rfl, rfl⟩
    · exact ⟨rfl, fun _ => (by decide : (1001 : Int) ≠ 0), rfl, rfl⟩

/-- The actions that call back; the others work on the registers. -/
def Action.callsBack : Action → Bool
  | .requestMethod | .requestUri | .fragment | .queryString | .httpVersion | .requestPath | .writeValue => true
  | .mark | .startField | .writeField | .startValue | .startQuery | .done | .xml | .json => false

theorem act_called {h h' : HttpRequestParser} {buffer : Nat → UInt8} {fpc : Nat} {a : Action}
    (hcall : a.callsBack = true) (ha : h.act buffer fpc a = .ok h') : Called h h' := by
  cases a with
  | requestUri =>
    cases ha
    exact .refl h
  | requestMethod =>
    cases ha
    exact onRequestMethod_called ..
  | httpVersion =>
    cases ha
    exact onRequestVersion_called ..
  | fragment | requestPath | queryString =>
    obtain ⟨s, -, hs⟩ := Except.bind_eq_ok ha
    cases hs
    exact ⟨rfl, id, rfl, rfl⟩
  | writeValue =>
    rw [HttpRequestParser.act, HttpRequestParser.onRequestHttpField] at ha
    split at ha
    · cases ha
      exact .refl h
    · obtain ⟨s, -, hs⟩ := Except.bind_eq_ok ha
      obtain ⟨t, -, ht⟩ := Except.bind_eq_ok hs
      cases ht
      exact ⟨rfl, id, rfl, rfl⟩
  | mark | startField | writeField | startValue | startQuery | done | xml | json => cases hcall

/-- `done` notes where the body starts and does nothing else. -/
theorem act_done (h : HttpRequestParser) (buffer : Nat → UInt8) (fpc : Nat) : ∃ start length,
    h.act buffer fpc .done =
      .ok { h with parser := { h.parser with bodyStart := start, contentLen := length } } ∧
      (start = h.parser.mark ∨ start = fpc + 1) := by
  rw [HttpRequestParser.act]
  split
  · exact ⟨_, _, rfl, .inl rfl⟩
  · exact ⟨_, h.parser.contentLen, rfl, .inr rfl⟩

/-- What an action leaves alone: the state of the machine, an error once set, and, except for `done`,
the start of the body. -/
theorem act_frame {h h' : HttpRequestParser} {buffer : Nat → UInt8} {fpc : Nat} {a : Action}
    (ha : h.act buffer fpc a = .ok h') : h'.parser.cs = h.parser.cs ∧
      (a ≠ .done → h'.parser.bodyStart = h.parser.bodyStart) ∧ (h.error ≠ 0 → h'.error ≠ 0) := by
  cases hcall : a.callsBack with
  | true =>
    have hcalled := act_called hcall ha
    rw [hcalled.parser]
    exact ⟨rfl, fun _ => rfl, hcalled.error⟩
  | false =>
    cases a with
    | mark | startField | writeField | startValue | startQuery | xml | json =>
      cases ha
      exact ⟨rfl, fun _ => rfl, id⟩
    | done =>
      obtain ⟨_, _, hdone, -⟩ := act_done h buffer fpc
      rw [hdone] at ha
      cases ha
      exact ⟨rfl, fun hd => absurd rfl hd, id⟩
    | _ => cases hcall

theorem perform_frame {buffer : Nat → UInt8} : ∀ {ev : List (Nat × Action)} {h h' : HttpRequestParser},
    perform buffer h ev = .ok h' → h'.parser.cs = h.parser.cs ∧
      ((∀ x ∈ ev, x.2 ≠ .done) → h'.parser.bodyStart = h.parser.bodyStart) ∧ (h.error ≠ 0 → h'.error ≠ 0)
  | [], h, h', hp => by
    cases hp
    exact ⟨rfl, fun _ => rfl, id⟩
  | (fpc, a) :: ev, h, h', hp => by
    rw [perform] at hp
    cases ha : h.act buffer fpc a with
    | error f => rw [ha] at hp; cases hp
    | ok h1 =>
      rw [ha] at hp
      obtain ⟨h1c, h1b, h1e⟩ := act_frame ha
      obtain ⟨h2c, h2b, h2e⟩ := perform_frame hp
      refine ⟨h2c.trans h1c, fun hd => ?_, fun he => h2e (h1e he)⟩
      exact (h2b fun x hx => hd x (List.mem_cons_of_mem _ hx)).trans (h1b (hd _ (List.mem_cons_self ..)))

/-- No action touches the body, or whether the connection is to be closed. -/
theorem act_message {h h' : HttpRequestParser} {buffer : Nat → UInt8} {fpc : Nat} {a : Action}
    (ha : h.act buffer fpc a = .ok h') : h'.data.body = h.data.body ∧ h'.data.close = h.data.close := by
  cases hcall : a.callsBack with
  | true =>
    have hcalled := act_called hcall ha
    exact ⟨hcalled.body, hcalled.close⟩
  | false =>
    cases a with
    | mark | startField | writeField | startValue | startQuery | xml | json =>
      cases ha
      exact ⟨rfl, rfl⟩
    | done =>
      obtain ⟨_, _, hdone, -⟩ := act_done h buffer fpc
      rw [hdone] at ha
      cases ha
      exact ⟨rfl, rfl⟩
    | _ => cases hcall

theorem perform_message {buffer : Nat → UInt8} : ∀ {ev : List (Nat × Action)} {h h' : HttpRequestParser},
    perform buffer h ev = .ok h' → h'.data.body = h.data.body ∧ h'.data.close = h.data.close
  | [], h, h', hp => by
    cases hp
    exact ⟨rfl, rfl⟩
  | (fpc, a) :: ev, h, h', hp => by
    rw [perform] at hp
    cases ha : h.act buffer fpc a with
    | error f => rw [ha] at hp; cases hp
    | ok h1 =>
      rw [ha] at hp
      obtain ⟨hbody, hclose⟩ := perform_message hp
      exact ⟨hbody.trans (act_message ha).1, hclose.trans (act_message ha).2⟩

/-- What a call of the parser of requests that succeeds has done: nothing where it is given nothing, else the run of the
machine. -/
theorem HttpRequestParser.execute_ok {h h' : HttpRequestParser} {data data' : Nat → UInt8} {len n : Nat}
    (hex : h.execute data len = .ok (h', data', n)) :
    n ≤ len ∧ data' = memmove data n (len - n) ∧
      (len = 0 ∧ h' = h ∨ ∃ h₁,
        perform data { h with parser := h.parser.reset } (events data len 0 h.parser.cs) = .ok h₁ ∧
        (halt data len 0 h.parser.cs).2 = n ∧
        h' = { h₁ with parser := { h₁.parser with
          cs := if h₁.parser.hasError then h₁.parser.cs else (halt data len 0 h.parser.cs).1
          nread := n } }) := by
  obtain ⟨⟨h₂, k⟩, hparse, hret⟩ := Except.bind_eq_ok hex
  cases hret
  rw [parserExecute] at hparse
  split at hparse
  · rename_i hzero
    cases hparse
    exact ⟨Nat.zero_le _, rfl, .inl ⟨hzero, rfl⟩⟩
  · rw [if_neg (not_not_intro (Nat.zero_le len)), Nat.sub_zero, exec_eq_perform] at hparse
    split at hparse
    · cases hparse
    · split at hparse
      · cases hparse
      · rename_i hexec
        obtain ⟨h₁, hperform, heq⟩ := Except.map_eq_ok hexec
        obtain ⟨rfl, hhalt⟩ := Prod.mk.inj heq
        dsimp only at hparse
        split at hparse
        · rename_i hchecks
          cases hparse
          rw [hhalt]
          exact ⟨hchecks.1, rfl, .inr ⟨_, hperform, rfl, rfl⟩⟩
        · cases hparse

/-- The parser over the buffer and the parser over the stream have the same results so far, and the
registers that were set in this read, which began at `b`, point to the same bytes. -/
structure Agree (b : Nat) (g : Places) (h H : HttpRequestParser) : Prop where
  data : h.data = H.data
  error : h.error = H.error
  mark : b ≤ g.mark → H.parser.mark = b + h.parser.mark
  fieldStart : b ≤ g.fieldStart → H.parser.fieldStart = b + h.parser.fieldStart
  fieldLen : b ≤ g.fieldLen → H.parser.fieldLen = h.parser.fieldLen
  queryStart : b ≤ g.queryStart → H.parser.queryStart = b + h.parser.queryStart

/-- No end of a token lies on the other side of `k`. -/
def Apart (k : Nat) (t : Nat × Nat) : Prop := k ≤ t.1 ∨ t.2 ≤ k

instance (k : Nat) (t : Nat × Nat) : Decidable (Apart k t) := inferInstanceAs (Decidable (_ ∨ _))

section OneRead

variable {buffer stream : Nat → UInt8} {b e : Nat}

/-- The buffer holds the bytes of the stream from `b` up to `e`. -/
def Holds (buffer stream : Nat → UInt8) (b e : Nat) : Prop := ∀ i, b + i < e → buffer i = stream (b + i)

theorem Holds.slice (hh : Holds buffer stream b e) {start length : Nat} (he : b + start + length ≤ e) :
    slice buffer start length = Http.slice stream (b + start) length := by
  unfold Http.slice
  refine List.map_congr_left fun i hi => ?_
  rw [List.mem_range] at hi
  rw [hh _ (by omega), Nat.add_assoc]

theorem Holds.mkString (hh : Holds buffer stream b e) (h31 : e < 2 ^ 31) {start length : Nat}
    (he : b + start + length ≤ e) :
    ∃ s, mkString buffer start length = .ok s ∧ Http.mkString stream (b + start) length = .ok s := by
  unfold Http.mkString
  rw [if_pos (by omega), if_pos (by omega), hh.slice he]
  exact ⟨_, rfl, rfl⟩

/-- A span that is used inside the read began in it and ends in it. -/
theorem Apart.inside {fpc i j : Nat} (hb : Apart b (i, j)) (he : Apart e (i, j)) (hi : i ≤ b + fpc) (hj : b + fpc < j)
    (hfpc : b + fpc < e) : b ≤ i ∧ j ≤ e := by
  unfold Apart at hb he
  simp only at hb he
  omega

variable {fpc : Nat} {g : Places} {h H : HttpRequestParser}

theorem onRequestMethod_agree (hh : Holds buffer stream b e) (hag : Agree b g h H) {start : Nat}
    (he : b + start + lookedAt (fun i => stream (b + start + i)) ≤ e) :
    Agree b g (h.onRequestMethod buffer start) (H.onRequestMethod stream (b + start)) := by
  have hm : charsToHttpMethod (fun i => stream (b + start + i)) = charsToHttpMethod fun i => buffer (start + i) :=
    charsToHttpMethod_congr fun i hi => by rw [hh _ (by omega), Nat.add_assoc]
  unfold HttpRequestParser.onRequestMethod
  simp only [hm]
  split
  · exact { hag with error := rfl }
  · exact { hag with data := by simp only [hag.data] }

theorem onRequestVersion_agree (hh : Holds buffer stream b e) (hag : Agree b g h H) {start length : Nat}
    (he : b + start + length ≤ e) :
    Agree b g (h.onRequestVersion buffer start length) (H.onRequestVersion stream (b + start) length) := by
  have ht : ∀ t, strncmp length (fun i => stream (b + start + i)) t = strncmp length (fun i => buffer (start + i)) t :=
    fun t => strncmp_congr fun i hi => by rw [hh _ (by omega), Nat.add_assoc]
  unfold HttpRequestParser.onRequestVersion
  simp only [ht]
  split
  · exact { hag with data := by simp only [hag.data] }
  · split
    · exact { hag with data := by simp only [hag.data] }
    · exact { hag with error := rfl }

/-- One action, over the buffer and over the stream. -/
theorem act_agree (hh : Holds buffer stream b e) (h31 : e < 2 ^ 31) (hfpc : b + fpc < e) (hr : InRange fpc h)
    (hg : g.Upto (b + fpc)) (hag : Agree b g h H) {a : Action}
    (hn : ∀ t ∈ needs stream (b + fpc) H g a, Apart b t ∧ Apart e t) :
    ∃ h' H', h.act buffer fpc a = .ok h' ∧ H.act stream (b + fpc) a = .ok H' ∧ InRange fpc h' ∧
      Agree b (g.act (b + fpc) a) h' H' := by
  -- the register behind a span of this read was set in this read
  have hin : ∀ {i j : Nat}, (i, j) ∈ needs stream (b + fpc) H g a → i ≤ b + fpc → b + fpc < j → b ≤ i ∧ j ≤ e :=
    fun hm hi hj => (hn _ hm).1.inside (hn _ hm).2 hi hj hfpc
  have hfrom : ∀ {x : Nat}, x ≤ fpc → b + x + len x fpc ≤ e := fun hx => by rw [len_of_le hx]; omega
  cases a with
  | mark | startValue => exact ⟨_, _, rfl, rfl, { hr with mark := le_refl _ }, { hag with mark := fun _ => rfl }⟩
  | startField => exact ⟨_, _, rfl, rfl, { hr with fieldStart := le_refl _ }, { hag with fieldStart := fun _ => rfl }⟩
  | startQuery => exact ⟨_, _, rfl, rfl, { hr with }, { hag with queryStart := fun _ => rfl }⟩
  | requestUri => exact ⟨_, _, rfl, rfl, hr, hag⟩
  | xml | json => exact ⟨_, _, rfl, rfl, { hr with }, { hag with }⟩
  | done =>
    obtain ⟨start, _, hdone, hstart⟩ := act_done h buffer fpc
    obtain ⟨_, _, Hdone, -⟩ := act_done H stream (b + fpc)
    have hbody : start ≤ fpc + 1 := by
      have := hr.mark
      omega
    exact ⟨_, _, hdone, Hdone, { hr with bodyStart := hbody }, { hag with }⟩
  | writeField =>
    obtain ⟨hb, -⟩ := hin (List.mem_singleton.2 rfl) hg.fieldStart (by omega)
    refine ⟨_, _, rfl, rfl, { hr with fieldLen := ?_ }, { hag with fieldLen := fun _ => ?_ }⟩
    · simp only [len_of_le hr.fieldStart]
      omega
    · simp only [hag.fieldStart hb, len_add]
  | writeValue =>
    obtain ⟨hb, he⟩ := hin (List.mem_cons_self ..) hg.fieldStart (by omega)
    obtain ⟨hb', -⟩ := hin (List.mem_cons_of_mem _ (List.mem_cons_self ..)) hg.fieldLen (by omega)
    obtain ⟨hb'', -⟩ := hin (List.mem_cons_of_mem _ (List.mem_cons_of_mem _ (List.mem_cons_self ..))) hg.mark (by omega)
    rw [hag.fieldStart hb, hag.fieldLen hb'] at he
    obtain ⟨s, h1, h2⟩ := hh.mkString h31 (show b + h.parser.fieldStart + h.parser.fieldLen ≤ e by omega)
    obtain ⟨t, h3, h4⟩ := hh.mkString h31 (hfrom hr.mark)
    simp only [HttpRequestParser.act, HttpRequestParser.onRequestHttpField, hag.fieldStart hb, hag.fieldLen hb',
      hag.mark hb'', len_add, h1, h2, h3, h4]
    split
    · exact ⟨_, _, rfl, rfl, hr, hag⟩
    · exact ⟨_, _, rfl, rfl, { hr with }, { hag with data := by simp only [hag.data] }⟩
  | requestMethod =>
    obtain ⟨hb, he⟩ := hin (List.mem_singleton.2 rfl) hg.mark (by omega)
    rw [hag.mark hb] at he
    refine ⟨_, _, rfl, rfl, hr.of_registers (onRequestMethod_called ..).parser, ?_⟩
    · rw [hag.mark hb]
      exact onRequestMethod_agree hh hag (by omega)
  | httpVersion =>
    obtain ⟨hb, he⟩ := hin (List.mem_singleton.2 rfl) hg.mark (by omega)
    refine ⟨_, _, rfl, rfl, hr.of_registers (onRequestVersion_called ..).parser, ?_⟩
    · rw [hag.mark hb, len_add]
      exact onRequestVersion_agree hh hag (hfrom hr.mark)
  | fragment =>
    obtain ⟨hb, -⟩ := hin (List.mem_singleton.2 rfl) hg.mark (by omega)
    obtain ⟨s, h1, h2⟩ := hh.mkString h31 (hfrom hr.mark)
    simp only [HttpRequestParser.act, HttpRequestParser.onRequestFragment, hag.mark hb, len_add, h1, h2]
    exact ⟨_, _, rfl, rfl, { hr with }, { hag with data := by simp only [hag.data] }⟩
  | requestPath =>
    obtain ⟨hb, -⟩ := hin (List.mem_singleton.2 rfl) hg.mark (by omega)
    obtain ⟨s, h1, h2⟩ := hh.mkString h31 (hfrom hr.mark)
    simp only [HttpRequestParser.act, HttpRequestParser.onRequestPath, hag.mark hb, len_add, h1, h2]
    exact ⟨_, _, rfl, rfl, { hr with }, { hag with data := by simp only [hag.data] }⟩
  | queryString =>
    obtain ⟨hb, he⟩ := hin (List.mem_singleton.2 rfl) hg.queryStart (by omega)
    rw [hag.queryStart hb, len_add] at he
    obtain ⟨s, h1, h2⟩ := hh.mkString h31 (show b + h.parser.queryStart + len h.parser.queryStart fpc ≤ e by omega)
    simp only [HttpRequestParser.act, HttpRequestParser.onRequestQuery, hag.queryStart hb, len_add, h1, h2]
    exact ⟨_, _, rfl, rfl, { hr with }, { hag with data := by simp only [hag.data] }⟩

/-! ## One read -/

/-- The actions of one read, over the buffer and over the stream. -/
theorem perform_agree (hh : Holds buffer stream b e) (h31 : e < 2 ^ 31) : ∀ {ev : List (Nat × Action)} {p : Nat}
    {g : Places} {h H : HttpRequestParser}, (∀ x ∈ ev, p ≤ x.1 ∧ b + x.1 < e) → (ev.Pairwise fun x y => x.1 ≤ y.1) →
    b + p < e → InRange p h → g.Upto (b + p) → Agree b g h H →
    (∀ t ∈ spans stream H g (shift b ev), Apart b t ∧ Apart e t) →
    ∃ h' H' q, perform buffer h ev = .ok h' ∧ perform stream H (shift b ev) = .ok H' ∧ b + q < e ∧ InRange q h' ∧
      (g.after (shift b ev)).Upto (b + q) ∧ Agree b (g.after (shift b ev)) h' H'
  | [], p, g, h, H, _, _, hp, hr, hg, hag, _ => ⟨h, H, p, rfl, rfl, hp, hr, hg, hag⟩
  | (fpc, a) :: ev, p, g, h, H, hev, hso, hp, hr, hg, hag, hsp => by
    obtain ⟨hpf, hfe⟩ := hev _ (List.mem_cons_self ..)
    rw [List.pairwise_cons] at hso
    simp only [shift, List.map_cons, spans, List.mem_append] at hsp
    obtain ⟨h1, H1, ha, hA, hr1, hag1⟩ := act_agree hh h31 hfe (hr.mono hpf) (hg.mono (by omega)) hag fun t ht =>
      hsp t (.inl ht)
    rw [hA] at hsp
    obtain ⟨h', H', q, hq⟩ := perform_agree hh h31
      (fun x hx => ⟨hso.1 x hx, (hev x (List.mem_cons_of_mem _ hx)).2⟩) hso.2 hfe hr1
      ((hg.mono (show b + p ≤ b + fpc by omega)).act a) hag1 fun t ht => hsp t (.inr ht)
    refine ⟨h', H', q, ?_⟩
    rw [perform, ha, shift, List.map_cons, perform, hA]
    exact hq

/-- A call of the parser whose actions succeed, and only note offsets in the buffer: no `assert` fails. -/
theorem execute_of_perform {h' : HttpRequestParser} {n : Nat} (hn : 0 < n) (h31 : n < 2 ^ 31) (hcs : h.parser.cs ≠ [])
    (hperform : perform buffer { h with parser := h.parser.reset } (events buffer n 0 h.parser.cs) = .ok h')
    (hr : InRange (n - 1) h') :
    h.execute buffer n = .ok
      ({ h' with parser := { h'.parser with
          cs := (halt buffer n 0 h.parser.cs).1
          nread := (halt buffer n 0 h.parser.cs).2 } },
        HttpRequestParser.memmove buffer (halt buffer n 0 h.parser.cs).2 (n - (halt buffer n 0 h.parser.cs).2),
        (halt buffer n 0 h.parser.cs).2) := by
  have hwidth : (n : Int) - (0 : Nat) = toInt n - toInt 0 := by rw [toInt_of_lt h31, toInt_of_lt (by omega)]
  have herr : h'.parser.hasError = false := by
    rw [HttpParser.hasError, (perform_frame hperform).1]
    exact List.isEmpty_eq_false_iff.2 hcs
  have hle : (halt buffer n 0 h.parser.cs).2 ≤ 0 + n := halt_le
  have hasserts : (halt buffer n 0 h.parser.cs).2 ≤ n ∧ h'.parser.bodyStart ≤ n ∧ h'.parser.mark < n ∧
      h'.parser.fieldLen ≤ n ∧ h'.parser.fieldStart < n := by
    have := hr.mark
    have := hr.fieldStart
    have := hr.fieldLen
    have := hr.bodyStart
    omega
  rw [HttpRequestParser.execute, HttpRequestParser.parserExecute, if_neg (by omega), if_neg (by omega),
    if_neg (by simpa using hwidth), exec_eq_perform, Nat.sub_zero, hperform]
  simp only [Except.map, herr, Nat.sub_zero, Bool.false_eq_true, if_false]
  rw [if_pos hasserts]
  rfl

/-- `HttpRequestParser::execute` on what one read brought. -/
theorem execute_agree {n : Nat} (hn : 0 < n) (hh : Holds buffer stream b (b + n)) (h31 : b + n < 2 ^ 31)
    (hcs : Running h.parser.cs) (hbody : h.parser.bodyStart = 0) (hg : g.Upto b)
    (hag : Agree b g { h with parser := h.parser.reset } H)
    (hsp : ∀ t ∈ spans stream H g (events stream n b h.parser.cs), Apart b t ∧ Apart (b + n) t) :
    ∃ h' H' k, h.execute buffer n = .ok (h', HttpRequestParser.memmove buffer k (n - k), k) ∧
      perform stream H (events stream n b h.parser.cs) = .ok H' ∧
      halt stream n b h.parser.cs = (h'.parser.cs, b + k) ∧ k ≤ n ∧
      h'.data = H'.data ∧ h'.error = H'.error ∧
      (g.after (events stream n b h.parser.cs)).Upto (b + n - 1) ∧
      ((∀ x ∈ events stream n b h.parser.cs, x.2 ≠ .done) → h'.parser.bodyStart = 0) := by
  obtain ⟨hev, hhalt⟩ : events stream n (b + 0) h.parser.cs = shift b (events buffer n 0 h.parser.cs) ∧
      halt stream n (b + 0) h.parser.cs = ((halt buffer n 0 h.parser.cs).1, b + (halt buffer n 0 h.parser.cs).2) :=
    run_shift fun i _ hi => hh i (by omega)
  rw [Nat.add_zero] at hev hhalt
  rw [hev] at hsp ⊢
  have hr0 : InRange 0 { h with parser := h.parser.reset } :=
    ⟨le_refl 0, le_refl 0, le_refl 0, by simp [HttpParser.reset, hbody]⟩
  obtain ⟨h', H', q, hp, hP, hq, hr, hg', hag'⟩ := perform_agree hh h31
    (fun x hx => by have := mem_events x hx; omega) events_sorted (by omega) hr0 hg hag hsp
  obtain ⟨-, hbody', -⟩ := perform_frame hp
  have hle : (halt buffer n 0 h.parser.cs).2 ≤ 0 + n := halt_le
  rw [Nat.zero_add] at hle
  -- every offset is that of a byte of this read
  refine ⟨_, H', (halt buffer n 0 h.parser.cs).2, execute_of_perform hn (by omega) hcs.1 hp (hr.mono (by omega)), hP,
    hhalt, hle, hag'.data, hag'.error, hg'.mono (by omega), fun hd => ?_⟩
  refine (hbody' fun x hx => ?_).trans hbody
  exact hd (b + x.1, x.2) (List.mem_map_of_mem hx)

end OneRead

end ServerFrame.Http
