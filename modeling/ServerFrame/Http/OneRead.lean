/-
A session that gets all it will get in one read: what it returns is what the run of the parser over the buffer leaves.
-/
import ServerFrame.Http.Feed

namespace ServerFrame.Http

open Ragel

/-! ## Offsets -/

/-- An action notes offsets up to the byte it is performed at. -/
theorem act_inRange {h h' : HttpRequestParser} {buffer : Nat → UInt8} {p fpc : Nat} {a : Action} (hr : InRange p h)
    (hp : p ≤ fpc) (ha : h.act buffer fpc a = .ok h') : InRange fpc h' := by
  have hr := hr.mono hp
  cases a with
  | mark | startValue =>
    cases ha
    exact { hr with mark := le_refl _ }
  | startField =>
    cases ha
    exact { hr with fieldStart := le_refl _ }
  | writeField =>
    cases ha
    have hstart := hr.fieldStart
    refine { hr with fieldLen := ?_ }
    simp only [len_of_le hstart]
    omega
  | startQuery | xml | json =>
    cases ha
    exact { hr with }
  | done =>
    obtain ⟨start, length, hdone, hstart⟩ := act_done h buffer fpc
    rw [hdone] at ha
    cases ha
    have hmark := hr.mark
    refine { hr with bodyStart := ?_ }
    show start ≤ fpc + 1
    omega
  | requestUri | requestMethod | httpVersion | fragment | requestPath | queryString | writeValue =>
    exact hr.of_registers (act_called rfl ha).parser

theorem perform_inRange {buffer : Nat → UInt8} {n : Nat} : ∀ {ev : List (Nat × Action)} {p : Nat}
    {h h' : HttpRequestParser}, InRange p h → p < n → (∀ x ∈ ev, p ≤ x.1 ∧ x.1 < n) →
    (ev.Pairwise fun x y => x.1 ≤ y.1) → perform buffer h ev = .ok h' → InRange (n - 1) h'
  | [], p, h, h', hr, hp, _, _, hperform => by
    cases hperform
    exact hr.mono (by omega)
  | (fpc, a) :: ev, p, h, h', hr, _, hev, hso, hperform => by
    obtain ⟨hpf, hfn⟩ := hev _ (List.mem_cons_self ..)
    rw [List.pairwise_cons] at hso
    rw [perform] at hperform
    cases ha : h.act buffer fpc a with
    | error f => rw [ha] at hperform; cases hperform
    | ok h1 =>
      rw [ha] at hperform
      exact perform_inRange (act_inRange hr hpf ha) hfn
        (fun x hx => ⟨hso.1 x hx, (hev x (List.mem_cons_of_mem _ hx)).2⟩) hso.2 hperform

/-! ## The session -/

section OneRead

variable {buffer : Nat → UInt8} {n : Nat} {h : HttpRequestParser}

variable (buffer) in
/-- `HttpRequestParser::execute`, from a parser that has not begun: no `assert` fails. -/
theorem execute_eq (hn : 0 < n) (h31 : n < 2 ^ 31) (hcs : h.parser.cs ≠ []) (hbody : h.parser.bodyStart = 0) :
    h.execute buffer n =
      (HttpRequestParser.exec buffer n 0 h.parser.cs { h with parser := h.parser.reset }).map fun r =>
        ({ r.1 with parser := { r.1.parser with cs := r.2.1, nread := r.2.2 } },
          HttpRequestParser.memmove buffer r.2.2 (n - r.2.2), r.2.2) := by
  rw [exec_eq_perform]
  cases hperform : perform buffer { h with parser := h.parser.reset } (events buffer n 0 h.parser.cs) with
  | error f =>
    have hwidth : (n : Int) - (0 : Nat) = toInt n - toInt 0 := by rw [toInt_of_lt h31, toInt_of_lt (by omega)]
    rw [HttpRequestParser.execute, HttpRequestParser.parserExecute, if_neg (by omega), if_neg (by omega),
      if_neg (by simpa using hwidth), Nat.sub_zero, exec_eq_perform, hperform]
    rfl
  | ok h' =>
    refine execute_of_perform hn h31 hcs hperform ?_
    refine perform_inRange (p := 0) ⟨le_refl 0, le_refl 0, le_refl 0, by simp [HttpParser.reset, hbody]⟩ hn
      (fun x hx => ?_) events_sorted hperform
    have hmem := mem_events x hx
    omega

/-- The parser that a session starts its first read with. -/
def Env.parser (env : Env) : HttpRequestParser := { env.object.new with parser := env.object.new.parser.reset }

/-- What the run of the parser over a buffer makes of a stream. -/
def received (env : Env) (stream : List UInt8) : Except Fault (Option HttpRequest) :=
  (HttpRequestParser.exec (store env.memory 0 stream) stream.length 0 (Grammar.main env.object.parser.uriRelaxed).start
      env.parser).map fun r =>
    if r.1.error = 0 ∧ r.2.1.final then withBody env.cast r.1.data (stream.drop r.2.2) else none

theorem recvRequest_eq {env : Env} {stream : List UInt8} (hne : stream ≠ []) (hfit : stream.length ≤ env.bufferSize)
    (hsize : env.bufferSize < 2 ^ 31) :
    (HttpSession.recvRequest env { input := [stream] }).map Prod.fst = received env stream := by
  have hn : 0 < stream.length := List.length_pos_iff.2 hne
  have hrun := start_running env.object.parser.uriRelaxed
  have hexecute := execute_eq (store env.memory 0 stream) (h := env.object.new) hn (by omega) hrun.1 rfl
  rw [HttpSession.recvRequest, received]
  show _ = (HttpRequestParser.exec _ _ _ env.object.new.parser.cs
    { env.object.new with parser := env.object.new.parser.reset }).map _
  rw [exec_eq_perform] at hexecute ⊢
  have hhalt : (halt (store env.memory 0 stream) stream.length 0 env.object.new.parser.cs).2 ≤ 0 + stream.length :=
    halt_le
  have hlt : (halt (store env.memory 0 stream) stream.length 0 env.object.new.parser.cs).1.final = true →
      0 < (halt (store env.memory 0 stream) stream.length 0 env.object.new.parser.cs).2 := lt_halt hrun
  revert hexecute hhalt hlt
  generalize halt (store env.memory 0 stream) stream.length 0 env.object.new.parser.cs = r
  obtain ⟨cs, k⟩ := r
  intro hexecute hhalt hlt
  simp only at hhalt hlt
  cases hperform : perform (store env.memory 0 stream) { env.object.new with parser := env.object.new.parser.reset }
      (events (store env.memory 0 stream) stream.length 0 env.object.new.parser.cs) with
  | error f =>
    rw [hperform] at hexecute
    rw [HttpSession.recvLoop, Nat.sub_zero, read_cons, List.take_of_length_le hfit, if_pos hfit, if_neg hne,
      Nat.zero_add]
    dsimp only
    rw [hexecute]
    rfl
  | ok h' =>
    rw [hperform] at hexecute
    simp only [Except.map] at hexecute
    have hends : EndsAs stream h' (cs, k)
        (HttpSession.recvLoop env.bufferSize ([stream].flatten.length + 1) env.object.new env.memory 0
          { input := [stream] }) := by
      rw [recvLoop_cons hne hfit hexecute, toInt_of_lt hsize]
      by_cases hr : Running cs
      · -- the machine wants more, and the next read brings nothing
        have hopen : ¬ (h'.error = 0 ∧ cs.final = true) := by
          rw [hr.2]
          simp
        split
        · exact hopen
        · split
          · exact hopen
          · split
            · rename_i hfin
              exact absurd (hr.2.symm.trans hfin) Bool.false_ne_true
            · obtain ⟨turns, hturns⟩ : ∃ t, [stream].flatten.length = t + 1 := ⟨stream.length - 1, by simp; omega⟩
              rw [hturns, HttpSession.recvLoop]
              exact hopen
      · refine endsAs_stopped hr rfl rfl (by simp) ?_ ?_
        · rw [slice_memmove _ (by omega), List.flatten_nil, List.append_nil]
        · intro hf
          have := hlt hf
          omega
    have hresult := recvRequest_of_endsAs (by omega) hends
    rw [HttpSession.recvRequest] at hresult
    rw [hresult]
    rfl

end OneRead

end ServerFrame.Http
