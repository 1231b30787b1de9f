/-
A response that is sent comes back: what `HttpConnection::recvResponse` makes of the text that `HttpResponse::dump`
has written, in whatever pieces the body arrives.
-/
import ServerFrame.Http.ResponseLines
import ServerFrame.Http.RoundTrip
import ServerFrame.Lib.Numerals

namespace ServerFrame.Http

open Ragel

/-! ## Numbers -/

theorem decimal_eq (n : Nat) : decimal n = CLib.numeral 10 n := by
  rw [decimal, bytes, Nat.toString_eq_repr, Nat.toList_repr]
  rfl

/-- The bytes of a number in decimal. -/
def isDigit (c : UInt8) : Bool := 48 ≤ c && c ≤ 57

set_option maxRecDepth 100000 in
theorem isDigit_of_digitValue : ∀ c, CLib.digitValue c < 10 → isDigit c = true := by
  apply forall_byte
  decide

theorem isDigit_decimal {n : Nat} : ∀ c ∈ decimal n, isDigit c = true := by
  intro c hc
  rw [decimal_eq] at hc
  exact isDigit_of_digitValue c (CLib.digitValue_of_mem_numeral (by decide) (by decide) hc)

theorem decimal_ne_nil {n : Nat} : decimal n ≠ [] := by
  rw [decimal_eq]
  exact CLib.numeral_ne_nil

theorem at_of_spells {buffer : Nat → UInt8} {p : Nat} {w : List UInt8} (h : Spells buffer p w) :
    CLib.At buffer p w := by
  intro i c hi
  obtain ⟨hlt, hget⟩ := List.getElem?_eq_some_iff.1 hi
  rw [h.getD hlt, List.getD_eq_getElem?_getD, hi]
  rfl

/-- `strtol` reads a number back that `operator<<` has printed. -/
theorem strtol_decimal {buffer : Nat → UInt8} {p pe n : Nat} (hn : n < 2 ^ 31) (hp : Spells buffer p (decimal n))
    (hpe : p + (decimal n).length ≤ pe) (hend : CLib.digitValue (buffer (p + (decimal n).length)) = 36) :
    CLib.strtol 10 buffer p pe = n := by
  have hdigits : ∀ c ∈ decimal n, CLib.digitValue c < 10 := fun c hc =>
    CLib.digitValue_of_mem_numeral (by decide) (by decide) (decimal_eq n ▸ hc)
  rw [CLib.strtol_eq (by decide) (at_of_spells hp) decimal_ne_nil hdigits hpe hend, decimal_eq,
    CLib.value_numeral (by decide) (by decide), Int.bmod_eq_of_le] <;> omega

namespace HttpResponseParser

open ClientGrammar (main token)

/-! ## The states of the status line and of the lines that are computed -/

/-- Before the status. -/
def beforeCodeState : State ClientAction := after main.start (bytes "HTTP/1.1 ")

def codeState : State ClientAction := beforeCodeState.step 50

/-- Before the reason. -/
def beforeReasonState : State ClientAction := codeState.step 32

def reasonState : State ClientAction := beforeReasonState.step 79

def statusEndState : State ClientAction := reasonState.step 13

/-- At the beginning of a line after `connection: close`. -/
def closingState : State ClientAction := after headersState (bytes "connection: close\r\n")

/-- Before the digits of a length. -/
def beforeLengthState : State ClientAction := after headersState (bytes "content-length: ")

def lengthState : State ClientAction := beforeLengthState.step 49

def lengthEndState : State ClientAction := lengthState.step 13

/-- After the carriage return of the empty line. -/
def emptyLineState : State ClientAction := headersState.step 13

set_option maxRecDepth 100000 in
theorem version_walk : ∀ w ∈ [bytes "HTTP/1.0 ", bytes "HTTP/1.1 "],
    walk 0 main.start w = some (beforeCodeState, [(0, .mark), (8, .httpVersion)]) := by
  decide

set_option maxRecDepth 100000 in
theorem digit_bytes : ∀ c, isDigit c = true →
    (beforeCodeState.step c = codeState ∧ beforeCodeState.acts c = [.mark] ∧
      codeState.step c = codeState ∧ codeState.acts c = []) ∧
    beforeLengthState.step c = lengthState ∧ beforeLengthState.acts c = [.startValue] ∧
      lengthState.step c = lengthState ∧ lengthState.acts c = [] := by
  apply forall_byte
  decide

set_option maxRecDepth 100000 in
theorem reason_bytes : ∀ c : UInt8, c ≠ 13 → c ≠ 10 →
    beforeReasonState.step c = reasonState ∧ beforeReasonState.acts c = [.mark] ∧
      reasonState.step c = reasonState ∧ reasonState.acts c = [] := by
  apply forall_byte
  decide

set_option maxRecDepth 100000 in
/-- The ends of the status and of the reason. -/
theorem status_bytes : codeState.acts 32 = [.statusCode] ∧ reasonState.acts 13 = [.reasonPhrase] ∧
    statusEndState.step 10 = headersState ∧ statusEndState.acts 10 = [] ∧
    ∀ s ∈ [codeState, beforeReasonState, reasonState, statusEndState], s ≠ [] := by
  decide

set_option maxRecDepth 100000 in
/-- The `connection` line. -/
theorem connection_walk :
    walk 0 headersState (bytes "connection: keep-alive\r\n") = some (headersState,
      [(0, .startField), (10, .writeField), (11, .startValue), (12, .startValue),
        (22, .writeValue)]) ∧
    walk 0 headersState (bytes "connection: close\r\n") = some (closingState,
      [(0, .startField), (10, .writeField), (11, .startValue), (12, .startValue),
        (17, .writeValue)]) := by
  decide

/-- What a machine that has read `connection: close` does at the next byte. -/
def closing (s : State ClientAction) : List ClientAction := if s = closingState then [.writeConnectionClose] else []

set_option maxRecDepth 100000 in
/-- The `content-length` line, and the line that ends the header. -/
theorem length_walk : ∀ s ∈ [headersState, closingState],
    walk 0 s (bytes "content-length: ") = some (beforeLengthState,
      (closing s).map (Prod.mk 0) ++ [(0, .startField), (14, .writeField),
        (15, .startValue)]) ∧
    s.step 13 = emptyLineState ∧ s.acts 13 = closing s := by
  decide

set_option maxRecDepth 100000 in
theorem end_bytes : lengthState.acts 13 = [.writeContentLen, .writeValue] ∧
    lengthEndState.step 10 = headersState ∧ lengthEndState.acts 10 = [] ∧
    emptyLineState.acts 10 = [.done] ∧ firstFinal (emptyLineState.step 10) = true ∧
    ∀ s ∈ [lengthState, lengthEndState, emptyLineState], s ≠ [] := by
  decide

/-! ## The status line -/

section Stretches

variable {buffer : Nat → UInt8} {pe p : Nat} {h h' : HttpResponseParser}

/-- A stretch of bytes of one kind, of which only the first is performed on. -/
theorem feeds_run {P : UInt8 → Prop} {s s' : State ClientAction} {as : List ClientAction} {w : List UInt8}
    (hne : w ≠ []) (hw : ∀ c ∈ w, P c)
    (hbytes : ∀ c, P c → s.step c = s' ∧ s.acts c = as ∧ s'.step c = s' ∧ s'.acts c = []) (hs' : s' ≠ [])
    (hd : .done ∉ as) (hperform : perform buffer pe h (as.map (Prod.mk p)) = .ok h') (hp : Spells buffer p w) :
    Feeds buffer pe p w.length s h s' h' := by
  match w, hne with
  | c :: w, _ =>
    obtain ⟨hstep, hacts, -⟩ := hbytes c (hw c (List.mem_cons_self ..))
    have hfirst : Feeds buffer pe p 1 s h s' h' := .byte hp.1 hstep hs' hacts hd hperform
    rw [List.length_cons, Nat.add_comm]
    exact hfirst.trans (.quiet (fun d hd => (hbytes d (hw d (List.mem_cons_of_mem _ hd))).2.2) hs' hp.2)

/-- The text of a version that the parser knows. -/
def versionText (version : UInt8) : List UInt8 := if version = 0x10 then bytes "HTTP/1.0" else bytes "HTTP/1.1"

theorem onResponseVersion_eq {version : UInt8} (hv : version = 0x10 ∨ version = 0x11)
    (hp : Spells buffer p (versionText version)) :
    h.onResponseVersion buffer p 8 = { h with data := { h.data with version } } := by
  have hlen : (versionText version).length = 8 := by rcases hv with rfl | rfl <;> rfl
  have htext : ∀ t, strncmp 8 (fun i => buffer (p + i)) t = strncmp 8 (cstr (versionText version)) t := fun t =>
    strncmp_congr fun i hi => hp.getD (by rwa [hlen])
  unfold onResponseVersion
  simp only [htext]
  rcases hv with rfl | rfl
  · rw [if_neg (by decide), if_pos (by decide)]
  · rw [if_pos (by decide)]

variable (pe) in
theorem feeds_version {version : UInt8} (hv : version = 0x10 ∨ version = 0x11)
    (hp : Spells buffer 0 (versionText version ++ [32])) :
    Feeds buffer pe 0 9 main.start h beforeCodeState { h.marked 0 with data := { h.data with version } } := by
  have hperform : perform buffer pe h ([(0, .mark), (8, .httpVersion)].map fun x : Nat × ClientAction =>
      (0 + x.1, x.2)) = .ok { h.marked 0 with data := { h.data with version } } := by
    have hversion := onResponseVersion_eq (h := h.marked 0) hv (spells_append.1 hp).1
    simp only [List.map_cons, List.map_nil, perform, act]
    exact congrArg Except.ok hversion
  rcases hv with rfl | rfl
  · exact Feeds.walk (i := 0) (version_walk (bytes "HTTP/1.0 ") (by simp)) hp hperform
  · exact Feeds.walk (i := 0) (version_walk (bytes "HTTP/1.1 ") (by simp)) hp hperform

variable (pe) in
/-- The status and the blank behind it. -/
theorem feeds_code {n : Nat} (hn : n < 2 ^ 31) (hp : Spells buffer p (decimal n ++ [32]))
    (hpe : p + (decimal n).length ≤ pe) : ∃ h', Feeds buffer pe p ((decimal n).length + 1) beforeCodeState h
      beforeReasonState h' ∧ Leaves h { h.data with status := n } h' := by
  obtain ⟨hpd, hps, -⟩ := spells_append.1 hp
  have hstatus : CLib.strtol 10 buffer p pe = n := strtol_decimal hn hpd hpe (by rw [hps]; rfl)
  have hdigits : Feeds buffer pe p (decimal n).length beforeCodeState h codeState (h.marked p) :=
    feeds_run decimal_ne_nil isDigit_decimal (fun c hc => (digit_bytes c hc).1)
      (status_bytes.2.2.2.2 _ (by simp)) (by decide) rfl hpd
  let h1 : HttpResponseParser := { h.marked p with
    data := { h.data with status := n }, parser := { (h.marked p).parser with status := n } }
  have hblank : Feeds buffer pe (p + (decimal n).length) 1 codeState (h.marked p) beforeReasonState h1 := by
    refine .byte hps rfl (status_bytes.2.2.2.2 _ (by simp)) status_bytes.1 (by decide) ?_
    simp only [List.map_cons, List.map_nil, perform, act, onResponseStatus]
    have hmark : (h.marked p).parser.mark = p := rfl
    rw [hmark, hstatus]
    rfl
  exact ⟨h1, hdigits.trans hblank, rfl, rfl, rfl⟩

variable (pe) in
/-- The reason and the end of the line. -/
theorem feeds_reason {reason : List UInt8} (hne : reason ≠ []) (hreason : ∀ c ∈ reason, c ≠ 13 ∧ c ≠ 10)
    (hp : Spells buffer p (reason ++ [13, 10])) (hlen : reason.length < 2 ^ 63) :
    ∃ h', Feeds buffer pe p (reason.length + 2) beforeReasonState h headersState h' ∧
      Leaves h { h.data with reason } h' := by
  obtain ⟨hpr, hpe⟩ := spells_append.1 hp
  obtain ⟨-, hacts, hfeed, hquiet, hrun⟩ := status_bytes
  have hreasons : Feeds buffer pe p reason.length beforeReasonState h reasonState (h.marked p) :=
    feeds_run hne hreason (fun c hc => reason_bytes c hc.1 hc.2) (hrun _ (by simp)) (by decide) rfl hpr
  let h1 : HttpResponseParser := { h.marked p with data := { h.data with reason } }
  have hreturn : Feeds buffer pe (p + reason.length) 1 reasonState (h.marked p) statusEndState h1 := by
    refine .byte hpe.1 rfl (hrun _ (by simp)) hacts (by decide) ?_
    simp only [List.map_cons, List.map_nil, perform, act, onResponseReason]
    have hmark : (h.marked p).parser.mark = p := rfl
    rw [hmark, len_string hlen hpr rfl]
    rfl
  have hline : Feeds buffer pe (p + reason.length + 1) 1 statusEndState h1 headersState h1 :=
    .byte hpe.2.1 hfeed (states_ne_nil _ (by simp)) hquiet (by simp) rfl
  exact ⟨h1, hreasons.trans (hreturn.trans hline), rfl, rfl, rfl⟩

/-! ## The lines that are computed -/

/-- The value of the `connection` line. -/
def connectionText (close : Bool) : List UInt8 := if close then bytes "close" else bytes "keep-alive"

variable (pe) in
theorem feeds_connection (close : Bool) (hp : Spells buffer p (HttpRequest.dumpHeader (bytes "connection")
    (connectionText close))) : ∃ h', Feeds buffer pe p (HttpRequest.dumpHeader (bytes "connection")
      (connectionText close)).length headersState h (if close then closingState else headersState) h' ∧
      Leaves h (h.data.setHeader (bytes "connection") (connectionText close)) h' := by
  let h1 := (h.named p 10).marked (p + 12)
  let h2 : HttpResponseParser := { h1 with data := h.data.setHeader (bytes "connection") (connectionText close) }
  have hlen : (connectionText close).length < 2 ^ 63 := by cases close <;> decide
  rw [HttpRequest.dumpHeader, List.append_assoc, List.append_assoc] at hp
  obtain ⟨hpk, hpr⟩ := spells_append.1 hp
  have hpv := (spells_append.1 (spells_append.1 hpr).2).1
  have hwrite : h1.act buffer pe (p + 12 + (connectionText close).length) .writeValue = .ok h2 :=
    act_writeValue (h := h1) hpk hpv rfl rfl rfl rfl (by decide) (by decide) hlen
  have hperform : perform buffer pe h (([(0, .startField), (10, .writeField), (11, .startValue),
      (12, .startValue), (12 + (connectionText close).length, .writeValue)] : List (Nat × ClientAction)).map
        fun x => (p + x.1, x.2)) = .ok h2 := by
    have hbegin : perform buffer pe h (([(0, .startField), (10, .writeField), (11, .startValue),
        (12, .startValue)] : List (Nat × ClientAction)).map fun x => (p + x.1, x.2)) = .ok h1 := by
      simp [perform, act, h1, named, marked, len]
    have hsplit := perform_append [(p + 12 + (connectionText close).length, .writeValue)] hbegin
    rw [perform, hwrite, List.map_cons, List.map_cons, List.map_cons, List.map_cons] at hsplit
    rw [List.map_cons, List.map_cons, List.map_cons, List.map_cons, List.map_cons, ← Nat.add_assoc]
    exact hsplit
  refine ⟨h2, ?_, rfl, rfl, rfl⟩
  rw [HttpRequest.dumpHeader, List.append_assoc, List.append_assoc]
  cases close with
  | false => exact Feeds.walk (i := 0) connection_walk.1 hp hperform
  | true => exact Feeds.walk (i := 0) connection_walk.2 hp hperform

/-- What the next byte after `connection: close` notes. -/
def noted (s : State ClientAction) (h : HttpResponseParser) : HttpResponseParser :=
  if s = closingState then { h with parser := { h.parser with close := true } } else h

theorem leaves_noted (s : State ClientAction) (h : HttpResponseParser) : Leaves h h.data (noted s h) := by
  unfold noted
  split <;> exact ⟨rfl, rfl, rfl⟩

theorem perform_closing (s : State ClientAction) (ev : List (Nat × ClientAction)) :
    perform buffer pe h ((closing s).map (Prod.mk p) ++ ev) = perform buffer pe (noted s h) ev := by
  unfold closing noted
  split <;> rfl

variable (pe) in
/-- The length of the body. -/
theorem feeds_length {s : State ClientAction} (hs : s ∈ [headersState, closingState]) {n : Nat}
    (hp : Spells buffer p (HttpRequest.dumpHeader (bytes "content-length") (decimal n)))
    (hlen : (decimal n).length < 2 ^ 63) : ∃ h', Feeds buffer pe p (HttpRequest.dumpHeader (bytes "content-length")
      (decimal n)).length s h headersState h' ∧
      Leaves h (h.data.setHeader (bytes "content-length") (decimal n)) h' := by
  have htext : HttpRequest.dumpHeader (bytes "content-length") (decimal n) =
      bytes "content-length: " ++ (decimal n ++ [13, 10]) := by
    rw [HttpRequest.dumpHeader, List.append_assoc, List.append_assoc]
    rfl
  obtain ⟨hwalk, -⟩ := length_walk s hs
  obtain ⟨hend, hfeed, hquiet, -, -, hrun⟩ := end_bytes
  rw [htext] at hp ⊢
  obtain ⟨hpn, hpt⟩ := spells_append.1 hp
  obtain ⟨hpv, hpe⟩ := spells_append.1 hpt
  let h0 := noted s h
  let h1 := (h0.named p 14).marked (p + 15)
  have hname : Feeds buffer pe p 16 s h beforeLengthState h1 := by
    refine Feeds.walk (i := 0) hwalk hpn ?_
    rw [List.map_append, List.map_map]
    have hclosing : (closing s).map ((fun x : Nat × ClientAction => (p + x.1, x.2)) ∘ Prod.mk 0) =
        (closing s).map (Prod.mk p) := rfl
    rw [hclosing, perform_closing]
    simp [perform, act, h0, h1, named, marked, len]
  let m := p + 16
  have hpk : Spells buffer p (bytes "content-length") :=
    (spells_append.1 (show Spells buffer p (bytes "content-length" ++ bytes ": ") from hpn)).1
  have hpv : Spells buffer m (decimal n) := hpv
  have hpe : Spells buffer (m + (decimal n).length) [13, 10] := hpe
  have hdigits : Feeds buffer pe m (decimal n).length beforeLengthState h1 lengthState (h1.marked m) :=
    feeds_run decimal_ne_nil isDigit_decimal (fun c hc => (digit_bytes c hc).2) (hrun _ (by simp)) (by decide) rfl hpv
  let h2 : HttpResponseParser := { h1.marked m with
    parser := { (h1.marked m).parser with contentLen := CLib.strtol 10 buffer m pe } }
  let h3 : HttpResponseParser := { h2 with data := h.data.setHeader (bytes "content-length") (decimal n) }
  have hdata : h2.data = h.data := (leaves_noted s h).data
  have hwrite : ∀ g : HttpResponseParser, g.parser = h2.parser →
      g.act buffer pe (m + (decimal n).length) .writeValue =
        .ok { g with data := g.data.setHeader (bytes "content-length") (decimal n) } := fun g hg =>
    act_writeValue hpk hpv (by rw [hg]; rfl) (by rw [hg]; rfl) (by rw [hg]; rfl) rfl (by decide) (by decide) hlen
  have hperform : perform buffer pe (h1.marked m) (([.writeContentLen, .writeValue] :
      List ClientAction).map (Prod.mk (m + (decimal n).length))) = .ok h3 := by
    have hnoted : (h1.marked m).act buffer pe (m + (decimal n).length) .writeContentLen = .ok h2 := rfl
    have hfirst : h2.act buffer pe (m + (decimal n).length) .writeValue = .ok h3 := by
      rw [hwrite h2 rfl, hdata]
    rw [List.map_cons, List.map_singleton, perform, hnoted]
    simp only
    rw [perform, hfirst]
    rfl
  have hreturn : Feeds buffer pe (m + (decimal n).length) 1 lengthState (h1.marked m) lengthEndState h3 :=
    .byte hpe.1 rfl (hrun _ (by simp)) hend (by decide) hperform
  have hline : Feeds buffer pe (m + (decimal n).length + 1) 1 lengthEndState h3 headersState h3 :=
    .byte hpe.2.1 hfeed (states_ne_nil _ (by simp)) hquiet (by simp) rfl
  refine ⟨h3, ?_, rfl, (leaves_noted s h).error, (leaves_noted s h).chunked⟩
  have hcount : (bytes "content-length: " ++ (decimal n ++ [13, 10])).length = 16 + ((decimal n).length + (1 + 1)) := by
    rw [List.length_append, List.length_append]
    rfl
  rw [hcount]
  exact hname.trans (hdigits.trans (hreturn.trans hline))

variable (pe) in
/-- The line that ends the header. -/
theorem exec_emptyLine {s : State ClientAction} (hs : s ∈ [headersState, closingState])
    (hp : Spells buffer p [13, 10]) (m : Nat) : ∃ h' cs',
    exec buffer pe (2 + m) p s h = .ok (h', cs', p + 2) ∧ firstFinal cs' = true ∧ Leaves h h.data h' := by
  obtain ⟨-, hstep, hacts⟩ := length_walk s hs
  obtain ⟨-, -, -, hdone, hfinal, hrun⟩ := end_bytes
  have hne : emptyLineState.step 10 ≠ [] := by
    intro h0
    rw [h0] at hfinal
    cases hfinal
  have hperform : perform buffer pe h ((closing s).map (Prod.mk p)) = .ok (noted s h) := by
    rw [← List.append_nil ((closing s).map (Prod.mk p)), perform_closing]
    rfl
  have hclosing : .done ∉ closing s := by
    unfold closing
    split <;> decide
  have hreturn : Feeds buffer pe p 1 s h emptyLineState (noted s h) :=
    .byte hp.1 hstep (hrun _ (by simp)) hacts hclosing hperform
  have hp10 : buffer (p + 1) = 10 := hp.2.1
  refine ⟨{ noted s h with parser := { (noted s h).parser with bodyStart := p + 1 + 1 } }, emptyLineState.step 10, ?_,
    hfinal, (leaves_noted s h).data, (leaves_noted s h).error, (leaves_noted s h).chunked⟩
  rw [show 2 + m = 1 + (m + 1) by omega, hreturn, exec_stop (by rwa [hp10]) (by rw [hp10]; exact hdone) acts_done, hp10]

/-! ## The header -/

/-- The reason that is printed. -/
def printedReason (r : HttpResponse) : List UInt8 := if r.reason = [] then httpStatusToString r.status else r.reason

/-- The responses in question: the version is 1.0 or 1.1, the status an `int` that is not negative, the reason without
line breaks; the header lines are such that the client takes them as they are, and so are the cookies. -/
structure Sendable (r : HttpResponse) : Prop where
  version : r.version = 0x10 ∨ r.version = 0x11
  websocket : r.websocket = false
  status : 0 ≤ r.status ∧ r.status < 2 ^ 31
  reason : ∀ c ∈ r.reason, c ≠ 13 ∧ c ≠ 10
  headers : ∀ x ∈ mapLines false r.headers, Receivable x
  cookies : ∀ c ∈ r.cookies, Receivable (bytes "Set-Cookie", c)

/-- A text for the status line, as the evaluation of the whole text finds it. -/
theorem text_of_all {w : List UInt8} (h : (!w.isEmpty && w.all fun c => c != 13 && c != 10) = true) :
    w ≠ [] ∧ ∀ c ∈ w, c ≠ 13 ∧ c ≠ 10 := by
  simpa using h

theorem httpStatusMap_texts : ∀ x ∈ httpStatusMap, x.2 ≠ [] ∧ ∀ c ∈ x.2, c ≠ 13 ∧ c ≠ 10 := by
  have hall : (httpStatusMap.all fun x => !x.2.isEmpty && x.2.all fun c => c != 13 && c != 10) = true := by
    decide
  intro x hx
  exact text_of_all (List.all_eq_true.1 hall x hx)

theorem printedReason_spec {r : HttpResponse} (hr : ∀ c ∈ r.reason, c ≠ 13 ∧ c ≠ 10) :
    printedReason r ≠ [] ∧ ∀ c ∈ printedReason r, c ≠ 13 ∧ c ≠ 10 := by
  unfold printedReason
  split
  · unfold httpStatusToString
    cases hf : httpStatusMap.find? fun x => x.1 = r.status with
    | none => exact text_of_all (by decide)
    | some x => exact httpStatusMap_texts x (List.mem_of_find?_eq_some hf)
  · rename_i hne
    exact ⟨hne, hr⟩

variable {r : HttpResponse}

theorem startLine_eq (hr : Sendable r) : r.startLine =
    (versionText r.version ++ [32]) ++ ((decimal r.status.toNat ++ [32]) ++ (printedReason r ++ [13, 10])) := by
  have hstatus : (r.status % 2 ^ 32).toNat = r.status.toNat := by
    have h0 := hr.status.1
    have h31 := hr.status.2
    rw [Int.emod_eq_of_lt h0 (by omega)]
  have hversion : bytes "HTTP/" ++ decimal (r.version >>> 4).toNat ++ bytes "." ++
      decimal (r.version &&& 0x0f).toNat = versionText r.version := by
    rcases hr.version with h | h <;> rw [h] <;> decide
  rw [HttpResponse.startLine, hversion, hstatus, printedReason]
  simp only [List.append_assoc]
  rfl

/-- The status line. -/
theorem feeds_startLine (hr : Sendable r) (hp : Spells buffer 0 r.startLine) (hpe : r.startLine.length ≤ pe)
    (h31 : pe < 2 ^ 31) : ∃ h', Feeds buffer pe 0 r.startLine.length main.start h headersState h' ∧
      Leaves h { h.data with version := r.version, status := r.status, reason := printedReason r } h' := by
  obtain ⟨h0, hlt⟩ := hr.status
  obtain ⟨hne, hreason⟩ := printedReason_spec hr.reason
  have hvlen : (versionText r.version ++ [32]).length = 9 := by
    rcases hr.version with h | h <;> rw [h] <;> rfl
  have hlen : r.startLine.length =
      9 + ((decimal r.status.toNat).length + 1 + ((printedReason r).length + 2)) := by
    rw [startLine_eq hr, List.length_append, hvlen, List.length_append, List.length_append, List.length_append]
    rfl
  rw [startLine_eq hr] at hp
  obtain ⟨hpv, hpt⟩ := spells_append.1 hp
  rw [hvlen] at hpt
  obtain ⟨hpd, hpr⟩ := spells_append.1 hpt
  have hversion := feeds_version (h := h) pe hr.version hpv
  obtain ⟨h1, hcode, hleaves⟩ := feeds_code
    (h := { h.marked 0 with data := { h.data with version := r.version } }) (n := r.status.toNat) pe (by omega) hpd
    (by omega)
  rw [List.length_append] at hpr
  obtain ⟨h2, hlast, hleaves'⟩ := feeds_reason (h := h1) pe hne hreason hpr (by omega)
  refine ⟨h2, ?_, ?_, hleaves'.error.trans hleaves.error, hleaves'.chunked.trans hleaves.chunked⟩
  · rw [hlen]
    exact hversion.trans (hcode.trans hlast)
  · rw [hleaves'.data, hleaves.data, Int.toNat_of_nonneg h0]

/-- The lines of the map and the cookies. -/
theorem receivable_plain (hr : Sendable r) :
    ∀ x ∈ mapLines false r.headers ++ r.cookies.map (bytes "Set-Cookie", ·), Receivable x := by
  intro x hx
  rcases List.mem_append.1 hx with hx | hx
  · exact hr.headers x hx
  · obtain ⟨c, hc, rfl⟩ := List.mem_map.1 hx
    exact hr.cookies c hc

/-- What the client makes of a response, but for its body. -/
def headOf (r : HttpResponse) : HttpResponse :=
  { status := r.status
    version := r.version
    reason := printedReason r
    headers := MapType.assignAll [] r.headerLines }

theorem foldl_setHeader (xs : MapType) (d : HttpResponse) : xs.foldl (fun r x => r.setHeader x.1 x.2) d =
    { d with headers := d.headers.assignAll xs } := by
  induction xs generalizing d with
  | nil => rfl
  | cons x xs ih =>
    rw [List.foldl_cons, ih]
    rfl

/-- All of the header. -/
theorem exec_head (hr : Sendable r) {text : List UInt8}
    (htext : text = r.startLine ++ linesText r.headerLines ++ [13, 10]) (hp : Spells buffer 0 text)
    (hpe : text.length ≤ pe) (h31 : pe < 2 ^ 31) (hdata : h.data = {}) (m : Nat) :
    ∃ h' cs', exec buffer pe (text.length + m) 0 main.start h = .ok (h', cs', text.length) ∧ firstFinal cs' = true ∧
      Leaves h (headOf r) h' := by
  subst htext
  have hlen : (r.startLine ++ linesText r.headerLines ++ [13, 10]).length =
      r.startLine.length + (linesText r.headerLines).length + 2 := by
    rw [List.length_append, List.length_append]
    rfl
  rw [hlen] at hpe
  obtain ⟨hpl, hpe'⟩ := spells_append.1 hp
  obtain ⟨hps, hph⟩ := spells_append.1 hpl
  rw [List.length_append] at hpe'
  obtain ⟨h1, hstart, hleaves1⟩ := feeds_startLine (h := h) hr hps (show r.startLine.length ≤ pe by omega) h31
  obtain ⟨plain, hreceivable, hlines⟩ : ∃ plain : MapType, (∀ x ∈ plain, Receivable x) ∧
      r.headerLines = plain ++ (connectionLine false r.close ++ lengthLine r.body) :=
    ⟨_, receivable_plain hr, by rw [HttpResponse.headerLines, hr.websocket, List.append_assoc]⟩
  have hconnection : linesText (connectionLine false r.close) =
      HttpRequest.dumpHeader (bytes "connection") (connectionText r.close) := linesText_connectionLine ..
  have hlinesText : linesText r.headerLines = linesText plain ++
      (linesText (connectionLine false r.close) ++ linesText (lengthLine r.body)) := by
    rw [hlines, linesText_append plain, linesText_append (connectionLine ..)]
  have hlinesLen := congrArg List.length hlinesText
  rw [List.length_append, List.length_append] at hlinesLen
  rw [hlinesText] at hph
  obtain ⟨hpp, hpc⟩ := spells_append.1 hph
  obtain ⟨hpc, hpb⟩ := spells_append.1 hpc
  obtain ⟨h2, hplain, hleaves2⟩ := feeds_headers (h := h1) pe hreceivable hpp (by omega)
  rw [hconnection] at hpc hpb
  obtain ⟨h3, hconn, hleaves3⟩ := feeds_connection (h := h2) pe r.close hpc
  -- the state after the `connection` line, from which the length and the empty line go on alike
  obtain ⟨s, hs, hmem⟩ : ∃ s, s = (if r.close then closingState else headersState) ∧
      s ∈ [headersState, closingState] := by
    refine ⟨_, rfl, ?_⟩
    split <;> simp
  rw [← hs] at hconn
  obtain ⟨s', h4, hbody, hmem', hleaves4⟩ : ∃ s' h4, Feeds buffer pe
      (0 + r.startLine.length + (linesText plain).length +
        (HttpRequest.dumpHeader (bytes "connection") (connectionText r.close)).length)
      (linesText (lengthLine r.body)).length s h3 s' h4 ∧ s' ∈ [headersState, closingState] ∧
      Leaves h3 ((lengthLine r.body).foldl (fun d x => d.setHeader x.1 x.2) h3.data) h4 := by
    unfold lengthLine at hpb hlinesLen ⊢
    split
    · exact ⟨s, h3, .none, hmem, rfl, rfl, rfl⟩
    · rename_i hne
      rw [if_neg hne] at hpb hlinesLen
      have hone : linesText [(bytes "content-length", decimal r.body.length)] =
          HttpRequest.dumpHeader (bytes "content-length") (decimal r.body.length) := List.flatMap_singleton ..
      rw [hone] at hpb hlinesLen ⊢
      have hbig : (decimal r.body.length).length ≤
          (HttpRequest.dumpHeader (bytes "content-length") (decimal r.body.length)).length := by
        simp only [HttpRequest.dumpHeader, List.length_append]
        omega
      obtain ⟨h4, hfeeds, hleaves⟩ := feeds_length (h := h3) pe hmem hpb (by omega)
      exact ⟨headersState, h4, hfeeds, by simp, hleaves⟩
  obtain ⟨h5, cs', hend, hfinal, hleaves5⟩ := exec_emptyLine (h := h4) pe hmem' hpe' m
  have hall : Feeds buffer pe 0 (r.startLine.length + (linesText r.headerLines).length) main.start h s' h4 := by
    rw [hlinesLen, hconnection]
    exact hstart.trans (hplain.trans (hconn.trans hbody))
  refine ⟨h5, cs', ?_, hfinal, ?_, ?_, ?_⟩
  · rw [hlen, Nat.add_assoc, hall, hend, Nat.zero_add]
  · rw [hleaves5.data, hleaves4.data, hleaves3.data, hleaves2.data, hleaves1.data, hdata, headOf, hlines]
    have hconn' : ∀ d : HttpResponse, d.setHeader (bytes "connection") (connectionText r.close) =
        (connectionLine false r.close).foldl (fun d x => d.setHeader x.1 x.2) d := fun d => rfl
    rw [hconn', ← List.foldl_append, ← List.foldl_append, foldl_setHeader]
  · exact hleaves5.error.trans (hleaves4.error.trans (hleaves3.error.trans (hleaves2.error.trans hleaves1.error)))
  · exact hleaves5.chunked.trans (hleaves4.chunked.trans (hleaves3.chunked.trans
      (hleaves2.chunked.trans hleaves1.chunked)))

end Stretches

end HttpResponseParser

/-! ## The response -/

namespace HttpConnection

open HttpResponseParser

/-- The header of a response as it is printed. -/
def headText (r : HttpResponse) : List UInt8 := r.startLine ++ linesText r.headerLines ++ [13, 10]

theorem spells_fill (memory : Nat → UInt8) (piece : List UInt8) : Spells (fill memory 0 piece) 0 piece :=
  spells_of_getD fun i hi => by
    rw [Nat.zero_add, fill, store, if_neg (by omega), store_zero hi]

section Sent

variable {env : Env} {r : HttpResponse} {first : List UInt8} {rest : List (List UInt8)} {more : List UInt8}

theorem headText_ne_nil (r : HttpResponse) : headText r ≠ [] := by
  rw [headText]
  simp

/-- What the receiver finds of the length: that of the body. -/
theorem getContentLength_headOf (hr : Sendable r) {h : HttpResponseParser} (hdata : h.data = headOf r)
    {cast : List UInt8 → Option UInt64} (hbody : r.body.length < 2 ^ 31)
    (hcast : cast (decimal r.body.length) = some (UInt64.ofNat r.body.length)) :
    (h.getContentLength cast).toNat = r.body.length := by
  have hnone : (mapLines false r.headers ++ r.cookies.map (bytes "Set-Cookie", ·) ++
      connectionLine false r.close).filter (fun x => folded x.1 = folded (bytes "content-length")) = [] := by
    refine List.filter_eq_nil_iff.2 fun x hx heq => ?_
    rw [decide_eq_true_eq] at heq
    rcases List.mem_append.1 hx with hx | hx
    · have hplain := receivable_plain hr x hx
      have hnul : 0 ∉ x.1 := fun h0 => absurd (hplain.tokens 0 h0) (by decide)
      rw [folded, takeWhile_nul hnul] at heq
      exact hplain.plain (heq ▸ by decide)
    · obtain rfl := List.mem_singleton.1 hx
      exact absurd (show folded (bytes "connection") = folded (bytes "content-length") from heq) (by decide)
  have hfind : (headOf r).headers.find (bytes "content-length") =
      (((lengthLine r.body).filter fun x => folded x.1 = folded (bytes "content-length")).getLast?.map Prod.snd) := by
    have hempty : MapType.find (bytes "content-length") [] = none := rfl
    rw [headOf, MapType.find_assignAll (m := []) .nil, HttpResponse.headerLines, hr.websocket, List.filter_append,
      hnone, List.nil_append, hempty, Option.or_none]
  rw [getContentLength, hdata, HttpResponse.getHeaderAs, hfind]
  unfold lengthLine
  by_cases hne : r.body = []
  · rw [if_pos hne, hne]
    rfl
  · rw [if_neg hne]
    have hone : ([(bytes "content-length", decimal r.body.length)] : MapType).filter
        (fun x => folded x.1 = folded (bytes "content-length")) = [(bytes "content-length", decimal r.body.length)] :=
      List.filter_cons_of_pos (decide_eq_true rfl)
    rw [hone]
    show ((cast (decimal r.body.length)).getD 0).toNat = r.body.length
    rw [hcast, Option.getD_some, UInt64.toNat_ofNat_of_lt' (Nat.lt_trans hbody (by decide))]

variable (rest) in
/-- The first read brings the header, and the parser takes it. -/
theorem recvLoop_sent (hr : Sendable r) (herror : env.object.error = 0) (hsize : env.bufferSize < 2 ^ 31)
    (hhead : headText r <+: first) (hfit : first.length ≤ env.bufferSize) (turns : Nat) : ∃ h' data',
    recvLoop env.bufferSize (turns + 1) env.object.new env.memory 0 { input := first :: rest } =
      .ok (some (h', data', first.length - (headText r).length), { input := rest }) ∧
    h'.data = headOf r ∧ h'.parser.chunked = false ∧
    slice data' 0 (first.length - (headText r).length) = first.drop (headText r).length := by
  obtain ⟨tail, htail⟩ := hhead
  have hpos : 0 < (headText r).length := List.length_pos_iff.2 (headText_ne_nil r)
  have hlen : first.length = (headText r).length + tail.length := by rw [← htail, List.length_append]
  have hne : first ≠ [] := fun h0 => by
    rw [h0, List.length_nil] at hlen
    omega
  have hspells : Spells (fill env.memory 0 first) 0 (headText r ++ tail) := by
    have hfirst := spells_fill env.memory first
    rwa [← htail] at hfirst ⊢
  have hspell := (spells_append.1 hspells).1
  obtain ⟨h1, cs, hexec, hfinal, hleaves⟩ := exec_head (h := { env.object.new with
    parser := env.object.new.parser.reset }) hr (headText.eq_1 r) hspell (hlen ▸ Nat.le_add_right ..)
      (Nat.lt_of_le_of_lt hfit hsize) rfl tail.length
  rw [← hlen] at hexec
  have hstart : ClientGrammar.main.start = env.object.new.parser.cs := rfl
  rw [hstart] at hexec
  have hnul : fill env.memory 0 first first.length = 0 := by
    rw [fill, Nat.zero_add, store, if_pos ⟨le_refl _, by simp⟩, Nat.sub_self]
    rfl
  have hexecute := execute_of_exec (by omega) (by omega) hnul rfl hexec
  have herr : h1.error = 0 := hleaves.error.trans herror
  have hrunning : cs.isEmpty = false := by
    cases cs with
    | nil => cases hfinal
    | cons => rfl
  refine ⟨{ h1 with parser := { h1.parser with cs, nread := (headText r).length } },
    HttpRequestParser.memmove (fill env.memory 0 first) (headText r).length (first.length - (headText r).length), ?_,
    hleaves.data, hleaves.chunked, ?_⟩
  · have hno : ¬ ((first.length - (headText r).length : Nat) : Int) = toInt env.bufferSize := by
      rw [toInt_of_lt hsize]
      omega
    rw [recvLoop, Nat.sub_zero, read_cons, List.take_of_length_le hfit, if_pos hfit]
    dsimp only
    rw [if_neg hne, Nat.zero_add, hexecute]
    dsimp only
    rw [if_neg (by rw [hasError, herr, ClientParser.hasError, hrunning]; decide), if_neg hno,
      if_pos (by rw [isFinished, ClientParser.isFinished]; exact hfinal)]
  · rw [slice_consumed (by omega)]
    have hfill := slice_fill env.memory 0 first
    rw [Nat.zero_add] at hfill
    rw [hfill]
    rfl

/-- A call of `recvResponse` can take the response: the error field of its parser happens to be zero, it reads the
length of the body for the number that was printed, and its first read brings all of the header and fits its buffer. -/
structure Awaits (env : Env) (r : HttpResponse) (first : List UInt8) : Prop where
  error : env.object.error = 0
  size : env.bufferSize < 2 ^ 31
  body : r.body.length < 2 ^ 31
  cast : env.cast (decimal r.body.length) = some (UInt64.ofNat r.body.length)
  head : (headText r).length ≤ first.length
  fit : first.length ≤ env.bufferSize

/-- What `recvResponse` makes of the text of a response and what follows it. -/
theorem recvResponse_of_sent (hr : Sendable r) (h : Awaits env r first) (hne : ∀ p ∈ rest, p ≠ [])
    (hstream : (first :: rest).flatten = r.dump ++ more) :
    ∃ s', recvResponse env { input := first :: rest } = .ok (some { headOf r with body := r.body }, s') := by
  have htext : r.dump = headText r ++ r.body := r.dump_eq
  have hprefix : headText r <+: first := by
    have hsent : headText r <+: (first :: rest).flatten := by
      rw [hstream, htext, List.append_assoc]
      exact List.prefix_append ..
    have hfirst : first <+: (first :: rest).flatten := by
      rw [List.flatten_cons]
      exact List.prefix_append ..
    exact List.prefix_of_prefix_length_le hsent hfirst h.head
  obtain ⟨h', data', hloop, hdata, hchunked, hslice⟩ := recvLoop_sent rest hr h.error h.size hprefix h.fit
    (first :: rest).flatten.length
  have hlength := getContentLength_headOf hr hdata h.body h.cast
  have hbehind : slice data' 0 (first.length - (headText r).length) ++ Session.available { input := rest } =
      r.body ++ more := by
    obtain ⟨tail, rfl⟩ := hprefix
    rw [htext, List.flatten_cons, List.append_assoc, List.append_assoc] at hstream
    rw [hslice, List.drop_left, available_of_ne hne]
    exact List.append_cancel_left hstream
  have hrun : recvResponse env { input := first :: rest } =
      .ok (recvBody env.cast h' data' (first.length - (headText r).length) { input := rest }) := by
    rw [recvResponse, hloop]
    exact if_neg (by rw [hchunked]; exact Bool.false_ne_true)
  rw [hrun]
  have h31 := h.body
  by_cases hpos : 0 < r.body.length
  · have hassembled : Assembled (slice data' 0 (first.length - (headText r).length)) { input := rest }
        r.body.length (fun body => { h'.data with body }) (recvBody env.cast h' data'
          (first.length - (headText r).length) { input := rest }) :=
      recvBody_assembled hlength hpos (by omega) (by omega)
    obtain ⟨hresult, -⟩ := hassembled.whole (by rw [hbehind, List.length_append]; omega)
    rw [hbehind, List.take_left' rfl, hdata] at hresult
    exact ⟨_, congrArg Except.ok (Prod.ext hresult rfl)⟩
  · have hnil : r.body = [] := List.length_eq_zero_iff.1 (by omega)
    refine ⟨{ input := rest }, congrArg Except.ok ?_⟩
    unfold recvBody
    rw [hlength]
    simp only
    rw [if_neg fun h => hpos h.1, withBody, if_pos rfl, hdata, hnil]
    rfl

/-- A response that is sent comes back: whatever pieces its text arrives in, if the first brings all of the header and
fits the buffer, `recvResponse` returns the status, version and reason that were printed, the headers that a map holds
to which the printed lines have been assigned in their order, and the body, and takes nothing for the body that is not
of it. What is lost: the response counts as closed, and the cookies are header lines, the last of which is kept. -/
theorem recvResponse_sent (hr : Sendable r) (h : Awaits env r first) (hne : ∀ p ∈ rest, p ≠ [])
    (hstream : (first :: rest).flatten = r.dump ++ more) :
    (∃ s', recvResponse env { input := first :: rest } = .ok (some { headOf r with body := r.body }, s')) ∧
      ∀ key, (headOf r).headers.find key =
        (r.headerLines.filter fun x => folded x.1 = folded key).getLast?.map Prod.snd := by
  refine ⟨recvResponse_of_sent hr h hne hstream, fun key => ?_⟩
  have hempty : MapType.find key [] = none := rfl
  rw [headOf, MapType.find_assignAll (m := []) .nil, hempty, Option.or_none]

end Sent

section Examples

set_option maxRecDepth 100000

/-- A response with a header, a cookie and a body. -/
def answered : HttpResponse :=
  { headers := [(bytes "Connexion", bytes "a b")]
    cookies := [bytes "sid=1"]
    body := bytes "hi" }

theorem sendable_answered : Sendable answered :=
  { version := by decide
    websocket := rfl
    status := by decide
    reason := by decide
    headers := fun x hx => by
      obtain rfl := List.mem_singleton.1 hx
      refine ⟨by decide, by decide, by decide, by decide, fun c hc => ?_⟩
      cases hc
      rfl
    cookies := fun x hx => by
      obtain rfl := List.mem_singleton.1 hx
      refine ⟨by decide, by decide, by decide, by decide, fun c hc => ?_⟩
      cases hc
      rfl }

theorem recvResponse_sent_pieces : (∃ s', recvResponse { client with bufferSize := 128 }
      { input := [headText answered ++ bytes "h", bytes "i"] } =
        .ok (some { headOf answered with body := bytes "hi" }, s')) ∧
    ∀ key, (headOf answered).headers.find key =
      (answered.headerLines.filter fun x => folded x.1 = folded key).getLast?.map Prod.snd :=
  have hstream : [headText answered ++ bytes "h", bytes "i"].flatten = answered.dump ++ [] := by decide
  recvResponse_sent sendable_answered
    ⟨rfl, by decide, by decide, by decide, by decide, by decide⟩ (by decide) hstream

end Examples

end HttpConnection

end ServerFrame.Http
