/-
What of its memory a parser's results depend on. Two parsers over different memory are compared through the
same calls: the offset of the query is set before it is used, whatever the machine is in the middle of, and
the status of a response is never read; the error and `uri_relaxed` remain as they were.
-/
import ServerFrame.Lib.Calls
import ServerFrame.Lib.Precedence
import ServerFrame.Http.ResponseParser

namespace ServerFrame.Http

open Ragel Calls CLib

/-- What a parser shows after a call: the number of bytes parsed, `hasError()`, `isFinished()` and
`getData()`. -/
structure Shown (D : Type) where
  offset : Nat
  error : Bool
  finished : Bool
  data : D
deriving DecidableEq

/-! ## Requests -/

namespace HttpRequestParser

def shown (h : HttpRequestParser) (offset : Nat) : Shown HttpRequest := ⟨offset, h.hasError, h.isFinished, h.data⟩

/-- `execute(data, len)` as a call. -/
def call (input : (Nat → UInt8) × Nat) (h : HttpRequestParser) : Except Fault (HttpRequestParser × Shown HttpRequest) :=
  match h.execute input.1 input.2 with
  | .error f => .error f
  | .ok (h, _, offset) => .ok (h, h.shown offset)

/-- The two objects, once constructed, have no error and give the same results in every sequence of calls. -/
def Determined (o o' : HttpRequestParser) : Prop :=
  (o.new.hasError = false ∧ o'.new.hasError = false) ∧ o.new.shown 0 = o'.new.shown 0 ∧
    ∀ inputs, results call o.new inputs = results call o'.new inputs

def withQueryStart (h : HttpRequestParser) (q : Nat) : HttpRequestParser :=
  { h with parser := { h.parser with queryStart := q } }

/-- The parsers differ in the offset of the query at most. -/
def SameBut (h h' : HttpRequestParser) : Prop := ∃ q, h' = h.withQueryStart q

theorem mkString_same {buffer : Nat → UInt8} {start length : Nat} {f g : List UInt8 → HttpRequestParser}
    (h : ∀ s, SameBut (f s) (g s)) : Alike SameBut (do return f (← mkString buffer start length))
      (do return g (← mkString buffer start length)) :=
  (Alike.refl (R := Eq) (fun _ => rfl) _).bind fun s _ hs => .ok (hs ▸ h s)

theorem act_same {h h' : HttpRequestParser} (buffer : Nat → UInt8) (fpc : Nat) {a : Action} (hs : SameBut h h')
    (ha : a ≠ .queryString) : Alike SameBut (h.act buffer fpc a) (h'.act buffer fpc a) := by
  obtain ⟨q, rfl⟩ := hs
  cases a with
  | queryString => exact absurd rfl ha
  | mark | startField | writeField | startValue | requestUri | xml | json => exact .ok ⟨q, rfl⟩
  | startQuery => exact .ok ⟨fpc, rfl⟩
  | requestMethod =>
    refine .ok ⟨q, ?_⟩
    simp only [onRequestMethod, apply_ite (withQueryStart · q)]
    rfl
  | httpVersion =>
    refine .ok ⟨q, ?_⟩
    simp only [onRequestVersion, apply_ite (withQueryStart · q)]
    rfl
  | fragment | requestPath => exact mkString_same fun s => ⟨q, rfl⟩
  | writeValue =>
    refine Alike.ite Iff.rfl (fun _ => .ok ⟨q, rfl⟩) fun _ => ?_
    refine (Alike.refl (R := Eq) (fun _ => rfl) _).bind fun s _ hs => ?_
    subst hs
    exact mkString_same fun t => ⟨q, rfl⟩
  | done =>
    simp only [act, withQueryStart]
    refine Alike.ite Iff.rfl (fun _ => .ok ⟨q, ?_⟩) fun _ => .ok ⟨q, ?_⟩ <;> rw [withQueryStart]

/-- Actions that begin with the start of the query before they use it. -/
theorem acts_same {buffer : Nat → UInt8} {fpc : Nat} : ∀ {as : List Action} {h h' : HttpRequestParser}, SameBut h h' →
    (∀ pre post, as = pre ++ .queryString :: post → .startQuery ∈ pre) →
    (.startQuery ∈ as → ∀ pre post, as = pre ++ .done :: post → .startQuery ∈ pre) →
    Alike (fun x y => (x.1 = y.1 ∨ SameBut x.1 y.1 ∧ .startQuery ∉ as) ∧ x.2 = y.2) (h.acts buffer fpc as)
      (h'.acts buffer fpc as)
  | [], _, _, hs, _, _ => .ok ⟨.inr ⟨hs, List.not_mem_nil⟩, rfl⟩
  | a :: as, h, h', hs, hq, hd => by
    by_cases hstart : a = .startQuery
    · subst hstart
      obtain ⟨q, rfl⟩ := hs
      exact Alike.refl (fun _ => ⟨.inl rfl, rfl⟩) (acts buffer fpc (h.withQueryStart fpc) as)
    · have ha : a ≠ .queryString := fun ha => List.not_mem_nil (hq [] as (by rw [ha]; rfl))
      have hact := act_same buffer fpc hs ha
      rw [acts, acts]
      generalize h.act buffer fpc a = x at hact
      generalize h'.act buffer fpc a = y at hact
      cases hact with
      | error => exact .error
      | ok hs' =>
        refine Alike.ite Iff.rfl (fun hdone => .ok ⟨.inr ⟨hs', fun hmem => ?_⟩, rfl⟩) fun _ => ?_
        · exact List.not_mem_nil (hd hmem [] as (by rw [hdone]; rfl))
        · have htail : ∀ pre, .startQuery ∈ a :: pre → .startQuery ∈ pre := fun pre hmem =>
            (List.mem_cons.1 hmem).resolve_left (Ne.symm hstart)
          refine (acts_same hs' (fun pre post h => htail _ (hq (a :: pre) post (by rw [h]; rfl))) fun hmem pre post h =>
            htail _ (hd (List.mem_cons_of_mem _ hmem) (a :: pre) post (by rw [h]; rfl))).mono ?_
          exact fun x y hxy => ⟨hxy.1.imp_right fun h => ⟨h.1, fun hmem => h.2 (htail _ hmem)⟩, hxy.2⟩

/-- The parsers are the same, or their machine has not read the `?` of a query yet. -/
def Twins (cs : State Action) (h h' : HttpRequestParser) : Prop :=
  h = h' ∨ SameBut h h' ∧ cs.Guarded .startQuery .queryString

section Twins

variable (buffer : Nat → UInt8) {cs : State Action} {h h' : HttpRequestParser} {k : Nat}

theorem acts_twins (c : UInt8) (fpc : Nat) (hc : cs.ClosedBy .done k) (ht : Twins cs h h') :
    Alike (fun x y => Twins (cs.step c) x.1 y.1 ∧ x.2 = y.2) (h.acts buffer fpc (cs.acts c))
      (h'.acts buffer fpc (cs.acts c)) := by
  rcases ht with rfl | ⟨hs, hg⟩
  · exact Alike.refl (fun _ => ⟨.inl rfl, rfl⟩) _
  · refine (acts_same hs (fun _ _ h => hg.before h) fun hmem _ _ h => hc.before h hmem (by decide)).mono ?_
    exact fun x y hxy => ⟨hxy.1.imp_right fun h => ⟨h.1, hg.step h.2⟩, hxy.2⟩

theorem exec_twins : ∀ (n p : Nat) {cs : State Action} {h h' : HttpRequestParser}, cs.ClosedBy .done k →
    Twins cs h h' → Alike (fun x y => Twins x.2.1 x.1 y.1 ∧ x.2.1.ClosedBy .done k ∧ x.2 = y.2)
      (exec buffer n p cs h) (exec buffer n p cs h')
  | 0, p, cs, h, h', hc, ht => .ok ⟨ht, hc, rfl⟩
  | n + 1, p, cs, h, h', hc, ht => by
    rw [exec, exec]
    refine Alike.ite Iff.rfl (fun _ => .ok ⟨ht.imp_right fun h => ⟨h.1, fun e he => by cases he⟩,
      fun e he => (by cases he), rfl⟩) fun _ => ?_
    have hacts := acts_twins buffer (buffer p) p hc ht
    generalize h.acts buffer p (cs.acts (buffer p)) = x at hacts
    generalize h'.acts buffer p (cs.acts (buffer p)) = y at hacts
    cases hacts with
    | error => exact .error
    | @ok x y hxy =>
      obtain ⟨x, b⟩ := x
      obtain ⟨y, b'⟩ := y
      obtain ⟨hxy, rfl⟩ := hxy
      cases b with
      | true => exact .ok ⟨hxy, hc.step, rfl⟩
      | false => exact exec_twins n (p + 1) hc.step hxy

/-- The parsers between two calls. -/
def Paired (k : Nat) (h h' : HttpRequestParser) : Prop := Twins h.parser.cs h h' ∧ h.parser.cs.ClosedBy .done k

theorem parserExecute_paired (len off : Nat) (hp : Paired k h h') :
    Alike (fun x y => Paired k x.1 y.1 ∧ x.2 = y.2) (h.parserExecute buffer len off)
      (h'.parserExecute buffer len off) := by
  obtain ⟨ht, hc⟩ := hp
  have hcs : h'.parser.cs = h.parser.cs := by
    rcases ht with rfl | ⟨⟨q, rfl⟩, -⟩ <;> rfl
  have hreset : Twins h.parser.cs { h with parser := h.parser.reset } { h' with parser := h'.parser.reset } := by
    rcases ht with rfl | ⟨⟨q, rfl⟩, hg⟩
    · exact .inl rfl
    · exact .inr ⟨⟨q, rfl⟩, hg⟩
  rw [parserExecute, parserExecute, hcs]
  refine Alike.ite Iff.rfl (fun _ => .ok ⟨⟨ht, hc⟩, rfl⟩) fun _ => ?_
  refine Alike.ite Iff.rfl (fun _ => .error) fun _ => Alike.ite Iff.rfl (fun _ => .error) fun _ => ?_
  have hexec := exec_twins buffer (len - off) off hc hreset
  generalize exec buffer (len - off) off h.parser.cs { h with parser := h.parser.reset } = x at hexec
  generalize exec buffer (len - off) off h.parser.cs { h' with parser := h'.parser.reset } = y at hexec
  cases hexec with
  | error => exact .error
  | @ok x y hxy =>
    obtain ⟨x, cs, p⟩ := x
    obtain ⟨y, cs', p'⟩ := y
    obtain ⟨hxy, hcs, heq⟩ := hxy
    cases heq
    simp only
    -- a machine that has failed stays in no state at all
    have hstay : ∀ {P : State Action → Prop}, P [] → P cs → P (if x.parser.hasError then x.parser.cs else cs) := by
      intro P h0 h1
      split
      · rename_i herr
        rw [HttpParser.hasError, List.isEmpty_iff] at herr
        rwa [herr]
      · exact h1
    have hclosed := hstay (P := fun cs => cs.ClosedBy .done k) (fun e he => by cases he) hcs
    rcases hxy with rfl | ⟨⟨q, rfl⟩, hg⟩
    · exact Alike.ite Iff.rfl (fun _ => .ok ⟨⟨.inl rfl, hclosed⟩, rfl⟩) fun _ => .error
    · have hguarded := hstay (P := fun cs => cs.Guarded .startQuery .queryString) (fun e he => by cases he) hg
      exact Alike.ite Iff.rfl (fun _ => .ok ⟨⟨.inr ⟨⟨q, rfl⟩, hguarded⟩, hclosed⟩, rfl⟩) fun _ => .error

theorem call_paired (input : (Nat → UInt8) × Nat) (hp : Paired k h h') :
    Alike (fun x y => Paired k x.1 y.1 ∧ x.2 = y.2) (call input h) (call input h') := by
  have hexec := parserExecute_paired input.1 input.2 0 hp
  rw [call, call, execute, execute]
  generalize h.parserExecute input.1 input.2 0 = x at hexec
  generalize h'.parserExecute input.1 input.2 0 = y at hexec
  cases hexec with
  | error => exact .error
  | @ok x y hxy =>
    obtain ⟨x, n⟩ := x
    obtain ⟨y, n'⟩ := y
    obtain ⟨hxy, rfl⟩ := hxy
    refine .ok ⟨hxy, ?_⟩
    rcases hxy.1 with h | ⟨⟨q, h⟩, -⟩ <;> cases h <;> rfl

end Twins

set_option maxRecDepth 100000 in
theorem start_paired (relaxed : Bool) : (Grammar.main relaxed).start.Guarded .startQuery .queryString ∧
    ∃ k, (Grammar.main relaxed).start.ClosedBy .done k := by
  refine ⟨fun e he => ?_, _, fun e he => ⟨_, List.mem_singleton.1 he, ?_⟩⟩
  · cases List.mem_singleton.1 he
    cases relaxed <;> decide
  · cases relaxed <;> decide

theorem results_eq_of_relaxed (o o' : HttpRequestParser) (herror : o.error = o'.error)
    (hrelaxed : o.parser.uriRelaxed = o'.parser.uriRelaxed) (inputs : List ((Nat → UInt8) × Nat)) :
    results call o.new inputs = results call o'.new inputs := by
  obtain ⟨hg, k, hc⟩ := start_paired o.parser.uriRelaxed
  have hp : Paired k o.new o'.new := ⟨.inr ⟨⟨o'.parser.queryStart, ?_⟩, hg⟩, hc⟩
  · exact results_eq (fun input _ _ h => call_paired input h) hp
  rw [new, new, withQueryStart, HttpParser.init, HttpParser.init, herror, hrelaxed]

/-- An object with nothing in its memory but `uri_relaxed`. -/
def blank (relaxed : Bool) : HttpRequestParser := ⟨⟨[], 0, 0, 0, 0, 0, 0, 0, false, false, relaxed⟩, {}, 0⟩

/-- The start of a request whose path has a brace. -/
def braced : (Nat → UInt8) × Nat := (cstr (bytes "GET /\x7b"), 6)

set_option maxRecDepth 100000 in
theorem braced_told_apart :
    results call (blank true).new [braced] ≠ results call (blank false).new [braced] := by decide

theorem new_hasError {o : HttpRequestParser} : o.new.hasError = false ↔ o.error = 0 := by
  have : o.new.parser.hasError = false := rfl
  rw [hasError, this, Bool.or_false, bne_eq_false_iff_eq]
  rfl

theorem determined_iff {o o' : HttpRequestParser} : Determined o o' ↔
    (o.error = 0 ∧ o'.error = 0) ∧ o.parser.uriRelaxed = o'.parser.uriRelaxed := by
  rw [Determined, new_hasError, new_hasError]
  refine and_congr_right fun ⟨h, h'⟩ =>
    ⟨fun ⟨_, hall⟩ => ?_, fun hr => ⟨?_, results_eq_of_relaxed o o' (h.trans h'.symm) hr⟩⟩
  · by_contra hne
    have hb := results_eq_of_relaxed o (blank o.parser.uriRelaxed) h rfl [braced]
    have hb' := results_eq_of_relaxed o' (blank o'.parser.uriRelaxed) h' rfl [braced]
    have heq := hb.symm.trans ((hall [braced]).trans hb')
    generalize o.parser.uriRelaxed = r at hne heq
    generalize o'.parser.uriRelaxed = r' at hne heq
    cases r <;> cases r'
    · exact hne rfl
    · exact braced_told_apart heq.symm
    · exact braced_told_apart heq
    · exact hne rfl
  · rw [shown, shown, new_hasError.2 h, new_hasError.2 h']
    simp only [isFinished, HttpParser.isFinished, new, HttpParser.init, hr]

end HttpRequestParser

/-! ## Responses -/

namespace HttpResponseParser

def shown (h : HttpResponseParser) (offset : Nat) : Shown HttpResponse := ⟨offset, h.hasError, h.isFinished, h.data⟩

/-- `execute(data, len, chunck)` as a call. -/
def call (input : (Nat → UInt8) × Nat × Bool) (h : HttpResponseParser) :
    Except ClientFault (HttpResponseParser × Shown HttpResponse) :=
  match h.execute input.1 input.2.1 input.2.2 with
  | .error f => .error f
  | .ok (h, _, offset) => .ok (h, h.shown offset)

/-- The two objects, once constructed, have no error and give the same results in every sequence of calls. -/
def Determined (o o' : HttpResponseParser) : Prop :=
  (o.new.hasError = false ∧ o'.new.hasError = false) ∧ o.new.shown 0 = o'.new.shown 0 ∧
    ∀ inputs, results call o.new inputs = results call o'.new inputs

def withStatus (h : HttpResponseParser) (status : Int) : HttpResponseParser :=
  { h with parser := { h.parser with status } }

/-- The parsers differ in the status the machine has read at most. -/
def SameBut (h h' : HttpResponseParser) : Prop := ∃ status, h' = h.withStatus status

section SameBut

variable (buffer : Nat → UInt8) (pe : Nat) {h h' : HttpResponseParser}

theorem mkString_same {start length : Nat} {f g : List UInt8 → HttpResponseParser} (h : ∀ s, SameBut (f s) (g s)) :
    Alike SameBut (do return f (← mkString buffer start length)) (do return g (← mkString buffer start length)) :=
  (Alike.refl (R := Eq) (fun _ => rfl) _).bind fun s _ hs => .ok (hs ▸ h s)

theorem act_same (fpc : Nat) (a : ClientAction) (hs : SameBut h h') :
    Alike SameBut (h.act buffer pe fpc a) (h'.act buffer pe fpc a) := by
  obtain ⟨status, rfl⟩ := hs
  cases a with
  | mark | startField | writeField | startValue | writeContentLen | writeConnectionClose | transChunked | done =>
    exact .ok ⟨status, rfl⟩
  | chunkSize =>
    rw [act, act, show (h.withStatus status).parser.mark = h.parser.mark from rfl]
    generalize strtol 16 buffer h.parser.mark pe = size
    exact .ok ⟨status, rfl⟩
  | statusCode =>
    simp only [act, withStatus, onResponseStatus]
    exact Alike.refl (fun h => ⟨h.parser.status, rfl⟩) _
  | reasonPhrase => exact mkString_same buffer fun s => ⟨status, rfl⟩
  | httpVersion =>
    refine .ok ⟨status, ?_⟩
    simp only [onResponseVersion, apply_ite (withStatus · status)]
    rfl
  | writeValue =>
    refine Alike.ite Iff.rfl (fun _ => .ok ⟨status, rfl⟩) fun _ => ?_
    refine (Alike.refl (R := Eq) (fun _ => rfl) _).bind fun s _ hs => ?_
    subst hs
    exact mkString_same buffer fun t => ⟨status, rfl⟩

theorem acts_same (fpc : Nat) : ∀ (as : List ClientAction) {h h' : HttpResponseParser}, SameBut h h' →
    Alike (fun x y => SameBut x.1 y.1 ∧ x.2 = y.2) (h.acts buffer pe fpc as) (h'.acts buffer pe fpc as)
  | [], _, _, hs => .ok ⟨hs, rfl⟩
  | a :: as, h, h', hs => by
    have hact := act_same buffer pe fpc a hs
    rw [acts, acts]
    generalize h.act buffer pe fpc a = x at hact
    generalize h'.act buffer pe fpc a = y at hact
    cases hact with
    | error => exact .error
    | ok hs' => exact Alike.ite Iff.rfl (fun _ => .ok ⟨hs', rfl⟩) fun _ => acts_same fpc as hs'

theorem exec_same : ∀ (n p : Nat) (cs : State ClientAction) {h h' : HttpResponseParser}, SameBut h h' →
    Alike (fun x y => SameBut x.1 y.1 ∧ x.2 = y.2) (exec buffer pe n p cs h) (exec buffer pe n p cs h')
  | 0, p, cs, h, h', hs => .ok ⟨hs, rfl⟩
  | n + 1, p, cs, h, h', hs => by
    rw [exec, exec]
    refine Alike.ite Iff.rfl (fun _ => .ok ⟨hs, rfl⟩) fun _ => ?_
    have hacts := acts_same buffer pe p (cs.acts (buffer p)) hs
    generalize h.acts buffer pe p (cs.acts (buffer p)) = x at hacts
    generalize h'.acts buffer pe p (cs.acts (buffer p)) = y at hacts
    cases hacts with
    | error => exact .error
    | @ok x y hxy =>
      obtain ⟨x, b⟩ := x
      obtain ⟨y, b'⟩ := y
      obtain ⟨hxy, rfl⟩ := hxy
      cases b with
      | true => exact .ok ⟨hxy, rfl⟩
      | false => exact exec_same n (p + 1) _ hxy

theorem parserExecute_same (off : Nat) (hs : SameBut h h') :
    Alike (fun x y => SameBut x.1 y.1 ∧ x.2 = y.2) (h.parserExecute buffer pe off)
      (h'.parserExecute buffer pe off) := by
  obtain ⟨status, rfl⟩ := hs
  rw [parserExecute, parserExecute]
  refine Alike.ite Iff.rfl (fun _ => .error) fun _ => Alike.ite Iff.rfl (fun _ => .error) fun _ =>
    Alike.ite Iff.rfl (fun _ => .error) fun _ => ?_
  have hreset : SameBut { h with parser := h.parser.reset }
      { h.withStatus status with parser := (h.withStatus status).parser.reset } := ⟨status, rfl⟩
  have hexec := exec_same buffer pe (pe - off) off h.parser.cs hreset
  rw [show (h.withStatus status).parser.cs = h.parser.cs from rfl]
  generalize exec buffer pe (pe - off) off h.parser.cs { h with parser := h.parser.reset } = x at hexec
  generalize exec buffer pe (pe - off) off h.parser.cs
    { h.withStatus status with parser := (h.withStatus status).parser.reset } = y at hexec
  cases hexec with
  | error => exact .error
  | @ok x y hxy =>
    obtain ⟨x, cs, p⟩ := x
    obtain ⟨y, cs', p'⟩ := y
    obtain ⟨⟨status', rfl⟩, heq⟩ := hxy
    cases heq
    exact Alike.ite Iff.rfl (fun _ => .ok ⟨⟨status', rfl⟩, rfl⟩) fun _ => .error

theorem call_same (input : (Nat → UInt8) × Nat × Bool) (hs : SameBut h h') :
    Alike (fun x y => SameBut x.1 y.1 ∧ x.2 = y.2) (call input h) (call input h') := by
  obtain ⟨data, n, chunck⟩ := input
  have hinit : SameBut (if chunck then { h with parser := h.parser.init } else h)
      (if chunck then { h' with parser := h'.parser.init } else h') := by
    obtain ⟨status, rfl⟩ := hs
    cases chunck <;> exact ⟨status, rfl⟩
  have hexec := parserExecute_same data n 0 hinit
  rw [call, call, execute, execute]
  simp only
  generalize parserExecute data n (if chunck then { h with parser := h.parser.init } else h) 0 = x at hexec
  generalize parserExecute data n (if chunck then { h' with parser := h'.parser.init } else h') 0 = y at hexec
  cases hexec with
  | error => exact .error
  | @ok x y hxy =>
    obtain ⟨x, n⟩ := x
    obtain ⟨y, n'⟩ := y
    obtain ⟨⟨status, rfl⟩, rfl⟩ := hxy
    cases n with
    | none => exact .error
    | some n => exact .ok ⟨⟨status, rfl⟩, rfl⟩

end SameBut

theorem new_hasError {o : HttpResponseParser} : o.new.hasError = false ↔ o.error = 0 := by
  have : o.new.parser.hasError = false := rfl
  rw [hasError, this, Bool.or_false, bne_eq_false_iff_eq]
  rfl

theorem determined_iff {o o' : HttpResponseParser} : Determined o o' ↔ o.error = 0 ∧ o'.error = 0 := by
  rw [Determined, new_hasError, new_hasError]
  refine and_iff_left_of_imp fun ⟨h, h'⟩ => ?_
  have hs : SameBut o.new o'.new := ⟨o'.parser.status, by
    rw [new, new, withStatus, ClientParser.init, ClientParser.init, h, h']⟩
  refine ⟨?_, fun inputs => results_eq (fun input _ _ h => call_same input h) hs⟩
  rw [shown, shown, new_hasError.2 h, new_hasError.2 h']
  rfl

end HttpResponseParser

/-! ## Both parsers -/

/-- Two parsers of requests depend on their input only exactly when neither has found an error in its memory
and both have found the same `uri_relaxed`; two parsers of responses exactly when neither has found an error. -/
theorem determined_by_input (o o' : HttpRequestParser) (r r' : HttpResponseParser) :
    (HttpRequestParser.Determined o o' ↔
      (o.error = 0 ∧ o'.error = 0) ∧ o.parser.uriRelaxed = o'.parser.uriRelaxed) ∧
    (HttpResponseParser.Determined r r' ↔ r.error = 0 ∧ r'.error = 0) :=
  ⟨HttpRequestParser.determined_iff, HttpResponseParser.determined_iff⟩

set_option maxRecDepth 100000 in
/-- Over zeros but for one `uri_relaxed`, or one `m_error`, the objects are not alike. -/
theorem memory_shows :
    ¬ (∀ o o', HttpRequestParser.Determined o o') ∧ ¬ (∀ r r', HttpResponseParser.Determined r r') := by
  constructor
  · intro h
    exact HttpRequestParser.braced_told_apart
      ((h (HttpRequestParser.blank true) (HttpRequestParser.blank false)).2.2 [HttpRequestParser.braced])
  · intro h
    have hfresh := (h ⟨⟨[], 0, 0, 0, false, false, false, 0, 0, 0, 0⟩, {}, 1⟩
      ⟨⟨[], 0, 0, 0, false, false, false, 0, 0, 0, 0⟩, {}, 0⟩).1.1
    revert hfresh
    decide

end ServerFrame.Http
