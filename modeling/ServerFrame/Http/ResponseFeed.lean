/-
The parser of responses on a text whose bytes are known. The states the machine goes through on the lines of a header
are told from the first byte that is not the next one of a name the grammar has rules for.
-/
import ServerFrame.Http.Chunked
import ServerFrame.Http.RequestLine
import ServerFrame.Http.HeaderStore
import ServerFrame.Lib.Events

namespace ServerFrame.Http

open Ragel

namespace HttpResponseParser

section Runs

variable {buffer : Nat → UInt8} {pe p n m : Nat} {cs cs' cs'' : State ClientAction}
  {h h' h'' : HttpResponseParser}

/-! ## Stretches of a text -/

/-- Actions, each at its place. -/
def perform (buffer : Nat → UInt8) (pe : Nat) : HttpResponseParser → List (Nat × ClientAction) →
    Except Fault HttpResponseParser
  | h, [] => .ok h
  | h, (fpc, a) :: ev =>
    match h.act buffer pe fpc a with
    | .error f => .error f
    | .ok h => perform buffer pe h ev

theorem perform_append (ev' : List (Nat × ClientAction)) : ∀ {ev : List (Nat × ClientAction)} {h : HttpResponseParser},
    perform buffer pe h ev = .ok h' → perform buffer pe h (ev ++ ev') = perform buffer pe h' ev'
  | [], h, hrun => by
    cases hrun
    rfl
  | (fpc, a) :: ev, h, hrun => by
    rw [perform] at hrun
    rw [List.cons_append, perform]
    cases hact : h.act buffer pe fpc a with
    | error f =>
      rw [hact] at hrun
      cases hrun
    | ok h1 =>
      rw [hact] at hrun
      exact perform_append ev' hrun

theorem exists_of_perform_append {ev ev' : List (Nat × ClientAction)} {h : HttpResponseParser}
    (hrun : perform buffer pe h (ev ++ ev') = .ok h') :
    ∃ h1, perform buffer pe h ev = .ok h1 ∧ perform buffer pe h1 ev' = .ok h' := by
  induction ev generalizing h with
  | nil => exact ⟨h, rfl, hrun⟩
  | cons x ev ih =>
    rw [List.cons_append, perform] at hrun
    rw [perform]
    cases hact : h.act buffer pe x.1 x.2 with
    | error f =>
      rw [hact] at hrun
      cases hrun
    | ok h1 =>
      rw [hact] at hrun
      exact ih hrun

theorem acts_of_perform {as : List ClientAction} (hd : .done ∉ as)
    (hrun : perform buffer pe h (as.map (Prod.mk p)) = .ok h') : h.acts buffer pe p as = .ok (h', false) := by
  induction as generalizing h with
  | nil =>
    cases hrun
    rfl
  | cons a as ih =>
    rw [List.mem_cons, not_or] at hd
    rw [List.map_cons, perform] at hrun
    rw [acts]
    cases hact : h.act buffer pe p a with
    | error f =>
      rw [hact] at hrun
      cases hrun
    | ok h1 =>
      rw [hact] at hrun
      simp only [if_neg (Ne.symm hd.1)]
      exact ih hd.2 hrun

/-- The machine takes the `n` bytes from `p` on and goes on behind them. -/
def Feeds (buffer : Nat → UInt8) (pe p n : Nat) (cs : State ClientAction) (h : HttpResponseParser)
    (cs' : State ClientAction) (h' : HttpResponseParser) : Prop :=
  ∀ m, exec buffer pe (n + m) p cs h = exec buffer pe m (p + n) cs' h'

theorem Feeds.none : Feeds buffer pe p 0 cs h cs h := fun m => by rw [Nat.zero_add, Nat.add_zero]

theorem Feeds.trans (h1 : Feeds buffer pe p n cs h cs' h') (h2 : Feeds buffer pe (p + n) m cs' h' cs'' h'') :
    Feeds buffer pe p (n + m) cs h cs'' h'' := by
  intro k
  rw [Nat.add_assoc, h1, h2, Nat.add_assoc]

/-- One byte. -/
theorem Feeds.byte {c : UInt8} {as : List ClientAction} (hp : buffer p = c) (hs : cs.step c = cs') (hne : cs' ≠ [])
    (ha : cs.acts c = as) (hd : .done ∉ as) (hact : perform buffer pe h (as.map (Prod.mk p)) = .ok h') :
    Feeds buffer pe p 1 cs h cs' h' := by
  intro m
  subst hp hs
  rw [Nat.add_comm 1 m]
  exact exec_step hne ha (acts_of_perform hd hact)

/-- The state after a text and what the machine performs on it, from the place `i` on. -/
def walk (i : Nat) (cs : State ClientAction) : List UInt8 → Option (State ClientAction × List (Nat × ClientAction))
  | [] => some (cs, [])
  | c :: w =>
    if cs.step c = [] ∨ .done ∈ cs.acts c then none
    else (walk (i + 1) (cs.step c) w).map fun r => (r.1, (cs.acts c).map (Prod.mk i) ++ r.2)

theorem Feeds.walk {w : List UInt8} {i : Nat} {ev : List (Nat × ClientAction)}
    (hw : HttpResponseParser.walk i cs w = some (cs', ev)) (hp : Spells buffer (p + i) w)
    (hrun : perform buffer pe h (ev.map fun x => (p + x.1, x.2)) = .ok h') :
    Feeds buffer pe (p + i) w.length cs h cs' h' := by
  induction w generalizing cs h i ev with
  | nil =>
    cases hw
    cases hrun
    exact .none
  | cons c w ih =>
    rw [HttpResponseParser.walk] at hw
    split at hw
    · cases hw
    · rename_i hgo
      rw [not_or] at hgo
      obtain ⟨⟨cs1, ev'⟩, hrest, heq⟩ := Option.map_eq_some_iff.1 hw
      cases heq
      rw [List.map_append] at hrun
      obtain ⟨h1, hrun1, hrun⟩ := exists_of_perform_append hrun
      rw [List.map_map] at hrun1
      have hfirst : Feeds buffer pe (p + i) 1 cs h (cs.step c) h1 := .byte hp.1 rfl hgo.1 rfl hgo.2 hrun1
      rw [List.length_cons, Nat.add_comm w.length]
      exact hfirst.trans (ih hrest hp.2 hrun)

/-- A text on which nothing is performed. -/
theorem Feeds.quiet {w : List UInt8} (hw : ∀ c ∈ w, cs.step c = cs ∧ cs.acts c = []) (hne : cs ≠ [])
    (hp : Spells buffer p w) : Feeds buffer pe p w.length cs h cs h := by
  induction w generalizing p with
  | nil => exact .none
  | cons c w ih =>
    obtain ⟨hstep, hacts⟩ := hw c (List.mem_cons_self ..)
    have hfirst : Feeds buffer pe p 1 cs h cs h := .byte hp.1 hstep hne hacts (by simp) rfl
    rw [List.length_cons, Nat.add_comm]
    exact hfirst.trans (ih (fun d hd => hw d (List.mem_cons_of_mem _ hd)) hp.2)

/-! ## Offsets -/

/-- The registers hold offsets of bytes before `p`. -/
structure Within (p : Nat) (h : HttpResponseParser) : Prop where
  mark : h.parser.mark ≤ p - 1
  fieldStart : h.parser.fieldStart ≤ p - 1
  fieldLen : h.parser.fieldLen ≤ p
  bodyStart : h.parser.bodyStart ≤ p

theorem Within.mono (hw : Within p h) (hle : p ≤ n) : Within n h :=
  ⟨hw.mark.trans (by omega), hw.fieldStart.trans (by omega), hw.fieldLen.trans hle, hw.bodyStart.trans hle⟩

theorem Within.of_registers (hw : Within p h) (hp : h'.parser = h.parser) : Within p h' :=
  ⟨hp ▸ hw.mark, hp ▸ hw.fieldStart, hp ▸ hw.fieldLen, hp ▸ hw.bodyStart⟩

theorem act_within {a : ClientAction} (hw : Within (p + 1) h) (ha : h.act buffer pe p a = .ok h') :
    Within (p + 1) h' := by
  cases a with
  | mark | startValue =>
    cases ha
    exact { hw with mark := le_refl _ }
  | startField =>
    cases ha
    exact { hw with fieldStart := le_refl _ }
  | writeField =>
    cases ha
    have hstart : h.parser.fieldStart ≤ p := hw.fieldStart
    have hlen : len h.parser.fieldStart p ≤ p + 1 := by
      rw [len_of_le hstart]
      omega
    exact { hw with fieldLen := hlen }
  | writeContentLen | writeConnectionClose | statusCode | chunkSize | transChunked =>
    cases ha
    exact { hw with }
  | done =>
    cases ha
    exact { hw with bodyStart := le_refl _ }
  | writeValue =>
    rw [act, onResponseHttpField] at ha
    split at ha
    · cases ha
      exact hw
    · obtain ⟨key, -, ha⟩ := Except.bind_eq_ok ha
      obtain ⟨val, -, ha⟩ := Except.bind_eq_ok ha
      cases ha
      exact hw.of_registers rfl
  | reasonPhrase =>
    obtain ⟨reason, -, ha⟩ := Except.bind_eq_ok ha
    cases ha
    exact hw.of_registers rfl
  | httpVersion =>
    rw [act, Except.ok.injEq] at ha
    refine hw.of_registers ?_
    rw [← ha, onResponseVersion]
    simp only
    split
    · rfl
    · split <;> rfl

theorem acts_within {as : List ClientAction} {b : Bool} (hw : Within (p + 1) h)
    (ha : h.acts buffer pe p as = .ok (h', b)) : Within (p + 1) h' := by
  induction as generalizing h with
  | nil =>
    cases ha
    exact hw
  | cons a as ih =>
    rw [acts] at ha
    split at ha
    · cases ha
    · rename_i hact
      split at ha
      · cases ha
        exact act_within hw hact
      · exact ih (act_within hw hact) ha

theorem exec_within {p' : Nat} (hw : Within p h) (hrun : exec buffer pe n p cs h = .ok (h', cs', p')) :
    p' ≤ p + n ∧ Within p' h' := by
  induction n generalizing p cs h with
  | zero =>
    cases hrun
    exact ⟨le_refl _, hw⟩
  | succ n ih =>
    rw [exec] at hrun
    split at hrun
    · cases hrun
      exact ⟨Nat.le_add_right .., hw⟩
    · split at hrun
      · cases hrun
      · rename_i hacts
        cases hrun
        exact ⟨by omega, acts_within (hw.mono (Nat.le_succ p)) hacts⟩
      · rename_i hacts
        obtain ⟨hle, hw'⟩ := ih (acts_within (hw.mono (Nat.le_succ p)) hacts) hrun
        exact ⟨by omega, hw'⟩

/-- A call of the parser from its start: no `assert` fails, and every offset is inside. -/
theorem execute_of_exec {len p' : Nat} (hpos : 0 < len) (h31 : len < 2 ^ 31) (hnul : buffer len = 0)
    (hbody : h.parser.bodyStart = 0)
    (hrun : exec buffer len len 0 h.parser.cs { h with parser := h.parser.reset } = .ok (h', cs', p')) :
    h.execute buffer len false = .ok ({ h' with parser := { h'.parser with cs := cs', nread := p' } },
      HttpRequestParser.memmove buffer p' (len - p'), p') := by
  have hstart : Within 0 { h with parser := h.parser.reset } :=
    ⟨le_refl 0, le_refl 0, le_refl 0, by rw [ClientParser.reset, hbody]⟩
  obtain ⟨hle, hmark, hfield, hlen, hbody'⟩ := exec_within hstart hrun
  rw [Nat.zero_add] at hle
  have hmark' : h'.parser.mark < len := by omega
  have hfield' : h'.parser.fieldStart < len := by omega
  have hwidth : (len : Int) - (0 : Nat) = toInt len - toInt 0 := by
    rw [toInt_of_lt h31, toInt_of_lt (by decide)]
  have hparse : h.parserExecute buffer len 0 =
      .ok ({ h' with parser := { h'.parser with cs := cs', nread := p' } }, some p') := by
    rw [parserExecute, if_neg (not_not_intro (Nat.zero_le len)), if_neg (not_not_intro hnul),
      if_neg (not_not_intro hwidth), Nat.sub_zero, hrun]
    refine (if_pos ⟨hle, hbody'.trans hle⟩).trans (congrArg (fun r => Except.ok (_, r)) ?_)
    exact if_pos ⟨hmark', hlen.trans hle, hfield'⟩
  rw [execute, if_neg Bool.false_ne_true, hparse]

end Runs

end HttpResponseParser

end ServerFrame.Http
