/-
The run of the request machine over a text, apart from what its actions do: which actions it performs
at which bytes and where it halts. From it, the bytes that have to be in the buffer together: a
register (`mark`, `field_start`, `field_len`, `query_start`) is reset or means nothing once the bytes
it was set for have been given up, so that the place where it was set, and every byte that is looked
at through it, have to come with one read.
-/
import ServerFrame.Http.Session
import ServerFrame.Lib.Fallible

namespace ServerFrame.Http

open Ragel

/-! ## The machine over a text -/

/-- The actions of a transition up to the `fbreak` of `done`. -/
def fired : List Action → List Action
  | [] => []
  | a :: as => if a = .done then [a] else a :: fired as

theorem mem_of_mem_fired {a : Action} : ∀ {as : List Action}, a ∈ fired as → a ∈ as
  | [], h => h
  | x :: as, h => by
    rw [fired] at h
    split at h
    · exact List.mem_cons.2 (.inl (List.mem_singleton.1 h))
    · exact List.mem_cons.2 ((List.mem_cons.1 h).imp id mem_of_mem_fired)

section Run

variable (buffer : Nat → UInt8)

/-- The actions performed on the `n` bytes from `p` on, each with its place. -/
def events : (n p : Nat) → State Action → List (Nat × Action)
  | 0, _, _ => []
  | n + 1, p, cs =>
    if (cs.step (buffer p)).isEmpty then []
    else
      (fired (cs.acts (buffer p))).map (Prod.mk p) ++
        if .done ∈ cs.acts (buffer p) then [] else events n (p + 1) (cs.step (buffer p))

/-- The state and the place the machine is in after these bytes. -/
def halt : (n p : Nat) → State Action → State Action × Nat
  | 0, p, cs => (cs, p)
  | n + 1, p, cs =>
    if (cs.step (buffer p)).isEmpty then ([], p)
    else if .done ∈ cs.acts (buffer p) then (cs.step (buffer p), p + 1)
    else halt n (p + 1) (cs.step (buffer p))

/-- The effect of a sequence of actions. -/
def perform : HttpRequestParser → List (Nat × Action) → Except Fault HttpRequestParser
  | h, [] => .ok h
  | h, (fpc, a) :: ev =>
    match h.act buffer fpc a with
    | .error f => .error f
    | .ok h => perform h ev

variable {buffer}

theorem perform_append {ev' : List (Nat × Action)} : ∀ {ev : List (Nat × Action)} {h : HttpRequestParser},
    perform buffer h (ev ++ ev') = (perform buffer h ev).bind fun h' => perform buffer h' ev'
  | [], _ => rfl
  | (fpc, a) :: ev, h => by
    rw [List.cons_append, perform, perform]
    cases h.act buffer fpc a with
    | error f => rfl
    | ok h' => exact perform_append

theorem acts_eq_perform {fpc : Nat} : ∀ {as : List Action} {h : HttpRequestParser},
    h.acts buffer fpc as = (perform buffer h ((fired as).map (Prod.mk fpc))).map (·, decide (.done ∈ as))
  | [], h => rfl
  | a :: as, h => by
    rw [HttpRequestParser.acts, fired]
    by_cases hd : a = .done
    · subst hd
      simp only [if_true, List.map_cons, List.map_nil, perform]
      cases h.act buffer fpc .done <;> simp [Except.map]
    · simp only [if_neg hd, List.map_cons, perform]
      cases h.act buffer fpc a with
      | error f => rfl
      | ok h' =>
        simp only
        rw [acts_eq_perform]
        simp [Ne.symm hd]

/-- The source's loop performs the events and halts where the machine does. -/
theorem exec_eq_perform : ∀ {n p : Nat} {cs : State Action} {h : HttpRequestParser},
    HttpRequestParser.exec buffer n p cs h =
      (perform buffer h (events buffer n p cs)).map (·, halt buffer n p cs)
  | 0, p, cs, h => rfl
  | n + 1, p, cs, h => by
    rw [HttpRequestParser.exec, events, halt]
    split
    · rfl
    · rw [acts_eq_perform, perform_append]
      cases perform buffer h ((fired (cs.acts (buffer p))).map (Prod.mk p)) with
      | error f => rfl
      | ok h' =>
        by_cases hd : .done ∈ cs.acts (buffer p)
        · simp [hd, Except.map, Except.bind, perform]
        · simp only [hd, Except.map, Except.bind, decide_false, if_false]
          rw [exec_eq_perform]
          rfl

/-! ### Reads in sequence -/

/-- The machine would take another byte: it has neither failed nor finished. -/
def Running (cs : State Action) : Prop := cs ≠ [] ∧ cs.final = false

instance (cs : State Action) : Decidable (Running cs) := inferInstanceAs (Decidable (_ ∧ _))

theorem running_step {k : Nat} {cs : State Action} {c : UInt8} (hc : cs.Closes .done k)
    (he : (cs.step c).isEmpty = false) (hd : .done ∉ cs.acts c) : Running (cs.step c) := by
  refine ⟨fun h => ?_, ?_⟩
  · rw [h] at he
    cases he
  · rw [hc.mem_acts_iff] at hd
    simpa using hd

/-- What more bytes do to a machine that is still running after `n` of them. -/
theorem run_add {k m : Nat} : ∀ {n p : Nat} {cs : State Action}, cs.Closes .done k →
    Running (halt buffer n p cs).1 →
    (halt buffer n p cs).2 = p + n ∧ (halt buffer n p cs).1.Closes .done k ∧
      (∀ x ∈ events buffer n p cs, x.2 ≠ .done) ∧
      events buffer (n + m) p cs = events buffer n p cs ++ events buffer m (p + n) (halt buffer n p cs).1 ∧
      halt buffer (n + m) p cs = halt buffer m (p + n) (halt buffer n p cs).1
  | 0, p, cs, hc, _ => by simp [halt, events, hc]
  | n + 1, p, cs, hc, hr => by
    rw [halt] at hr
    rw [show n + 1 + m = n + m + 1 by omega, halt, halt, events, events]
    split at hr
    · exact absurd rfl hr.1
    · rename_i he
      split at hr
      · rename_i hd
        rw [hc.mem_acts_iff] at hd
        rw [hr.2] at hd
        cases hd
      · rename_i hd
        obtain ⟨h1, h2, h3, h4, h5⟩ := run_add hc.step hr
        simp only [if_neg he, if_neg hd]
        refine ⟨by rw [h1]; omega, h2, ?_, ?_, ?_⟩
        · intro x hx
          rcases List.mem_append.1 hx with hx | hx
          · obtain ⟨a, ha, rfl⟩ := List.mem_map.1 hx
            exact fun hdone => hd (mem_of_mem_fired (hdone ▸ ha))
          · exact h3 x hx
        · rw [h4, List.append_assoc, show p + 1 + n = p + (n + 1) by omega]
        · rw [h5, show p + 1 + n = p + (n + 1) by omega]

/-- Once the machine has stopped, more bytes do nothing. -/
theorem run_add_of_stopped {k m : Nat} : ∀ {n p : Nat} {cs : State Action}, cs.Closes .done k → Running cs →
    ¬ Running (halt buffer n p cs).1 →
    events buffer (n + m) p cs = events buffer n p cs ∧ halt buffer (n + m) p cs = halt buffer n p cs
  | 0, p, cs, _, hrun, hr => absurd hrun hr
  | n + 1, p, cs, hc, hrun, hr => by
    rw [halt] at hr
    rw [show n + 1 + m = n + m + 1 by omega, halt, halt, events, events]
    split
    · exact ⟨rfl, rfl⟩
    · rename_i he
      split
      · exact ⟨rfl, rfl⟩
      · rename_i hd
        rw [if_neg he, if_neg hd] at hr
        obtain ⟨h1, h2⟩ := run_add_of_stopped hc.step (running_step hc (by simpa using he) hd) hr
        exact ⟨by rw [h1], h2⟩

/-! ### Places -/

theorem mem_events : ∀ {n p : Nat} {cs : State Action}, ∀ x ∈ events buffer n p cs, p ≤ x.1 ∧ x.1 < p + n
  | 0, _, _, x, hx => by cases hx
  | n + 1, p, cs, x, hx => by
    rw [events] at hx
    split at hx
    · cases hx
    · rcases List.mem_append.1 hx with hx | hx
      · obtain ⟨a, -, rfl⟩ := List.mem_map.1 hx
        omega
      · split at hx
        · cases hx
        · have := mem_events x hx
          omega

theorem events_sorted : ∀ {n p : Nat} {cs : State Action}, (events buffer n p cs).Pairwise fun x y => x.1 ≤ y.1
  | 0, _, _ => .nil
  | n + 1, p, cs => by
    rw [events]
    split
    · exact .nil
    · refine List.pairwise_append.2 ⟨?_, ?_, ?_⟩
      · exact List.pairwise_map.2 (List.pairwise_of_forall fun _ _ => le_refl p)
      · split
        · exact .nil
        · exact events_sorted
      · intro x hx y hy
        obtain ⟨a, -, rfl⟩ := List.mem_map.1 hx
        split at hy
        · cases hy
        · have := mem_events y hy
          omega

theorem halt_le : ∀ {n p : Nat} {cs : State Action}, (halt buffer n p cs).2 ≤ p + n
  | 0, p, cs => le_refl _
  | n + 1, p, cs => by
    rw [halt]
    split
    · exact Nat.le_add_right ..
    · split
      · exact Nat.add_le_add_left (by omega) p
      · have : (halt buffer n (p + 1) (cs.step (buffer p))).2 ≤ p + 1 + n := halt_le
        omega

/-- The events of a text that starts `b` bytes further on. -/
def shift (b : Nat) (ev : List (Nat × Action)) : List (Nat × Action) := ev.map fun x => (b + x.1, x.2)

/-- The machine sees bytes only, not where they stand. -/
theorem run_shift {stream : Nat → UInt8} {b : Nat} :
    ∀ {n p : Nat} {cs : State Action}, (∀ i, p ≤ i → i < p + n → buffer i = stream (b + i)) →
    events stream n (b + p) cs = shift b (events buffer n p cs) ∧
      halt stream n (b + p) cs = ((halt buffer n p cs).1, b + (halt buffer n p cs).2)
  | 0, _, _, _ => ⟨rfl, rfl⟩
  | n + 1, p, cs, h => by
    have hp := h p (le_refl p) (by omega)
    have htail : ∀ i, p + 1 ≤ i → i < p + 1 + n → buffer i = stream (b + i) := fun i hi hn => h i (by omega) (by omega)
    rw [events, events, halt, halt, ← hp]
    split
    · exact ⟨rfl, rfl⟩
    · constructor
      · rw [shift, List.map_append, List.map_map]
        congr 1
        split
        · rfl
        · exact (run_shift htail).1
      · split
        · rfl
        · exact (run_shift htail).2

end Run

/-! ## What has to come with one read -/

/-- Where each register was last set. -/
structure Places where
  mark : Nat := 0
  fieldStart : Nat := 0
  fieldLen : Nat := 0
  queryStart : Nat := 0
deriving DecidableEq

namespace Places

def act (g : Places) (fpc : Nat) : Action → Places
  | .mark | .startValue => { g with mark := fpc }
  | .startField => { g with fieldStart := fpc }
  | .writeField => { g with fieldLen := fpc }
  | .startQuery => { g with queryStart := fpc }
  | _ => g

def after (g : Places) (ev : List (Nat × Action)) : Places := ev.foldl (fun g x => g.act x.1 x.2) g

/-- No register was set past `p`. -/
structure Upto (p : Nat) (g : Places) : Prop where
  mark : g.mark ≤ p
  fieldStart : g.fieldStart ≤ p
  fieldLen : g.fieldLen ≤ p
  queryStart : g.queryStart ≤ p

theorem Upto.mono {p q : Nat} {g : Places} (h : g.Upto p) (hpq : p ≤ q) : g.Upto q :=
  ⟨h.mark.trans hpq, h.fieldStart.trans hpq, h.fieldLen.trans hpq, h.queryStart.trans hpq⟩

theorem Upto.act {p : Nat} {g : Places} (h : g.Upto p) (a : Action) : (g.act p a).Upto p := by
  cases a with
  | mark | startValue => exact { h with mark := le_refl p }
  | startField => exact { h with fieldStart := le_refl p }
  | writeField => exact { h with fieldLen := le_refl p }
  | startQuery => exact { h with queryStart := le_refl p }
  | _ => exact h

end Places

/-- How many bytes of `m` the comparison with a name of the table looks at. -/
def compared : List UInt8 → (Nat → UInt8) → Nat
  | [], _ => 0
  | c :: cs, m => if c = m 0 then compared cs (fun i => m (i + 1)) + 1 else 1

/-- How many bytes of `m` the lookup of a method may look at. -/
def lookedAt (m : Nat → UInt8) : Nat := (httpMethodMap.map fun x => compared x.2 m).foldr max 0

section Needs

variable (stream : Nat → UInt8)

/-- The bytes an action needs together, one pair for each register it reads: from the place where the
register was set up to the byte that is being read and to the last byte that is looked at. -/
def needs (fpc : Nat) (h : HttpRequestParser) (g : Places) : Action → List (Nat × Nat)
  | .writeField => [(g.fieldStart, fpc + 1)]
  | .writeValue =>
    [(g.fieldStart, max (fpc + 1) (h.parser.fieldStart + h.parser.fieldLen)), (g.fieldLen, fpc + 1), (g.mark, fpc + 1)]
  | .requestMethod =>
    [(g.mark, max (fpc + 1) (h.parser.mark + lookedAt fun i => stream (h.parser.mark + i)))]
  | .fragment | .httpVersion | .requestPath => [(g.mark, fpc + 1)]
  | .queryString => [(g.queryStart, max (fpc + 1) (h.parser.queryStart + len h.parser.queryStart fpc))]
  | _ => []

/-- The bytes the actions of a run need together. -/
def spans : HttpRequestParser → Places → List (Nat × Action) → List (Nat × Nat)
  | _, _, [] => []
  | h, g, (fpc, a) :: ev =>
    needs stream fpc h g a ++
      match h.act stream fpc a with
      | .error _ => []
      | .ok h => spans h (g.act fpc a) ev

variable {stream}

theorem mem_spans_append {ev' : List (Nat × Action)} {t : Nat × Nat} : ∀ {ev : List (Nat × Action)}
    {h : HttpRequestParser} {g : Places}, t ∈ spans stream h g ev → t ∈ spans stream h g (ev ++ ev')
  | [], _, _, ht => absurd ht List.not_mem_nil
  | (fpc, a) :: ev, h, g, ht => by
    rw [spans, List.mem_append] at ht
    rw [List.cons_append, spans, List.mem_append]
    refine ht.imp id fun ht => ?_
    cases ha : h.act stream fpc a with
    | error f => rw [ha] at ht; cases ht
    | ok h1 =>
      rw [ha] at ht
      exact mem_spans_append ht

theorem spans_append {ev' : List (Nat × Action)} : ∀ {ev : List (Nat × Action)} {h h' : HttpRequestParser} {g : Places},
    perform stream h ev = .ok h' →
    spans stream h g (ev ++ ev') = spans stream h g ev ++ spans stream h' (g.after ev) ev'
  | [], _, _, _, hp => by
    cases hp
    rfl
  | (fpc, a) :: ev, h, h', g, hp => by
    rw [perform] at hp
    rw [List.cons_append, spans, spans]
    cases ha : h.act stream fpc a with
    | error f => rw [ha] at hp; cases hp
    | ok h1 =>
      rw [ha] at hp
      simp only
      rw [spans_append hp, List.append_assoc]
      rfl

end Needs

/-- The tokens of a stream, as the parser that is given all of it at once takes them. -/
def tokens (object : HttpRequestParser) (stream : List UInt8) : List (Nat × Nat) :=
  spans (cstr stream) object.new {} (events (cstr stream) stream.length 0 object.new.parser.cs)

end ServerFrame.Http
