/-
The machine on a text whose bytes are known: where the text stands in the buffer, what a stretch of it does to the
parser, and that the stretches of a text follow on each other.
-/
import ServerFrame.Http.Segment

namespace ServerFrame.Http

open Ragel

/-! ## Texts in a buffer -/

/-- The text stands at `p`. -/
def Spells (buffer : Nat → UInt8) : Nat → List UInt8 → Prop
  | _, [] => True
  | p, c :: w => buffer p = c ∧ Spells buffer (p + 1) w

section Spells

variable {buffer : Nat → UInt8}

theorem spells_append {u v : List UInt8} {p : Nat} :
    Spells buffer p (u ++ v) ↔ Spells buffer p u ∧ Spells buffer (p + u.length) v := by
  induction u generalizing p with
  | nil => simp [Spells]
  | cons c u ih =>
    rw [List.cons_append, Spells, Spells, ih, and_assoc, List.length_cons,
      show p + 1 + u.length = p + (u.length + 1) by omega]

theorem spells_of_getD {w : List UInt8} {p : Nat} (h : ∀ i, i < w.length → buffer (p + i) = w.getD i 0) :
    Spells buffer p w := by
  induction w generalizing p with
  | nil => trivial
  | cons c w ih =>
    refine ⟨h 0 (Nat.succ_pos _), ih fun i hi => ?_⟩
    rw [show p + 1 + i = p + (i + 1) by omega, h (i + 1) (by simpa using hi)]
    simp

theorem Spells.getD {w : List UInt8} {p : Nat} (h : Spells buffer p w) {i : Nat} (hi : i < w.length) :
    buffer (p + i) = w.getD i 0 := by
  induction w generalizing p i with
  | nil => cases hi
  | cons c w ih =>
    cases i with
    | zero => exact h.1
    | succ i =>
      rw [show p + (i + 1) = p + 1 + i by omega, ih h.2 (by simpa using hi)]
      simp

theorem Spells.slice_eq {w : List UInt8} {p : Nat} (h : Spells buffer p w) : slice buffer p w.length = w := by
  refine List.ext_getElem (by simp [slice]) fun i hi hi' => ?_
  simp only [slice, List.getElem_map, List.getElem_range]
  rw [h.getD hi', List.getD_eq_getElem?_getD, List.getElem?_eq_getElem hi']
  rfl

/-- A text of the buffer as a string. -/
theorem Spells.mkString_eq {w : List UInt8} {p n : Nat} (h : Spells buffer p w) (hn : n = w.length)
    (h63 : w.length < 2 ^ 63) : mkString buffer p n = .ok w := by
  subst hn
  rw [mkString, if_pos h63, h.slice_eq]

end Spells

/-! ## Stretches of a text -/

/-- The machine takes the `n` bytes from `p` on and goes on behind them. -/
def Feeds (buffer : Nat → UInt8) (p n : Nat) (cs : State Action) (h : HttpRequestParser) (cs' : State Action)
    (h' : HttpRequestParser) : Prop :=
  ∀ m, HttpRequestParser.exec buffer (n + m) p cs h = HttpRequestParser.exec buffer m (p + n) cs' h'

section Feeds

variable {buffer : Nat → UInt8} {p n m : Nat} {cs cs' cs'' : State Action} {h h' h'' : HttpRequestParser}

theorem Feeds.none : Feeds buffer p 0 cs h cs h := fun m => by rw [Nat.zero_add, Nat.add_zero]

theorem Feeds.trans (h1 : Feeds buffer p n cs h cs' h') (h2 : Feeds buffer (p + n) m cs' h' cs'' h'') :
    Feeds buffer p (n + m) cs h cs'' h'' := by
  intro k
  rw [Nat.add_assoc, h1, h2, Nat.add_assoc]

/-- What is left to do after a stretch. -/
theorem Feeds.exec_eq {total : Nat} {r : Except Fault (HttpRequestParser × State Action × Nat)}
    (hf : Feeds buffer p n cs h cs' h') (ht : total = n + m)
    (hr : HttpRequestParser.exec buffer m (p + n) cs' h' = r) : HttpRequestParser.exec buffer total p cs h = r := by
  rw [ht, hf, hr]

/-- One byte. -/
theorem Feeds.byte {c : UInt8} {as : List Action} (hp : buffer p = c) (hs : cs.step c = cs') (hne : cs' ≠ [])
    (ha : cs.acts c = as) (hd : .done ∉ as) (hact : perform buffer h (as.map (Prod.mk p)) = .ok h') :
    Feeds buffer p 1 cs h cs' h' := by
  intro m
  subst hp
  have hfired : ∀ {as : List Action}, .done ∉ as → fired as = as := by
    intro as hd
    induction as with
    | nil => rfl
    | cons a as ih =>
      rw [List.mem_cons, not_or] at hd
      rw [fired, if_neg (Ne.symm hd.1), ih hd.2]
  rw [Nat.add_comm 1 m, HttpRequestParser.exec, acts_eq_perform, ha, hs, hfired hd, hact, if_neg (by simpa using hne)]
  simp [hd, Except.map]

/-- A byte without actions. -/
theorem Feeds.silent {c : UInt8} (hp : buffer p = c) (hs : cs.step c = cs') (hne : cs' ≠ []) (ha : cs.acts c = []) :
    Feeds buffer p 1 cs h cs' h :=
  .byte hp hs hne ha (by simp) rfl

/-- The state after a text on which the machine performs nothing. -/
def quiet (cs : State Action) : List UInt8 → Option (State Action)
  | [] => some cs
  | c :: w => if cs.step c = [] ∨ cs.acts c ≠ [] then none else quiet (cs.step c) w

theorem Feeds.quiet {w : List UInt8} (hq : Http.quiet cs w = some cs') (hp : Spells buffer p w) :
    Feeds buffer p w.length cs h cs' h := by
  induction w generalizing cs p with
  | nil =>
    cases hq
    exact .none
  | cons c w ih =>
    rw [Http.quiet] at hq
    split at hq
    · cases hq
    · rename_i hstep
      rw [not_or, not_not] at hstep
      have hfirst : Feeds buffer p 1 cs h (cs.step c) h := .silent hp.1 rfl hstep.1 hstep.2
      rw [List.length_cons, Nat.add_comm]
      exact hfirst.trans (ih hq hp.2)

end Feeds

end ServerFrame.Http
