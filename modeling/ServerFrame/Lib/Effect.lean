/-
Programs over a set of operations: trees whose inner nodes ask for an operation and go on with its answer. A
program may also fault, or stop because the bound on its loops is used up. A handler gives the operations a
meaning on a state.
-/
import Mathlib.Logic.Basic

namespace Effect

universe u

/-- A program over the operations `ε`, where `ans e` is the type of answers of `e`. -/
inductive Prog (ε : Type) (ans : ε → Type) (α : Type)
  | ret (a : α)
  | ask (e : ε) (k : ans e → Prog ε ans α)
  | fault
  | more

/-- How a run of a program ends. -/
inductive End (σ : Type u) (α : Type)
  | ret (a : α) (s : σ)
  | fault (s : σ)
  | more (s : σ)

/-- The state in which a run ends. -/
def End.state {σ : Type u} {α : Type} : End σ α → σ
  | ret _ s | fault s | more s => s

namespace Prog

variable {ε : Type} {ans : ε → Type} {α β : Type} {σ : Type u}

protected def bind (f : α → Prog ε ans β) : Prog ε ans α → Prog ε ans β
  | ret a => f a
  | ask e k => ask e fun x => (k x).bind f
  | fault => fault
  | more => more

instance : Monad (Prog ε ans) where
  pure := ret
  bind p f := p.bind f

/-- The program that asks for one operation. -/
def perform (e : ε) : Prog ε ans (ans e) := ask e ret

def run (h : (e : ε) → σ → ans e × σ) : Prog ε ans α → σ → End σ α
  | ret a, s => .ret a s
  | ask e k, s => (k (h e s).1).run h (h e s).2
  | fault, s => .fault s
  | more, s => .more s

variable (h : (e : ε) → σ → ans e × σ) (s : σ)

/-- An operation whose answer and new state are known. -/
theorem run_ask {e : ε} {a : ans e} {s' : σ} (he : h e s = (a, s')) (k : ans e → Prog ε ans α) :
    (ask e k).run h s = (k a).run h s' := by
  rw [run, he]

theorem run_ite (c : Prop) [Decidable c] (p q : Prog ε ans α) :
    (if c then p else q).run h s = if c then p.run h s else q.run h s := by
  split <;> rfl

/-- A program put after one that returns. -/
theorem run_bind {p : Prog ε ans α} {f : α → Prog ε ans β} {a : α} {s s' : σ} (hp : p.run h s = .ret a s') :
    (p >>= f).run h s = (f a).run h s' := by
  show (p.bind f).run h s = _
  induction p generalizing s with
  | ret b =>
    cases hp
    rfl
  | ask e k ih => exact ih _ hp
  | fault => cases hp
  | more => cases hp

/-! ## Programs that do not fault -/

/-- The program does not fault as long as the answers meet `P`. -/
def Faultless (P : (e : ε) → ans e → Prop) : Prog ε ans α → Prop
  | ret _ | more => True
  | fault => False
  | ask e k => ∀ x, P e x → (k x).Faultless P

variable {P : (e : ε) → ans e → Prop}

theorem faultless_perform (e : ε) : (perform e : Prog ε ans (ans e)).Faultless P := fun _ _ => trivial

theorem faultless_ask {e : ε} {f : ans e → Prog ε ans α} (hf : ∀ x, P e x → (f x).Faultless P) :
    (perform e >>= f).Faultless P := hf

theorem faultless_ite {c : Prop} [Decidable c] {p q : Prog ε ans α} (hp : c → p.Faultless P)
    (hq : ¬ c → q.Faultless P) : (if c then p else q).Faultless P := by
  split
  · exact hp ‹c›
  · exact hq ‹¬ c›

theorem Faultless.bind {p : Prog ε ans α} {f : α → Prog ε ans β} (hp : p.Faultless P) (hf : ∀ a, (f a).Faultless P) :
    (p >>= f).Faultless P := by
  show (p.bind f).Faultless P
  induction p with
  | ret a => exact hf a
  | ask e k ih => exact fun x hx => ih x (hp x hx)
  | fault => cases hp
  | more => trivial

/-- A program whose first part runs under a condition. -/
theorem faultless_when {c : Prop} [Decidable c] {p : Prog ε ans Unit} {f : Unit → Prog ε ans α} (hp : p.Faultless P)
    (hf : ∀ r, (f r).Faultless P) : (if c then p >>= f else f ()).Faultless P := by
  apply faultless_ite
  · exact fun _ => hp.bind hf
  · exact fun _ => hf ()

end Prog

end Effect
