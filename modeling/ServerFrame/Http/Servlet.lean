/-
`ServletDispatch` (`servlet.cc`): servlets by exact path, by pattern in an array that is searched from
its front, and a default. What a lookup finds is told from the history of the calls. A servlet
is whatever the pointer is, `nullptr` included, and `fnmatch` any predicate of a pattern and a path.
-/
import ServerFrame.Lib.History
import Mathlib.Logic.Function.Basic
import Mathlib.Data.List.Nodup

namespace ServerFrame.Http

/-- `ServletDispatch`, under the lock that every member function takes. -/
structure ServletDispatch (σ : Type) where
  datas : List UInt8 → Option σ
  globs : List (List UInt8 × σ)
  default : σ

namespace ServletDispatch

variable {σ : Type}

/-- `ServletDispatch()`, with its `NotFoundServlet`. -/
def init (notFound : σ) : ServletDispatch σ := { datas := fun _ => none, globs := [], default := notFound }

/-- The loop of `addGlobServlet` and `delGlobServlet`: the first entry of the pattern is erased. -/
def eraseGlob (uri : List UInt8) : List (List UInt8 × σ) → List (List UInt8 × σ)
  | [] => []
  | it :: globs => if it.1 = uri then globs else it :: eraseGlob uri globs

variable (d : ServletDispatch σ)

def addServlet (uri : List UInt8) (slt : σ) : ServletDispatch σ :=
  { d with datas := Function.update d.datas uri (some slt) }

def addGlobServlet (uri : List UInt8) (slt : σ) : ServletDispatch σ :=
  { d with globs := eraseGlob uri d.globs ++ [(uri, slt)] }

def delServlet (uri : List UInt8) : ServletDispatch σ := { d with datas := Function.update d.datas uri none }

def delGlobServlet (uri : List UInt8) : ServletDispatch σ := { d with globs := eraseGlob uri d.globs }

def setDefault (v : σ) : ServletDispatch σ := { d with default := v }

/-- `getMatchedServlet(uri)`, where `fnmatch` says that the function of this name returns 0. -/
def getMatchedServlet (fnmatch : List UInt8 → List UInt8 → Bool) (uri : List UInt8) : σ :=
  match d.datas uri with
  | some slt => slt
  | none =>
    match d.globs.find? fun it => fnmatch it.1 uri with
    | some it => it.2
    | none => d.default

end ServletDispatch

namespace Servlets

open History

variable {σ : Type}

/-- The calls that change a dispatcher. -/
inductive Op (σ : Type)
  | addServlet (uri : List UInt8) (slt : σ)
  | addGlobServlet (uri : List UInt8) (slt : σ)
  | delServlet (uri : List UInt8)
  | delGlobServlet (uri : List UInt8)
  | setDefault (v : σ)

def exec (d : ServletDispatch σ) : Op σ → ServletDispatch σ
  | .addServlet uri slt => d.addServlet uri slt
  | .addGlobServlet uri slt => d.addGlobServlet uri slt
  | .delServlet uri => d.delServlet uri
  | .delGlobServlet uri => d.delGlobServlet uri
  | .setDefault v => d.setDefault v

def run (d : ServletDispatch σ) (ops : List (Op σ)) : ServletDispatch σ := ops.foldl exec d

/-! ## Histories -/

/-- A call that adds or deletes the servlet of the path. -/
def Op.OnPath (u : List UInt8) : Op σ → Prop
  | .addServlet uri _ | .delServlet uri => uri = u
  | _ => False

/-- A call that adds or deletes the pattern. -/
def Op.OnGlob (p : List UInt8) : Op σ → Prop
  | .addGlobServlet uri _ | .delGlobServlet uri => uri = p
  | _ => False

def Op.IsDefault : Op σ → Prop
  | .setDefault _ => True
  | _ => False

instance (p : List UInt8) : (op : Op σ) → Decidable (op.OnGlob p)
  | .addGlobServlet uri _ | .delGlobServlet uri => inferInstanceAs (Decidable (uri = p))
  | .addServlet .. | .delServlet _ | .setDefault _ => inferInstanceAs (Decidable False)

/-- The last call on the path adds the servlet. -/
def Added (ops : List (Op σ)) (u : List UInt8) (slt : σ) : Prop :=
  ∃ n, LastAt (Op.OnPath u) ops n (.addServlet u slt)

/-- The last call on the pattern is the one of number `n`, and adds the servlet. -/
def AddedGlob (ops : List (Op σ)) (n : Nat) (p : List UInt8) (slt : σ) : Prop :=
  LastAt (Op.OnGlob p) ops n (.addGlobServlet p slt)

/-- The servlet of the last `setDefault`, or the one the dispatcher was made with. -/
def CurrentDefault (notFound : σ) (ops : List (Op σ)) (v : σ) : Prop :=
  (∃ n, LastAt Op.IsDefault ops n (.setDefault v)) ∨ (v = notFound ∧ ∀ op ∈ ops, ¬ op.IsDefault)

/-- The servlet that the calls so far give the path. -/
inductive Resolves (notFound : σ) (fnmatch : List UInt8 → List UInt8 → Bool) (ops : List (Op σ)) (u : List UInt8) :
    σ → Prop
  /-- The one of the path. -/
  | path {slt : σ} : Added ops u slt → Resolves notFound fnmatch ops u slt
  /-- The one of the accepted pattern whose last add is the earliest. -/
  | glob {n : Nat} {p : List UInt8} {slt : σ} : (∀ slt, ¬ Added ops u slt) → AddedGlob ops n p slt →
      fnmatch p u = true →
      (∀ m q slt, AddedGlob ops m q slt → fnmatch q u = true → n ≤ m) → Resolves notFound fnmatch ops u slt
  /-- The default. -/
  | default {v : σ} : (∀ slt, ¬ Added ops u slt) → (∀ n p slt, AddedGlob ops n p slt → fnmatch p u = false) →
      CurrentDefault notFound ops v → Resolves notFound fnmatch ops u v

/-! ## The array of patterns -/

/-- The patterns whose last call adds them, in the order of these calls. -/
def liveGlobs : List (Op σ) → List (List UInt8 × σ)
  | [] => []
  | .addGlobServlet p slt :: ops => if ∃ op ∈ ops, op.OnGlob p then liveGlobs ops else (p, slt) :: liveGlobs ops
  | _ :: ops => liveGlobs ops

theorem eraseGlob_eq_filter {p : List UInt8} : ∀ {globs : List (List UInt8 × σ)}, (globs.map Prod.fst).Nodup →
    ServletDispatch.eraseGlob p globs = globs.filter fun it => it.1 ≠ p
  | [], _ => rfl
  | it :: globs, h => by
    rw [List.map_cons, List.nodup_cons] at h
    rw [ServletDispatch.eraseGlob]
    split
    · rename_i hp
      -- the pattern is not there a second time
      have hrest : globs.filter (fun it => it.1 ≠ p) = globs := by
        rw [List.filter_eq_self]
        intro x hx
        have hne : x.1 ≠ p := by
          rintro rfl
          exact h.1 (hp ▸ List.mem_map_of_mem hx)
        simpa using hne
      rw [List.filter_cons_of_neg (by simpa using hp), hrest]
    · rename_i hp
      rw [List.filter_cons_of_pos (by simpa using hp), eraseGlob_eq_filter h.2]

theorem liveGlobs_cons (op : Op σ) (ops : List (Op σ)) :
    liveGlobs (op :: ops) = ((liveGlobs [op]).filter fun it => ∀ o ∈ ops, ¬ o.OnGlob it.1) ++ liveGlobs ops := by
  cases op with
  | addGlobServlet p slt =>
    have hone : liveGlobs [Op.addGlobServlet p slt] = [(p, slt)] := by simp [liveGlobs]
    rw [hone, liveGlobs]
    split
    · rename_i h
      rw [List.filter_cons_of_neg (by simpa using h)]
      rfl
    · rename_i h
      rw [List.filter_cons_of_pos (by simpa using h)]
      rfl
  | addServlet _ _ | delServlet _ | delGlobServlet _ | setDefault _ => rfl

/-- A call takes its pattern out of the array, and puts it at the end if it adds it. -/
theorem exec_globs {d : ServletDispatch σ} (h : (d.globs.map Prod.fst).Nodup) (op : Op σ) :
    (exec d op).globs = (d.globs.filter fun it => ¬ op.OnGlob it.1) ++ liveGlobs [op] := by
  -- a call on the pattern `p` and a filter for it say the same
  have hfilter : ∀ p : List UInt8, (d.globs.filter fun it => it.1 ≠ p) = d.globs.filter fun it => ¬ p = it.1 := by
    intro p
    apply List.filter_congr
    intro it _
    rw [decide_eq_decide]
    exact ne_comm
  cases op with
  | addServlet _ _ | delServlet _ | setDefault _ =>
    have hall : (d.globs.filter fun _ => decide (¬ False)) = d.globs := List.filter_eq_self.2 fun _ _ => rfl
    exact (congrArg (· ++ []) hall).trans (List.append_nil _) |>.symm
  | addGlobServlet p slt =>
    have hone : liveGlobs [Op.addGlobServlet p slt] = [(p, slt)] := by simp [liveGlobs]
    rw [exec, ServletDispatch.addGlobServlet, eraseGlob_eq_filter h, hfilter, hone]
    rfl
  | delGlobServlet p =>
    rw [exec, ServletDispatch.delGlobServlet, eraseGlob_eq_filter h, hfilter]
    exact (List.append_nil _).symm

theorem exec_nodup {d : ServletDispatch σ} (h : (d.globs.map Prod.fst).Nodup) (op : Op σ) :
    ((exec d op).globs.map Prod.fst).Nodup := by
  have hkept : ((d.globs.filter fun it => ¬ op.OnGlob it.1).map Prod.fst).Nodup := h.sublist (List.filter_sublist.map _)
  rw [exec_globs h, List.map_append]
  refine hkept.append ?_ ?_
  · cases op <;> simp [liveGlobs]
  · intro p hp hnew
    obtain ⟨it, hit, rfl⟩ := List.mem_map.1 hp
    rw [List.mem_filter] at hit
    cases op with
    | addGlobServlet q slt =>
      have hq : it.1 = q := by simpa [liveGlobs] using hnew
      simp [Op.OnGlob, hq] at hit
    | addServlet _ _ | delServlet _ | delGlobServlet _ | setDefault _ => simp [liveGlobs] at hnew

/-- The array holds what was there and is untouched, and behind it the live patterns of the calls. -/
theorem run_globs (ops : List (Op σ)) {d : ServletDispatch σ} (h : (d.globs.map Prod.fst).Nodup) :
    (run d ops).globs = (d.globs.filter fun it => ∀ op ∈ ops, ¬ op.OnGlob it.1) ++ liveGlobs ops ∧
      ((run d ops).globs.map Prod.fst).Nodup := by
  induction ops generalizing d with
  | nil =>
    refine ⟨?_, h⟩
    simp [run, liveGlobs]
  | cons op ops ih =>
    obtain ⟨hglobs, hnodup⟩ := ih (exec_nodup h op)
    refine ⟨?_, hnodup⟩
    have hboth : ∀ globs : List (List UInt8 × σ),
        ((globs.filter fun it => ¬ op.OnGlob it.1).filter fun it => ∀ o ∈ ops, ¬ o.OnGlob it.1) =
          globs.filter fun it => ∀ o ∈ op :: ops, ¬ o.OnGlob it.1 := by
      intro globs
      rw [List.filter_filter]
      apply List.filter_congr
      intro it _
      rw [← Bool.decide_and, decide_eq_decide, List.forall_mem_cons]
      exact and_comm
    rw [run, List.foldl_cons, ← run, hglobs, exec_globs h, List.filter_append, hboth, liveGlobs_cons op ops,
      List.append_assoc]

/-- What the search of the live patterns finds is the accepted one whose last add is the earliest. -/
theorem find_liveGlobs (ops : List (Op σ)) (f : List UInt8 × σ → Bool) :
    (∀ it, (liveGlobs ops).find? f = some it → ∃ n, AddedGlob ops n it.1 it.2 ∧ f it = true ∧
      ∀ m q slt, AddedGlob ops m q slt → f (q, slt) = true → n ≤ m) ∧
    ((liveGlobs ops).find? f = none → ∀ n p slt, AddedGlob ops n p slt → f (p, slt) = false) := by
  induction ops with
  | nil =>
    constructor
    · intro it h
      cases h
    · rintro - n p slt ⟨-, pre, post, h, -⟩
      simp at h
  | cons op ops ih =>
    -- the call is dead, or does not add a pattern
    have hskip : liveGlobs (op :: ops) = liveGlobs ops → (∀ p slt, ¬ AddedGlob (op :: ops) 0 p slt) →
        (∀ it, (liveGlobs (op :: ops)).find? f = some it → ∃ n, AddedGlob (op :: ops) n it.1 it.2 ∧ f it = true ∧
          ∀ m q slt, AddedGlob (op :: ops) m q slt → f (q, slt) = true → n ≤ m) ∧
        ((liveGlobs (op :: ops)).find? f = none → ∀ n p slt, AddedGlob (op :: ops) n p slt → f (p, slt) = false) := by
      intro hlive hnot
      rw [hlive]
      constructor
      · intro it h
        obtain ⟨n, hn, hf, hleast⟩ := ih.1 it h
        refine ⟨n + 1, lastAt_cons_succ.2 hn, hf, fun m q slt hq hfq => ?_⟩
        cases m with
        | zero => exact absurd hq (hnot q slt)
        | succ m => exact Nat.succ_le_succ (hleast m q slt (lastAt_cons_succ.1 hq) hfq)
      · intro h n p slt hp
        cases n with
        | zero => exact absurd hp (hnot p slt)
        | succ n => exact ih.2 h n p slt (lastAt_cons_succ.1 hp)
    cases op with
    | addServlet _ _ | delServlet _ | delGlobServlet _ | setDefault _ =>
      apply hskip rfl
      intro p slt h
      cases (lastAt_cons_zero.1 h).1
    | addGlobServlet p slt =>
      by_cases hdead : ∃ op ∈ ops, op.OnGlob p
      · apply hskip (by rw [liveGlobs, if_pos hdead])
        intro q s h
        obtain ⟨heq, -, hlast⟩ := lastAt_cons_zero.1 h
        cases heq
        obtain ⟨op, hop, hon⟩ := hdead
        exact hlast op hop hon
      · have hhead : AddedGlob (.addGlobServlet p slt :: ops) 0 p slt :=
          lastAt_cons_zero.2 ⟨rfl, rfl, fun op hop hon => hdead ⟨op, hop, hon⟩⟩
        rw [liveGlobs, if_neg hdead]
        by_cases hf : f (p, slt) = true
        · rw [List.find?_cons_of_pos hf]
          constructor
          · rintro it ⟨⟩
            exact ⟨0, hhead, hf, fun _ _ _ _ _ => Nat.zero_le _⟩
          · intro h
            cases h
        · rw [List.find?_cons_of_neg hf]
          constructor
          · intro it h
            obtain ⟨n, hn, hfit, hleast⟩ := ih.1 it h
            refine ⟨n + 1, lastAt_cons_succ.2 hn, hfit, fun m q s hq hfq => ?_⟩
            cases m with
            | zero =>
              cases (lastAt_cons_zero.1 hq).1
              exact absurd hfq hf
            | succ m => exact Nat.succ_le_succ (hleast m q s (lastAt_cons_succ.1 hq) hfq)
          · intro h n q s hq
            cases n with
            | zero =>
              cases (lastAt_cons_zero.1 hq).1
              exact Bool.not_eq_true _ ▸ hf
            | succ n => exact ih.2 h n q s (lastAt_cons_succ.1 hq)

/-! ## Paths and the default -/

theorem exec_datas_of_not (u : List UInt8) (d : ServletDispatch σ) (op : Op σ) (h : ¬ op.OnPath u) :
    (exec d op).datas u = d.datas u := by
  cases op with
  | addServlet uri slt => exact Function.update_of_ne (Ne.symm h) ..
  | delServlet uri => exact Function.update_of_ne (Ne.symm h) ..
  | addGlobServlet _ _ | delGlobServlet _ | setDefault _ => rfl

theorem run_datas (notFound : σ) (ops : List (Op σ)) (u : List UInt8) (slt : σ) :
    (run (.init notFound) ops).datas u = some slt ↔ Added ops u slt := by
  -- what the last call on the path has put there
  have hset : ∀ {n : Nat} {op : Op σ} {entry : Option σ}, LastAt (Op.OnPath u) ops n op →
      (∀ d, (exec d op).datas u = entry) → (run (.init notFound) ops).datas u = entry := by
    intro n op entry hlast hentry
    exact hlast.read_foldl (fun d : ServletDispatch σ => d.datas u) (exec_datas_of_not u) hentry (.init notFound)
  constructor
  · intro h
    rcases lastAt_or (Op.OnPath u) ops with ⟨n, op, hlast⟩ | hnone
    · have hon := hlast.1
      cases op with
      | addServlet uri s =>
        obtain rfl : uri = u := hon
        rw [hset hlast fun d => Function.update_self ..] at h
        cases h
        exact ⟨n, hlast⟩
      | delServlet uri =>
        obtain rfl : uri = u := hon
        rw [hset hlast fun d => Function.update_self ..] at h
        cases h
      | addGlobServlet _ _ | delGlobServlet _ | setDefault _ => cases hon
    · have hkeep : (run (.init notFound) ops).datas u = none :=
        read_foldl (fun d : ServletDispatch σ => d.datas u) (exec_datas_of_not u) hnone (.init notFound)
      rw [hkeep] at h
      cases h
  · rintro ⟨n, hlast⟩
    exact hset hlast fun d => Function.update_self ..

theorem exec_default_of_not (d : ServletDispatch σ) (op : Op σ) (h : ¬ op.IsDefault) :
    (exec d op).default = d.default := by
  cases op with
  | setDefault v => exact absurd trivial h
  | addServlet _ _ | delServlet _ | addGlobServlet _ _ | delGlobServlet _ => rfl

theorem run_default (notFound : σ) (ops : List (Op σ)) (v : σ) :
    (run (.init notFound) ops).default = v ↔ CurrentDefault notFound ops v := by
  have hset : ∀ {n : Nat} {w : σ}, LastAt Op.IsDefault ops n (.setDefault w) →
      (run (.init notFound) ops).default = w := by
    intro n w hlast
    exact hlast.read_foldl ServletDispatch.default exec_default_of_not (fun _ => rfl) _
  have hkeep : (∀ op ∈ ops, ¬ op.IsDefault) → (run (.init notFound) ops).default = notFound := by
    intro hnone
    exact read_foldl ServletDispatch.default exec_default_of_not hnone _
  constructor
  · rintro rfl
    rcases lastAt_or Op.IsDefault ops with ⟨n, op, hlast⟩ | hnone
    · have hon := hlast.1
      cases op with
      | setDefault w =>
        rw [hset hlast]
        exact .inl ⟨n, hlast⟩
      | addServlet _ _ | delServlet _ | addGlobServlet _ _ | delGlobServlet _ => cases hon
    · exact .inr ⟨hkeep hnone, hnone⟩
  · rintro (⟨n, hlast⟩ | ⟨rfl, hnone⟩)
    · exact hset hlast
    · exact hkeep hnone

/-! ## Resolution -/

/-- Servlet resolution follows the registration history. After any calls no pattern is in the array
twice, and a lookup returns exactly the servlet that the history gives the path. -/
theorem resolution (notFound : σ) (fnmatch : List UInt8 → List UInt8 → Bool) (ops : List (Op σ)) :
    ((run (.init notFound) ops).globs.map Prod.fst).Nodup ∧
      ∀ u slt, (run (.init notFound) ops).getMatchedServlet fnmatch u = slt ↔ Resolves notFound fnmatch ops u slt := by
  obtain ⟨hglobs, hnodup⟩ := run_globs ops (d := .init notFound) List.nodup_nil
  refine ⟨hnodup, fun u slt => ?_⟩
  replace hglobs : (run (.init notFound) ops).globs = liveGlobs ops := hglobs
  obtain ⟨hfound, hnone⟩ := find_liveGlobs ops fun it => fnmatch it.1 u
  rw [ServletDispatch.getMatchedServlet, hglobs]
  constructor
  · rintro rfl
    cases hd : (run (.init notFound) ops).datas u with
    | some s => exact .path ((run_datas notFound ops u s).1 hd)
    | none =>
      have hno : ∀ s, ¬ Added ops u s := by
        intro s hs
        rw [(run_datas notFound ops u s).2 hs] at hd
        cases hd
      simp only
      cases hf : (liveGlobs ops).find? fun it => fnmatch it.1 u with
      | some it =>
        obtain ⟨n, hn, hm, hleast⟩ := hfound it hf
        exact .glob hno hn hm hleast
      | none => exact .default hno (hnone hf) ((run_default notFound ops _).1 rfl)
  · intro h
    cases h with
    | path h => rw [(run_datas notFound ops u slt).2 h]
    | glob hno hn hm hleast =>
      have hd : (run (.init notFound) ops).datas u = none :=
        Option.eq_none_iff_forall_ne_some.2 fun s hs => hno s ((run_datas notFound ops u s).1 hs)
      rw [hd]
      cases hf : (liveGlobs ops).find? fun it => fnmatch it.1 u with
      | some it =>
        obtain ⟨m, hm', hmit, hleast'⟩ := hfound it hf
        -- both are the earliest
        obtain rfl := Nat.le_antisymm (hleast m _ _ hm' hmit) (hleast' _ _ _ hn hm)
        cases hm'.eq_of_number hn
        rfl
      | none =>
        rw [hnone hf _ _ _ hn] at hm
        cases hm
    | default hno hnot hv =>
      have hd : (run (.init notFound) ops).datas u = none :=
        Option.eq_none_iff_forall_ne_some.2 fun s hs => hno s ((run_datas notFound ops u s).1 hs)
      rw [hd]
      cases hf : (liveGlobs ops).find? fun it => fnmatch it.1 u with
      | some it =>
        obtain ⟨n, hn, hm, -⟩ := hfound it hf
        rw [hnot n _ _ hn] at hm
        cases hm
      | none => exact (run_default notFound ops slt).2 hv

/-- A pattern that is registered again goes behind the others. -/
example : (run (.init 0) [.addGlobServlet [42] 1, .addGlobServlet [47, 42] 2, .addGlobServlet [42] 3]).getMatchedServlet
    (fun _ _ => true) [47] = 2 := by decide

end Servlets

end ServerFrame.Http
