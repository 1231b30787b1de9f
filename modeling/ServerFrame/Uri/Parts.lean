/-
The expressions that the rules of a URI come to, and what tells them apart: which bytes they read and start with,
and that a host ends where it does in one way only.
-/
import ServerFrame.Uri.Grammar
import ServerFrame.Lib.Trace

namespace ServerFrame.UriGrammar

open Ragel Ragel.Expr

/-! ## The expressions -/

def userinfoE : Expr UriAction := (userinfo 0).1

def hostE : Expr UriAction := (host 0).1

def portE : Expr UriAction := (port 0).1

def pathE : Expr UriAction := (pathAbempty 0).1

def tailE : Expr UriAction := (tail 0).1

/-- `e >a %b`, numbered from `n`. -/
def fieldE (n : Nat) (a b : UriAction) (e : Expr UriAction) : Expr UriAction :=
  .leaving ⟨[(n + 1, b)], []⟩ (.entering ⟨[(n, a)], []⟩ e)

/-- `(c e)?`. -/
def optE (c : Nat) (e : Expr UriAction) : Expr UriAction := .alt (.seq (.char (.byte c)) e) .eps

def schemeE : Expr UriAction := fieldE 0 .marku .saveScheme (schemeText 0).1

def userinfoField : Expr UriAction := .leaving ⟨[(3, .saveUserinfo)], []⟩ userinfoE

def userinfoOpt : Expr UriAction := .alt (.seq userinfoField (.char (.byte 64))) .eps

def hostField : Expr UriAction := fieldE 4 .markh .saveHost hostE

def portOpt : Expr UriAction := optE 58 (fieldE 6 .markh .savePort portE)

/-- `host (":" port)?`. -/
def hostPort : Expr UriAction := .seq hostField portOpt

def authorityE : Expr UriAction := .entering ⟨[(2, .markh)], []⟩ (.seq (.seq userinfoOpt hostField) portOpt)

def pathField : Expr UriAction := fieldE 8 .markh .savePath pathE

def queryOpt : Expr UriAction := optE 63 (fieldE 10 .marku .saveQuery tailE)

def fragmentOpt : Expr UriAction := optE 35 (fieldE 12 .marku .saveFragment tailE)

def slashes : Expr UriAction := .seq (.char (.byte 47)) (.char (.byte 47))

def hierE : Expr UriAction :=
  .alt (.alt (.alt (.seq (.seq slashes authorityE) pathField) (pathAbsolute 0).1) (pathRootless 0).1) .eps

def uriE : Expr UriAction := .seq (.seq (.seq (.seq schemeE (.char (.byte 58))) hierE) queryOpt) fragmentOpt

def relativeE : Expr UriAction := (relativeRef 14).1

/-- What stands before query and fragment in a relative reference, with `a` for its authority. -/
def relativePartE (a : Expr UriAction) : Expr UriAction :=
  .alt (.alt (.alt (.seq (.seq slashes a) pathE) (pathAbsolute 0).1) (pathNoscheme 0).1) .eps

set_option maxRecDepth 10000 in
theorem relativeE_eq : ∃ a q f, relativeE = .seq (.seq (relativePartE a) (optE 63 q)) (optE 35 f) := ⟨_, _, _, rfl⟩

set_option maxRecDepth 10000 in
theorem main_eq : (main 0).1 = .alt uriE relativeE := rfl

set_option maxRecDepth 100000 in
theorem main_unranked : (Expr.alt uriE relativeE).unranked = true := by decide

/-! ## First bytes -/

variable {c : UInt8} {w : List UInt8}

theorem has_byte_iff {n : Nat} (hn : n < 256) : (ByteSet.byte n).has c = true ↔ c = UInt8.ofNat n := by
  rw [ByteSet.has_byte hn, decide_eq_true_eq]

theorem starts_optE {n : Nat} {e : Expr UriAction} (hn : n < 256) : (optE n e).starts c = true ↔ c = UInt8.ofNat n := by
  simp only [optE, starts_alt, starts_seq, starts_char, starts_eps, final, Bool.false_and, Bool.or_false]
  exact has_byte_iff hn

theorem accepts_fieldE {n : Nat} {a b : UriAction} {e : Expr UriAction} : (fieldE n a b e).accepts w = e.accepts w := by
  rw [fieldE, accepts_leaving, accepts_entering]

theorem reach_fieldE {n : Nat} {a b : UriAction} {e : Expr UriAction} (h : e.reach (c :: w) = []) :
    (fieldE n a b e).reach (c :: w) = [] := by
  rw [List.eq_nil_iff_forall_not_mem]
  intro y hy
  obtain ⟨z, hz, -⟩ := mem_reach_leaving.1 hy
  rw [reach_entering, h] at hz
  cases hz

/-! ## Hosts -/

/-- What stands between the brackets. -/
def addressE : Expr UriAction := (oneOf [ipv6address, ipvFuture] 0).1

def bracketedE : Expr UriAction := .seq (.seq (.char (.byte 91)) addressE) (.char (.byte 93))

set_option maxRecDepth 10000 in
theorem hostE_eq : hostE = .alt (.alt bracketedE (ipv4address 0).1) (regName 0).1 := rfl

theorem accepts_bracketed (h : bracketedE.accepts w = true) : ∃ u, w = 91 :: (u ++ [93]) ∧ 93 ∉ u := by
  obtain ⟨_, _, rfl, hopen, hclose⟩ := accepts_seq_iff.1 h
  obtain ⟨_, u, rfl, hopen, hu⟩ := accepts_seq_iff.1 hopen
  obtain ⟨a, rfl, ha⟩ := accepts_char.1 hopen
  obtain ⟨b, rfl, hb⟩ := accepts_char.1 hclose
  rw [has_byte_iff (by decide)] at ha hb
  subst ha hb
  refine ⟨u, by simp, fun hmem => ?_⟩
  have := reads_of_accepts hu 93 hmem
  rw [show addressE.reads 93 = false by decide] at this
  cases this

/-- A host in brackets, or one with neither a colon nor a bracket. -/
theorem accepts_host (h : hostE.accepts w = true) : (∃ u, w = 91 :: (u ++ [93]) ∧ 93 ∉ u) ∨ (58 ∉ w ∧ 91 ∉ w) := by
  rw [hostE_eq] at h
  have hother : ∀ e : Expr UriAction, e.accepts w = true → e.reads 58 = false → e.reads 91 = false →
      58 ∉ w ∧ 91 ∉ w := by
    intro e he h58 h91
    refine ⟨fun hmem => ?_, fun hmem => ?_⟩
    · rw [reads_of_accepts he 58 hmem] at h58
      cases h58
    · rw [reads_of_accepts he 91 hmem] at h91
      cases h91
  rcases accepts_alt h with h | h
  · rcases accepts_alt h with h | h
    · exact .inl (accepts_bracketed h)
    · exact .inr (hother _ h (by decide) (by decide))
  · exact .inr (hother _ h (by decide) (by decide))

/-- No host goes on with a colon where another one ends. -/
theorem host_before {p q : List UInt8} (h : hostE.accepts (p ++ 58 :: q) = true) : hostE.accepts p = false := by
  rw [Bool.eq_false_iff]
  intro hp
  rcases accepts_host h with ⟨u, hu, hno⟩ | ⟨hno, -⟩
  · cases p with
    | nil => cases hu
    | cons a p =>
      obtain ⟨rfl, htail⟩ := List.cons.inj hu
      rcases accepts_host hp with ⟨v, hv, -⟩ | ⟨-, hno⟩
      · obtain ⟨-, rfl⟩ := List.cons.inj hv
        have hlast : (v ++ [93] ++ 58 :: q).dropLast = (u ++ [93]).dropLast := congrArg List.dropLast htail
        rw [List.dropLast_concat, List.append_assoc, List.dropLast_append_of_ne_nil (by simp)] at hlast
        refine hno (hlast ▸ List.mem_append_right _ ?_)
        rw [List.singleton_append, List.dropLast_cons_of_ne_nil (by simp)]
        exact List.mem_cons_self ..
      · exact hno (List.mem_cons_self ..)
  · exact hno (by simp)

theorem reach_bracketed : bracketedE.reach (w ++ [58]) = [] ∨ 93 ∉ w := by
  by_cases hw : 93 ∈ w
  · left
    rw [List.eq_nil_iff_forall_not_mem]
    intro y hy
    obtain ⟨p, q, rfl⟩ := List.append_of_mem hw
    have hinner : ∀ r, (Expr.seq (.char (.byte 91)) addressE).reach (p ++ 93 :: r) = [] := fun r =>
      reach_eq_nil (by decide)
    have hy' : y ∈ ((Expr.seq (.char (.byte 91)) addressE).andThen (.char (.byte 93))).reach
        ((p ++ 93 :: q) ++ [58]) := by
      cases p <;> exact hy
    rcases reach_andThen.1 hy' with ⟨z, hz, -⟩ | ⟨u, c, v, hu, hacc, hy⟩
    · rw [List.append_assoc, List.cons_append, hinner] at hz
      cases hz
    · -- the closing bracket is the last byte
      obtain ⟨m, hm, hy⟩ := reach_cons.1 hy
      rw [next] at hm
      split at hm
      · rename_i hc
        rw [has_byte_iff (by decide)] at hc
        rw [List.mem_singleton] at hm
        subst hm
        cases v with
        | nil =>
          have := congrArg List.getLast? hu
          rw [List.getLast?_concat, List.getLast?_concat, hc] at this
          cases this
        | cons d v => simp [reach, next] at hy
      · cases hm
  · exact .inr hw

theorem host_after (h : hostE.accepts w = true) : hostE.reach (w ++ [58]) = [] := by
  have halt : ∀ {e f : Expr UriAction} {v : List UInt8}, e.reach (v ++ [58]) = [] → f.reach (v ++ [58]) = [] →
      (Expr.alt e f).reach (v ++ [58]) = [] := by
    intro e f v he hf
    cases v with
    | nil =>
      rw [List.nil_append] at he hf ⊢
      rw [reach_alt, he, hf]
      rfl
    | cons c v =>
      rw [List.cons_append] at he hf ⊢
      rw [reach_alt, he, hf]
      rfl
  rw [hostE_eq]
  refine halt (halt ?_ (reach_eq_nil (by decide))) (reach_eq_nil (by decide))
  rcases accepts_host h with ⟨u, rfl, -⟩ | ⟨-, hno⟩
  · exact reach_bracketed.resolve_right fun h => h (by simp)
  · cases w with
    | nil => exact reach_of_not_starts (by decide)
    | cons a w =>
      refine reach_of_not_starts ?_
      rw [Bool.eq_false_iff]
      intro ha
      simp only [bracketedE, starts_seq, starts_char, final, Bool.false_and, Bool.or_false] at ha
      rw [has_byte_iff (by decide)] at ha
      exact hno (by rw [ha]; exact List.mem_cons_self ..)

/-! ## A host read where userinfo stands -/

set_option maxRecDepth 10000 in
theorem userinfoE_eq :
    ∃ e, userinfoE = .star (.alt e (.char (.byte 58))) ∧ (regName 0).1 = .star e ∧ e.reads 58 = false :=
  ⟨_, rfl, rfl, by decide⟩

/-- Of userinfo, exactly what has no colon is a host. -/
theorem host_in_userinfo {p q : List UInt8} (h : userinfoE.accepts (p ++ 58 :: q) = true) :
    hostE.accepts p = true ↔ 58 ∉ p := by
  constructor
  · intro hp
    rcases accepts_host hp with ⟨u, rfl, -⟩ | ⟨hno, -⟩
    · have := reads_of_accepts h 91 (by simp)
      rw [show userinfoE.reads 91 = false by decide] at this
      cases this
    · exact hno
  · intro hno
    obtain ⟨e, h1, h2, h3⟩ := userinfoE_eq
    rw [h1] at h
    rw [hostE_eq, accepts_alt_iff, h2]
    refine .inr (accepts_star_before (fun c hc => ?_) h3 h)
    rw [Bool.eq_false_iff]
    intro hk
    have h58 : c = 58 := (has_byte_iff (by decide)).1 hk
    exact hno (h58 ▸ hc)

/-! ## A relative reference -/

variable {a : Expr UriAction} {d : UInt8}

theorem starts_slashes {f : Expr UriAction} (h : (Expr.seq (.seq slashes a) f).starts d = true) : d = 47 := by
  simp only [slashes, starts_seq, starts_char, final, Bool.false_and, Bool.or_false] at h
  exact (has_byte_iff (by decide)).1 h

theorem not_carries_relativePart {x : Nat × UriAction} (hd : d ≠ 47) (hw : (w ++ [c]).head? = some d) :
    ¬ Carries x (relativePartE a) w c := by
  rw [relativePartE, carries_alt, carries_alt, carries_alt]
  rintro (((h | h) | h) | h)
  · exact hd (starts_slashes (starts_of_carries h d hw))
  · exact not_carries_of_plain (by decide) h
  · exact not_carries_of_plain (by decide) h
  · exact not_carries_of_plain rfl h

/-- A relative reference has a colon after a slash only. -/
theorem reach_relativePart {v : List UInt8} (hw : 47 ∉ w) : (relativePartE a).reach (w ++ 58 :: v) = [] := by
  obtain ⟨d, u, hu, hd⟩ : ∃ d u, w ++ 58 :: v = d :: u ∧ d ≠ 47 := by
    cases w with
    | nil => exact ⟨58, v, rfl, by decide⟩
    | cons d w => exact ⟨d, w ++ 58 :: v, rfl, fun h => hw (h ▸ List.mem_cons_self ..)⟩
  have hnot : ∀ {e : Expr UriAction}, (e.starts d = true → d = 47) → e.reach (d :: u) = [] := fun he =>
    reach_of_not_starts (Bool.eq_false_iff.2 fun h => hd (he h))
  have habs : (pathAbsolute 0).1.starts d = true → d = 47 := by
    intro h
    rw [show (pathAbsolute 0).1 = .seq (.char (.byte 47)) _ from rfl, starts_seq, starts_char, final, Bool.false_and,
      Bool.or_false] at h
    exact (has_byte_iff (by decide)).1 h
  have hnoscheme : (pathNoscheme 0).1.reach (d :: u) = [] := by
    rw [← hu, ← List.singleton_append, ← List.append_assoc]
    refine reach_append_eq_nil (reach_seq_eq_nil (by simp) (reach_eq_nil (by decide)) fun c hc => ?_)
    rw [Bool.eq_false_iff]
    intro hs
    have hs : (Expr.star (.seq (.char (.byte 47)) (segment 0).1)).starts c = true := hs
    rw [starts_star, starts_seq, starts_char, final, Bool.false_and, Bool.or_false, has_byte_iff (by decide)] at hs
    rcases List.mem_append.1 hc with hc | hc
    · rw [hs] at hc
      exact hw hc
    · rw [List.mem_singleton.1 hc] at hs
      cases hs
  rw [hu, relativePartE, reach_alt, reach_alt, reach_alt, hnot starts_slashes, hnot habs, hnoscheme,
    reach_of_not_starts starts_eps]
  rfl

end ServerFrame.UriGrammar
