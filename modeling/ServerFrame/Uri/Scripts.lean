/-
What the machine does along a URI. Up to an `@` the text of the authority is read as userinfo and as a host at
the same time, and after its first colon as a port as well; what these attempts do is part of the script.
-/
import ServerFrame.Uri.Parts
import ServerFrame.Lib.Separators
import Mathlib.Data.List.TakeWhile

namespace ServerFrame.UriGrammar

open Ragel Ragel.Expr

variable {c : UInt8} {x : Nat × UriAction} {i : Nat}

/-! ## Host and port -/

/-- A part that is there with its delimiter in front, or not at all. -/
def optText (c : UInt8) : Option (List UInt8) → List UInt8
  | none => []
  | some w => c :: w

/-- `e >a %b` along `w`, numbered from `n`. -/
def fieldScript (n : Nat) (a b : UriAction) (w : List UInt8) : List (Nat × Nat × UriAction) :=
  [(0, n, a), (w.length, n + 1, b)]

def optScript (n : Nat) (a b : UriAction) : Option (List UInt8) → List (Nat × Nat × UriAction)
  | none => []
  | some w => shift 1 (fieldScript n a b w)

section Opt

variable {k n : Nat} {a b : UriAction} {e : Expr UriAction} {o : Option (List UInt8)}

theorem accepts_opt (hk : k < 256) (ho : ∀ w ∈ o, e.accepts w = true) :
    (optE k (fieldE n a b e)).accepts (optText (UInt8.ofNat k) o) = true := by
  rw [optE, accepts_alt_iff]
  cases o with
  | none => exact .inr (accepts_eps.2 rfl)
  | some w =>
    refine .inl (accepts_seq_iff.2 ⟨[UInt8.ofNat k], w, rfl, accepts_char.2 ⟨_, rfl, ?_⟩, ?_⟩)
    · exact (has_byte_iff hk).2 rfl
    · rw [accepts_fieldE]
      exact ho w rfl

theorem script_opt (hk : k < 256) (he : e.plain = true) (ho : ∀ w ∈ o, e.accepts w = true) :
    Script (optE k (fieldE n a b e)) (optText (UInt8.ofNat k) o) n (n + 2) (optScript n a b o) := by
  refine .alt_left ?_ fun i x => not_event_of_plain rfl
  cases o with
  | none => exact .of_not_final rfl
  | some w => exact .char_seq ((has_byte_iff hk).2 rfl) (by rw [accepts_fieldE]; exact ho w rfl) (.field he (ho w rfl))

end Opt

section HostPort

variable {h p q w : List UInt8} {port : Option (List UInt8)}

theorem cut_host (hh : hostE.accepts h = true) (hp : ∀ w ∈ port, portE.accepts w = true) :
    Cut hostField portOpt h (optText 58 port) where
  left := by rwa [hostField, accepts_fieldE]
  right := accepts_opt (by decide) hp
  before := by
    rintro p c q rfl hacc
    rw [Bool.eq_false_iff]
    intro hs
    obtain rfl : c = 58 := (starts_optE (by decide)).1 hs
    rw [hostField, accepts_fieldE, host_before hh] at hacc
    cases hacc
  after := by
    intro c hc
    have hafter := host_after hh
    cases port with
    | none => cases hc
    | some w =>
      cases hc
      cases h with
      | nil => exact reach_fieldE hafter
      | cons d h => exact reach_fieldE hafter

theorem accepts_hostPort (hh : hostE.accepts h = true) (hp : ∀ w ∈ port, portE.accepts w = true) :
    hostPort.accepts (h ++ optText 58 port) = true :=
  accepts_seq_iff.2 ⟨_, _, rfl, (cut_host hh hp).left, (cut_host hh hp).right⟩

def hostScript (h : List UInt8) (port : Option (List UInt8)) : List (Nat × Nat × UriAction) :=
  fieldScript 4 .markh .saveHost h ++ shift h.length (optScript 6 .markh .savePort port)

theorem script_host (hh : hostE.accepts h = true) (hp : ∀ w ∈ port, portE.accepts w = true) :
    Script hostPort (h ++ optText 58 port) 4 8 (hostScript h port) :=
  .seq (cut_host hh hp) (.field (by decide) hh) (script_opt (by decide) rfl hp) (by decide) (by decide)

/-- The transitions of a host and a port, also of one that is given up. -/
theorem carries_hostPort : Carries x hostPort p c ↔ (p = [] ∧ hostE.starts c = true ∧ x = (4, .markh)) ∨
    (c = 58 ∧ hostE.accepts p = true ∧ (x = (5, .saveHost) ∨ p = [] ∧ x = (4, .markh))) ∨
      ∃ q, p = q ++ [58] ∧ hostE.accepts q = true ∧ portE.starts c = true ∧ x = (6, .markh) := by
  have hplain : hostE.plain = true := by decide
  have hc : Carries x hostField p c ↔ p = [] ∧ hostE.starts c = true ∧ x = (4, .markh) := by
    simp [hostField, fieldE, carries_leaving, carries_entering, not_carries_of_plain hplain]
  have hl : Leaves x hostField p ↔ hostE.accepts p = true ∧ (x = (5, .saveHost) ∨ p = [] ∧ x = (4, .markh)) := by
    simp only [hostField, fieldE, leaves_leaving, leaves_entering, not_leaves_of_plain hplain,
      accepts_entering, false_or,
      List.mem_singleton, and_or_left]
    rw [or_comm]
    refine or_congr_right ?_
    constructor
    · rintro ⟨hp, -, hx⟩
      exact ⟨by rw [hp, accepts_nil]; decide, hp, hx⟩
    · rintro ⟨-, hp, hx⟩
      exact ⟨hp, by decide, hx⟩
  have hport : ∀ v, Carries x portOpt v c ↔ v = [58] ∧ portE.starts c = true ∧ x = (6, .markh) := by
    intro v
    have h1 : ∀ v, ¬ Carries x (.char (.byte 58)) v c := fun v => not_carries_of_plain rfl
    have h2 : ¬ Leaves x (.char (.byte 58)) v := not_leaves_of_plain rfl
    have h3 : ¬ Carries x .eps v c := not_carries_of_plain rfl
    have h4 : ∀ v, ¬ Carries x portE v c := fun v => not_carries_of_plain rfl
    simp only [portOpt, optE, carries_alt, carries_seq, h1, h2, h3, h4, false_or, or_false, false_and, accepts_char,
      has_byte_iff (show 58 < 256 by decide), fieldE, carries_leaving, carries_entering, List.mem_singleton]
    constructor
    · rintro ⟨_, _, rfl, ⟨_, rfl, rfl⟩, rfl, hs, hx⟩
      exact ⟨rfl, hs, hx⟩
    · rintro ⟨rfl, hs, hx⟩
      exact ⟨[58], [], rfl, ⟨58, rfl, rfl⟩, rfl, hs, hx⟩
  rw [hostPort, carries_seq, hc, hl, portOpt, starts_optE (by decide), ← portOpt]
  refine or_congr_right (or_congr ?_ ?_)
  · rw [and_comm]
    rfl
  · simp only [hport, hostField, accepts_fieldE]
    constructor
    · rintro ⟨u, _, rfl, hu, rfl, hs, hx⟩
      exact ⟨u, rfl, hu, hs, hx⟩
    · rintro ⟨u, rfl, hu, hs, hx⟩
      exact ⟨u, _, rfl, hu, rfl, hs, hx⟩

end HostPort

/-! ## Userinfo -/

section Userinfo

variable {u h : List UInt8} {port : Option (List UInt8)}

set_option maxRecDepth 10000 in
theorem starts_portE {d : UInt8} : portE.starts d = true ↔ 48 ≤ d ∧ d ≤ 57 := by
  revert d
  apply forall_byte
  decide

theorem starts_host_of_userinfo (hc : userinfoE.starts c = true) (h58 : c ≠ 58) : hostE.starts c = true := by
  obtain ⟨e, h1, h2, -⟩ := userinfoE_eq
  rw [h1, starts_star, starts_alt, starts_char, Bool.or_eq_true, has_byte_iff (by decide)] at hc
  rw [hostE_eq, starts_alt, h2, starts_star, hc.resolve_right h58, Bool.or_true]

/-- What is done along userinfo on behalf of a host and a port. -/
def attempts (u : List UInt8) : List (Nat × Nat × UriAction) :=
  (if u = [] then [] else [(0, 4, .markh)]) ++
    match u.dropWhile (· ≠ 58) with
    | [] => []
    | _ :: s =>
      ((u.takeWhile (· ≠ 58)).length, 5, .saveHost) ::
        if (s.head?.map portE.starts).getD false then [((u.takeWhile (· ≠ 58)).length + 1, 6, .markh)] else []

theorem dropWhile_of_not_mem (h : 58 ∉ u) : u.dropWhile (· ≠ 58) = [] := by
  rw [List.dropWhile_eq_nil_iff]
  intro c hc
  simpa using fun h58 : c = 58 => h (h58 ▸ hc)

theorem while_append {r s : List UInt8} (h : 58 ∉ r) :
    (r ++ 58 :: s).dropWhile (· ≠ 58) = 58 :: s ∧ (r ++ 58 :: s).takeWhile (· ≠ 58) = r := by
  have hall : ∀ c ∈ r, decide (c ≠ 58) = true := fun c hc => by
    simpa using fun h58 : c = 58 => h (h58 ▸ hc)
  rw [List.dropWhile_append_of_pos hall, List.takeWhile_append_of_pos hall]
  simp

theorem attempts_of_not_mem (h : 58 ∉ u) : attempts u = if u = [] then [] else [(0, 4, .markh)] := by
  rw [attempts, dropWhile_of_not_mem h, List.append_nil]

theorem attempts_append {r s : List UInt8} (h : 58 ∉ r) : attempts (r ++ 58 :: s) =
    (0, 4, .markh) :: (r.length, 5, .saveHost) ::
      if (s.head?.map portE.starts).getD false then [(r.length + 1, 6, .markh)] else [] := by
  rw [attempts, if_neg (by simp), (while_append h).1, (while_append h).2]
  rfl

theorem mem_attempts (hu : userinfoE.accepts u = true) : (i, x) ∈ attempts u ↔
    ∃ p c q, u = p ++ c :: q ∧ p.length = i ∧ Carries x hostPort p c := by
  simp only [carries_hostPort]
  by_cases h58 : 58 ∈ u
  · obtain ⟨r, s, rfl, hr⟩ := List.eq_append_cons_of_mem h58
    rw [attempts_append hr]
    constructor
    · intro h
      rcases List.mem_cons.1 h with h | h
      · -- the mark at the start, of a host that may be empty
        obtain ⟨rfl, rfl⟩ := Prod.mk.inj h
        cases r with
        | nil => exact ⟨[], 58, s, rfl, rfl, .inr (.inl ⟨rfl, by rw [accepts_nil]; decide, .inr ⟨rfl, rfl⟩⟩)⟩
        | cons d r =>
          refine ⟨[], d, r ++ 58 :: s, rfl, rfl, .inl ⟨rfl, starts_host_of_userinfo (starts_of_accepts hu) ?_, rfl⟩⟩
          exact fun hd => hr (hd ▸ List.mem_cons_self ..)
      · rcases List.mem_cons.1 h with h | h
        · obtain ⟨rfl, rfl⟩ := Prod.mk.inj h
          exact ⟨r, 58, s, rfl, rfl, .inr (.inl ⟨rfl, (host_in_userinfo hu).2 hr, .inl rfl⟩)⟩
        · cases s with
          | nil => cases h
          | cons d s =>
            split at h
            · rename_i hd
              obtain ⟨rfl, rfl⟩ := Prod.mk.inj (List.mem_singleton.1 h)
              exact ⟨r ++ [58], d, s, by simp, by simp, .inr (.inr ⟨r, rfl, (host_in_userinfo hu).2 hr, hd, rfl⟩)⟩
            · cases h
    · rintro ⟨p, c, q, hpq, rfl, ⟨rfl, -, rfl⟩ | ⟨rfl, hp, hx⟩ | ⟨p, rfl, hp, hd, rfl⟩⟩
      · exact List.mem_cons_self ..
      · obtain ⟨rfl, rfl⟩ := Separators.first_unique hpq hr ((host_in_userinfo (hpq ▸ hu)).1 hp)
        rcases hx with rfl | ⟨rfl, rfl⟩
        · exact List.mem_cons_of_mem _ (List.mem_cons_self ..)
        · exact List.mem_cons_self ..
      · rw [List.append_assoc, List.singleton_append] at hpq
        obtain ⟨rfl, rfl⟩ := Separators.first_unique hpq hr ((host_in_userinfo (hpq ▸ hu)).1 hp)
        refine List.mem_cons_of_mem _ (List.mem_cons_of_mem _ ?_)
        rw [if_pos (by simpa using hd), List.length_append]
        exact List.mem_singleton_self _
  · rw [attempts_of_not_mem h58]
    constructor
    · intro h
      cases u with
      | nil => cases h
      | cons c u =>
        obtain ⟨rfl, rfl⟩ := Prod.mk.inj (List.mem_singleton.1 h)
        refine ⟨[], c, u, rfl, rfl, .inl ⟨rfl, starts_host_of_userinfo (starts_of_accepts hu) ?_, rfl⟩⟩
        exact fun hc => h58 (hc ▸ List.mem_cons_self ..)
    · rintro ⟨p, c, q, rfl, rfl, ⟨rfl, -, rfl⟩ | ⟨rfl, -⟩ | ⟨p, rfl, -⟩⟩
      · rw [if_neg (by simp)]
        exact List.mem_singleton_self _
      · exact absurd (by simp) h58
      · exact absurd (by simp) h58

end Userinfo

/-! ## The authority -/

section Authority

variable {u h : List UInt8} {userinfo port : Option (List UInt8)}

theorem sorted_attempts (u : List UInt8) : (attempts u).Pairwise Earlier := by
  by_cases h58 : 58 ∈ u
  · obtain ⟨r, s, rfl, hr⟩ := List.eq_append_cons_of_mem h58
    rw [attempts_append hr]
    split <;> simp [Earlier] <;> omega
  · rw [attempts_of_not_mem h58]
    split <;> simp

theorem attempts_bounds (hu : userinfoE.accepts u = true) {y : Nat × Nat × UriAction} (hy : y ∈ attempts u) :
    y.1 < u.length ∧ 3 ≤ y.2.1 ∧ y.2.1 < 8 := by
  obtain ⟨p, c, q, rfl, hp, hx⟩ := (mem_attempts hu).1 hy
  have hnum : ∀ {k : Nat} {a : UriAction}, y.2 = (k, a) → y.2.1 = k := fun h => congrArg Prod.fst h
  refine ⟨by simp [← hp], ?_⟩
  rcases carries_hostPort.1 hx with ⟨-, -, h⟩ | ⟨-, -, h | ⟨-, h⟩⟩ | ⟨-, -, -, -, h⟩ <;> rw [hnum h] <;> decide

/-- Nothing of a host is done from the `@` on. -/
theorem event_hostPort_at (hu : userinfoE.accepts u = true) (h : List UInt8) :
    Event x hostPort (u ++ 64 :: h) i ↔ (i, x) ∈ attempts u := by
  have hdead : ∀ q, hostPort.reach (u ++ 64 :: q) = [] := fun q => reach_eq_nil (by decide)
  rw [mem_attempts hu]
  constructor
  · rintro (⟨p, c, q, hw, rfl, hx⟩ | ⟨-, y, hy, -⟩)
    · have hne := reach_ne_nil_of_carries hx
      rcases List.append_eq_append_iff.1 hw with ⟨a, rfl, ha⟩ | ⟨a, rfl, ha⟩
      · exfalso
        refine hne ?_
        cases a with
        | nil =>
          obtain ⟨rfl, -⟩ := List.cons.inj ha
          simpa using hdead []
        | cons d a =>
          obtain ⟨rfl, -⟩ := List.cons.inj ha
          simpa using hdead (a ++ [c])
      · cases a with
        | nil =>
          obtain ⟨rfl, -⟩ := List.cons.inj ha
          rw [List.append_nil] at hdead
          exact absurd (hdead []) hne
        | cons d a =>
          obtain ⟨rfl, -⟩ := List.cons.inj ha
          exact ⟨p, c, a, rfl, rfl, hx⟩
    · rw [hdead] at hy
      cases hy
  · rintro ⟨p, c, q, rfl, rfl, hx⟩
    exact .inl ⟨p, c, q ++ 64 :: h, by simp, rfl, hx⟩

def userinfoText : Option (List UInt8) → List UInt8
  | none => []
  | some u => u ++ [64]

/-- `[userinfo@]host[:port]`. -/
def authorityText (userinfo : Option (List UInt8)) (h : List UInt8) (port : Option (List UInt8)) : List UInt8 :=
  userinfoText userinfo ++ (h ++ optText 58 port)

def authorityScript (userinfo : Option (List UInt8)) (h : List UInt8) (port : Option (List UInt8)) :
    List (Nat × Nat × UriAction) :=
  (0, 2, .markh) ::
    match userinfo with
    | none => hostScript h port
    | some u => attempts u ++ (u.length, 3, .saveUserinfo) :: shift u.length (shift 1 (hostScript h port))

theorem starts_at : (Expr.seq (.char (.byte 64)) hostPort).starts c = true ↔ c = 64 := by
  simp only [starts_seq, starts_char, final, Bool.false_and, Bool.or_false]
  exact has_byte_iff (by decide)

theorem accepts_at (hh : hostE.accepts h = true) (hp : ∀ w ∈ port, portE.accepts w = true) :
    (Expr.seq (.char (.byte 64)) hostPort).accepts (64 :: (h ++ optText 58 port)) = true :=
  accepts_seq_iff.2 ⟨[64], _, rfl, by decide, accepts_hostPort hh hp⟩

theorem cut_at (hu : userinfoE.accepts u = true) (hh : hostE.accepts h = true)
    (hp : ∀ w ∈ port, portE.accepts w = true) :
    Cut userinfoField (.seq (.char (.byte 64)) hostPort) u (64 :: (h ++ optText 58 port)) :=
  .of_disjoint (by rwa [userinfoField, accepts_leaving]) (accepts_at hh hp) fun c hc => by
    rw [starts_at.1 hc]
    decide

theorem accepts_authority (hu : ∀ w ∈ userinfo, userinfoE.accepts w = true) (hh : hostE.accepts h = true)
    (hp : ∀ w ∈ port, portE.accepts w = true) : authorityE.accepts (authorityText userinfo h port) = true := by
  have hcut := cut_host hh hp
  have hopt : userinfoOpt.accepts (userinfoText userinfo) = true := by
    rw [userinfoOpt, accepts_alt_iff]
    cases userinfo with
    | none => exact .inr (accepts_eps.2 rfl)
    | some u =>
      exact .inl (accepts_seq_iff.2 ⟨u, [64], rfl, by rw [userinfoField, accepts_leaving]; exact hu u rfl, by decide⟩)
  rw [authorityE, accepts_entering, authorityText, ← List.append_assoc]
  exact accepts_seq_iff.2 ⟨_, _, rfl, accepts_seq_iff.2 ⟨_, _, rfl, hopt, hcut.left⟩, hcut.right⟩

theorem event_authority {w : List UInt8} : Event x (.seq (.seq userinfoOpt hostField) portOpt) w i ↔
    Event x (.seq userinfoField (.seq (.char (.byte 64)) hostPort)) w i ∨ Event x hostPort w i := by
  rw [event_assoc, ← hostPort, userinfoOpt, event_alt_seq, event_assoc, event_eps_seq]

theorem script_authority (hu : ∀ w ∈ userinfo, userinfoE.accepts w = true) (hh : hostE.accepts h = true)
    (hp : ∀ w ∈ port, portE.accepts w = true) :
    Script authorityE (authorityText userinfo h port) 2 8 (authorityScript userinfo h port) := by
  have hacc := accepts_authority hu hh hp
  rw [authorityE, accepts_entering] at hacc
  refine .entering ?_ hacc (by decide)
  have hhost := script_host hh hp
  cases userinfo with
  | none =>
    refine (hhost.mono (show 3 ≤ 4 by decide) le_rfl).of_event_iff fun i x => event_authority.trans (or_iff_right ?_)
    intro hev
    -- there is no `@`, so nothing comes of the userinfo
    have hat : ∀ u c v, authorityText none h port = u ++ c :: v → userinfoField.accepts u = true →
        (Expr.seq (.char (.byte 64)) hostPort).starts c = false := by
      intro u c v hw _
      rw [Bool.eq_false_iff]
      intro hs
      have hread := reads_of_accepts (accepts_hostPort hh hp) c (by
        rw [show h ++ optText 58 port = u ++ c :: v from hw]
        simp)
      rw [starts_at.1 hs] at hread
      revert hread
      decide
    obtain ⟨p, c, q, -, -, hx⟩ := event_seq_of_not_starts (fun _ => rfl) hat hev
    rw [userinfoField, carries_leaving] at hx
    exact not_carries_of_plain rfl hx
  | some u =>
    have hu := hu u rfl
    have hplain : Script userinfoE u 3 3 [] := .of_plain rfl
    have hfield : Script userinfoField u 3 4 [(u.length, 3, .saveUserinfo)] := hplain.leaving hu le_rfl
    have hrest := Script.seq (cut_at hu hh hp) hfield (.char_seq (by decide) (accepts_hostPort hh hp) hhost) (by decide)
      (by decide)
    have htext : authorityText (some u) h port = u ++ 64 :: (h ++ optText 58 port) := by
      rw [authorityText, userinfoText, List.append_assoc]
      rfl
    rw [htext]
    exact
      { mem := fun i x => by
          rw [event_authority, event_hostPort_at hu, or_comm, List.mem_append]
          exact or_congr_right (hrest.mem i x)
        sorted := by
          refine List.pairwise_append.2 ⟨sorted_attempts u, hrest.sorted, ?_⟩
          rintro y hy ⟨i, x⟩ hz
          have hplace := (attempts_bounds hu hy).1
          rcases List.mem_cons.1 hz with hz | hz
          · cases hz
            exact .inl hplace
          · obtain ⟨j, rfl, -⟩ := mem_shift.1 hz
            exact .inl (hplace.trans_le (Nat.le_add_right _ _))
        place := fun y hy => by
          rcases List.mem_append.1 hy with hy | hy
          · rw [List.length_append]
            exact ((attempts_bounds hu hy).1.le).trans (Nat.le_add_right _ _)
          · exact hrest.place y hy
        number := fun y hy => by
          rcases List.mem_append.1 hy with hy | hy
          · exact (attempts_bounds hu hy).2
          · exact hrest.number y hy }

end Authority

/-! ## The whole text -/

/-- A text of the rule. -/
def OfRule (r : Rule UriAction) (w : List UInt8) : Prop := (r 0).1.accepts w = true

instance {r : Rule UriAction} {w : List UInt8} : Decidable (OfRule r w) := inferInstanceAs (Decidable (_ = true))

/-- The components of a URI, each drawn from its rule. -/
structure Components where
  scheme : List UInt8
  userinfo : Option (List UInt8)
  host : List UInt8
  port : Option (List UInt8)
  path : List UInt8
  query : Option (List UInt8)
  fragment : Option (List UInt8)
  ofScheme : OfRule schemeText scheme
  ofUserinfo : ∀ w ∈ userinfo, OfRule UriGrammar.userinfo w
  ofHost : OfRule UriGrammar.host host
  ofPort : ∀ w ∈ port, OfRule UriGrammar.port w ∧ w.length ≤ 5
  ofPath : OfRule UriGrammar.path path ∧ (path = [] ∨ path.head? = some 47)
  ofQuery : ∀ w ∈ query, OfRule tail w
  ofFragment : ∀ w ∈ fragment, OfRule tail w

namespace Components

variable (k : Components)

def authority : List UInt8 := authorityText k.userinfo k.host k.port

/-- `//authority path`. -/
def hier : List UInt8 := 47 :: 47 :: (k.authority ++ k.path)

/-- `scheme://[userinfo@]host[:port]path[?query][#fragment]`. -/
def text : List UInt8 := (k.scheme ++ 58 :: k.hier) ++ optText 63 k.query ++ optText 35 k.fragment

def script : List (Nat × Nat × UriAction) :=
  fieldScript 0 .marku .saveScheme k.scheme ++
    shift k.scheme.length (shift 1 (shift 1 (shift 1
      (authorityScript k.userinfo k.host k.port ++ shift k.authority.length
        (fieldScript 8 .markh .savePath k.path))))) ++
    shift (k.scheme ++ 58 :: k.hier).length (optScript 10 .marku .saveQuery k.query) ++
    shift ((k.scheme ++ 58 :: k.hier) ++ optText 63 k.query).length (optScript 12 .marku .saveFragment k.fragment)

set_option maxRecDepth 10000 in
/-- A path that begins with a slash is one of the authority. -/
theorem accepts_path : pathE.accepts k.path = true := by
  obtain ⟨hpath, hform⟩ := k.ofPath
  have hslash : ∀ {e : Expr UriAction}, e.accepts k.path = true → e.final = false → e.starts 47 = false → False := by
    intro e he hfin hs
    rcases hform with h | h
    · rw [h, accepts_nil, hfin] at he
      cases he
    · cases hp : k.path with
      | nil =>
        rw [hp] at h
        cases h
      | cons c p =>
        rw [hp] at h he
        cases h
        rw [starts_of_accepts he] at hs
        cases hs
  have hsplit : ((pathAbempty 0).1.accepts k.path = true ∨ (pathAbsolute 0).1.accepts k.path = true) ∨
      k.path = [] := by
    rcases accepts_alt hpath with h | h
    · rcases accepts_alt h with h | h
      · rcases accepts_alt h with h | h
        · exact .inl (accepts_alt h)
        · exact (hslash h (by decide) (by decide)).elim
      · exact (hslash h (by decide) (by decide)).elim
    · exact .inr (accepts_eps.1 h)
  rcases hsplit with (h | h) | h
  · exact h
  · -- `"/" (segment_nz ("/" segment)*)?`
    obtain ⟨a, v, hv, ha, htail⟩ := accepts_seq_iff.1 h
    rw [hv]
    rcases accepts_alt htail with htail | hnil
    · obtain ⟨_, t, rfl, hseg, ht⟩ := accepts_seq_iff.1 htail
      obtain ⟨b, r, rfl, hb, hr⟩ := accepts_seq_iff.1 hseg
      have hne : b ≠ [] := by
        rintro rfl
        rw [accepts_nil] at hb
        revert hb
        decide
      rw [← List.append_assoc]
      exact accepts_seq_iff.2 ⟨_, t, rfl, accepts_alt_iff.2 (.inl (accepts_seq_iff.2 ⟨a, _, rfl, ha,
        accepts_star_append hb hne hr⟩)), ht⟩
    · rw [accepts_eps.1 hnil]
      exact accepts_seq_iff.2
        ⟨a, [], rfl, accepts_alt_iff.2 (.inl (accepts_seq_iff.2 ⟨a, [], (List.append_nil a).symm, ha,
        by rw [accepts_nil]; rfl⟩)), by rw [accepts_nil]; rfl⟩
  · rw [h]
    decide

set_option maxRecDepth 10000 in
theorem starts_path (h : pathField.starts c = true) : c = 47 := by
  rw [pathField, fieldE, starts_leaving, starts_entering] at h
  revert c
  apply forall_byte
  decide

theorem accepts_port : ∀ w ∈ k.port, portE.accepts w = true := fun w hw => (k.ofPort w hw).1

theorem cut_path : Cut authorityE pathField k.authority k.path :=
  .of_disjoint (accepts_authority k.ofUserinfo k.ofHost k.accepts_port)
    (by rw [pathField, accepts_fieldE]; exact k.accepts_path) fun c hc => by
      rw [starts_path hc]
      decide

theorem accepts_rest : (Expr.seq authorityE pathField).accepts (k.authority ++ k.path) = true :=
  accepts_seq_iff.2 ⟨_, _, rfl, k.cut_path.left, k.cut_path.right⟩

theorem script_rest : Script (.seq authorityE pathField) (k.authority ++ k.path) 2 10
    (authorityScript k.userinfo k.host k.port ++ shift k.authority.length (fieldScript 8 .markh .savePath k.path)) :=
  .seq k.cut_path (script_authority k.ofUserinfo k.ofHost k.accepts_port) (.field (by decide) k.accepts_path)
    (by decide)
    (by decide)

theorem accepts_slash {e : Expr UriAction} {w : List UInt8} (h : e.accepts w = true) :
    (Expr.seq (.char (.byte 47)) e).accepts (47 :: w) = true :=
  accepts_seq_iff.2 ⟨[47], w, rfl, by decide, h⟩

theorem accepts_hier : hierE.accepts k.hier = true := by
  rw [hierE, accepts_alt_iff, accepts_alt_iff, accepts_alt_iff]
  refine .inl (.inl (.inl ?_))
  refine accepts_seq_iff.2 ⟨47 :: 47 :: k.authority, k.path, rfl, ?_, k.cut_path.right⟩
  exact accepts_seq_iff.2 ⟨[47, 47], k.authority, rfl, by decide, k.cut_path.left⟩

theorem script_hier : Script hierE k.hier 2 10 (shift 1 (shift 1 (authorityScript k.userinfo k.host k.port ++
    shift k.authority.length (fieldScript 8 .markh .savePath k.path)))) := by
  have hslash : (ByteSet.byte 47).has 47 = true := by decide
  refine .alt_left (.alt_left (.alt_left (.assoc (.assoc ?_)) fun i x => not_event_of_plain (by decide))
    fun i x => not_event_of_plain (by decide)) fun i x => not_event_of_plain rfl
  exact .char_seq hslash (accepts_slash k.accepts_rest) (.char_seq hslash k.accepts_rest k.script_rest)

/-! ## The scheme and the parts after the path -/

theorem accepts_scheme : schemeE.accepts k.scheme = true := by
  rw [schemeE, accepts_fieldE]
  exact k.ofScheme

theorem cut_scheme : Cut schemeE (.seq (.char (.byte 58)) hierE) k.scheme (58 :: k.hier) :=
  .of_disjoint k.accepts_scheme (accepts_seq_iff.2 ⟨[58], k.hier, rfl, by decide, k.accepts_hier⟩) fun c hc => by
    simp only [starts_seq, starts_char, final, Bool.false_and, Bool.or_false] at hc
    rw [(has_byte_iff (by decide)).1 hc]
    decide

theorem accepts_absolute :
    (Expr.seq (.seq schemeE (.char (.byte 58))) hierE).accepts (k.scheme ++ 58 :: k.hier) = true :=
  accepts_seq_iff.2 ⟨k.scheme ++ [58], k.hier, by simp,
    accepts_seq_iff.2 ⟨k.scheme, [58], rfl, k.accepts_scheme, by decide⟩, k.accepts_hier⟩

theorem cut_opt {e f : Expr UriAction} {n : Nat} {w : List UInt8} {o : Option (List UInt8)} {a b : UriAction}
    {m : Nat} (hn : n < 256) (he : e.accepts w = true) (ho : ∀ v ∈ o, f.accepts v = true)
    (hr : e.reads (UInt8.ofNat n) = false) : Cut e (optE n (fieldE m a b f)) w (optText (UInt8.ofNat n) o) :=
  .of_disjoint he (accepts_opt hn ho) fun c hc => by
    rw [(starts_optE hn).1 hc]
    exact hr

theorem cut_query : Cut (.seq (.seq schemeE (.char (.byte 58))) hierE) queryOpt (k.scheme ++ 58 :: k.hier)
    (optText 63 k.query) :=
  cut_opt (by decide) k.accepts_absolute k.ofQuery (by decide)

theorem accepts_before_fragment : (Expr.seq (.seq (.seq schemeE (.char (.byte 58))) hierE) queryOpt).accepts
    ((k.scheme ++ 58 :: k.hier) ++ optText 63 k.query) = true :=
  accepts_seq_iff.2 ⟨_, _, rfl, k.cut_query.left, k.cut_query.right⟩

theorem cut_fragment : Cut (.seq (.seq (.seq schemeE (.char (.byte 58))) hierE) queryOpt) fragmentOpt
    ((k.scheme ++ 58 :: k.hier) ++ optText 63 k.query) (optText 35 k.fragment) :=
  cut_opt (by decide) k.accepts_before_fragment k.ofFragment (by decide)

theorem accepts_uri : uriE.accepts k.text = true :=
  accepts_seq_iff.2 ⟨_, _, rfl, k.cut_fragment.left, k.cut_fragment.right⟩

theorem script_uri : Script uriE k.text 0 14 k.script :=
  .seq k.cut_fragment
    (.seq k.cut_query
      (.assoc (.seq k.cut_scheme (.field (by decide) k.ofScheme) (.char_seq (by decide) k.accepts_hier k.script_hier)
        (by decide) (by decide)))
      (script_opt (by decide) (by decide) k.ofQuery) (by decide) (by decide))
    (script_opt (by decide) (by decide) k.ofFragment) (by decide) (by decide)

/-! ## A relative reference -/

theorem scheme_reads (hc : c ∈ k.scheme) : (schemeText 0).1.reads c = true := reads_of_accepts k.ofScheme c hc

theorem scheme_ne_nil : k.scheme ≠ [] := by
  intro h
  have hacc := k.ofScheme
  rw [OfRule, h, accepts_nil] at hacc
  revert hacc
  decide

/-- A byte of the text up to the colon. -/
theorem scheme_or_colon {u v : List UInt8} (hw : k.text = u ++ c :: v) :
    c ∈ k.scheme ∨ c = 58 ∨ ∃ q, u = k.scheme ++ 58 :: q := by
  rw [text, List.append_assoc, List.append_assoc, List.cons_append] at hw
  rcases List.append_eq_append_iff.1 hw with ⟨a, rfl, ha⟩ | ⟨a, ha, hv⟩
  · cases a with
    | nil =>
      obtain ⟨rfl, -⟩ := List.cons.inj ha
      exact .inr (.inl rfl)
    | cons b a =>
      obtain ⟨rfl, -⟩ := List.cons.inj ha
      exact .inr (.inr ⟨a, rfl⟩)
  · cases a with
    | nil =>
      obtain ⟨rfl, -⟩ := List.cons.inj hv
      exact .inr (.inl rfl)
    | cons b a =>
      obtain ⟨rfl, -⟩ := List.cons.inj hv
      exact .inl (ha ▸ by simp)

theorem event_relative : ¬ Event x relativeE k.text i := by
  obtain ⟨a, q, f, heq⟩ := relativeE_eq
  rw [heq, event_assoc]
  intro hev
  obtain ⟨d, s, hs⟩ := List.exists_cons_of_ne_nil k.scheme_ne_nil
  have hread : ∀ {b}, (schemeText 0).1.reads b = false → b ∉ k.scheme := fun hb hmem => by
    rw [k.scheme_reads hmem] at hb
    cases hb
  have h47 : 47 ∉ k.scheme := hread (by decide)
  have hdead : ∀ v, (relativePartE a).reach (k.scheme ++ 58 :: v) = [] := fun v => reach_relativePart h47
  have hrest : ∀ {c}, (Expr.seq (optE 63 q) (optE 35 f)).starts c = true → c = 63 ∨ c = 35 := fun hc => by
    rw [starts_seq, Bool.or_eq_true, Bool.and_eq_true, starts_optE (by decide), starts_optE (by decide)] at hc
    exact hc.imp_right And.right
  have hall : (relativePartE a).accepts k.text ≠ true := fun hacc => by
    refine reach_ne_nil_of_accepts hacc ?_
    rw [text, List.append_assoc, List.append_assoc]
    exact hdead _
  have hnot : ∀ u c v, k.text = u ++ c :: v → (relativePartE a).accepts u = true →
      (Expr.seq (optE 63 q) (optE 35 f)).starts c = false := by
    intro u c v hw hacc
    rw [Bool.eq_false_iff]
    intro hc
    have hc := hrest hc
    rcases k.scheme_or_colon hw with hmem | rfl | ⟨t, rfl⟩
    · rcases hc with rfl | rfl <;> exact hread (by decide) hmem
    · rcases hc with h | h <;> cases h
    · exact reach_ne_nil_of_accepts hacc (hdead t)
  obtain ⟨u, c, v, hw, -, hx⟩ := event_seq_of_not_starts (fun hacc => absurd hacc hall) hnot hev
  refine not_carries_relativePart (d := d) (fun h => h47 (hs ▸ h ▸ List.mem_cons_self ..)) ?_ hx
  have hhead : k.text.head? = some d := by rw [text, hs]; rfl
  rw [hw] at hhead
  cases u <;> exact hhead

/-- What the machine does along the text. -/
theorem script_main : Script (.alt uriE relativeE) k.text 0 14 k.script :=
  .alt_left k.script_uri fun _ _ => k.event_relative

end Components

end ServerFrame.UriGrammar
