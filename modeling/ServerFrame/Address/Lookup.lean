/-
How `Address::Lookup` splits a host into a node and a service (`address.cc`), for every string. The second attempt
leaves its pointer at a colon that it does not split at; the main result says exactly for which hosts `getaddrinfo` is
called as it should be.
-/
import ServerFrame.Address.Basic
import ServerFrame.Lib.Effect
import ServerFrame.Lib.Separators
import Mathlib.Tactic.Push

namespace ServerFrame.Addresses

open Effect

/-- `sockaddr`, by its family. -/
inductive Sockaddr
  | inet (addr : SockaddrIn)
  | inet6 (addr : SockaddrIn6)
  | other (family : UInt16) (data : List UInt8)

/-- `Address` and the classes that `Create` makes of it. -/
inductive Address
  | ipv4 (a : IPv4Address)
  | ipv6 (a : IPv6Address)
  | unknown (family : UInt16) (data : List UInt8)

/-- `Address::Create(addr, addrlen)`; `none` is `nullptr`. -/
def Address.create : Option Sockaddr → Option Address
  | none => none
  | some (.inet addr) => some (.ipv4 ⟨addr⟩)
  | some (.inet6 addr) => some (.ipv6 ⟨addr⟩)
  | some (.other family data) => some (.unknown family data)

/-- `getaddrinfo(node, service, &hints, …)`: the strings up to their NUL, and the fields of `hints` that are set. -/
structure GetAddrInfo where
  node : List UInt8
  service : Option (List UInt8)
  aiFlags : Int
  aiFamily : Int
  aiSocktype : Int
  aiProtocol : Int
  deriving DecidableEq, Repr

/-- An error, or the `ai_addr` of each result. -/
abbrev GetAddrInfo.Ans (_ : GetAddrInfo) : Type := Except Int (List (Option Sockaddr))

/-- The C string at the head of the text. -/
def cstr (l : List UInt8) : List UInt8 := l.takeWhile (· ≠ 0)

/-- `memchr` from `start` to the end of the string: where `c` stands. -/
def memchr (host : List UInt8) (start : Nat) (c : UInt8) : Option Nat :=
  ((host.drop start).findIdx? (· == c)).map (start + ·)

namespace Lookup

/-- The attempt at `[node]:service`; the service is a place in the host. -/
def brackets (host : List UInt8) : List UInt8 × Option Nat :=
  if host.head? = some 91 then
    match memchr host 1 93 with
    | some endipv6 =>
      ((host.drop 1).take (endipv6 - 1), if host[endipv6 + 1]? = some 58 then some (endipv6 + 2) else none)
    | none => ([], none)
  else ([], none)

/-- The attempt at `node:service`. -/
def colon (host : List UInt8) : List UInt8 × Option Nat :=
  match memchr host 0 58 with
  | some service => if (memchr host (service + 1) 58).isNone then (host.take service, some (service + 1))
    else ([], some service)
  | none => ([], none)

/-- Both attempts, and the host itself where there is no node. -/
def split (host : List UInt8) : List UInt8 × Option Nat :=
  let (node, service) := brackets host
  let (node, service) := if node.isEmpty then colon host else (node, service)
  (if node.isEmpty then host else node, service)

/-- `Address::Lookup(result, host, family, type, protocol)`, with what it leaves in `result`. -/
def lookup (result : List (Option Address)) (host : List UInt8) (family type protocol : Int) :
    Prog GetAddrInfo GetAddrInfo.Ans (Bool × List (Option Address)) := do
  let (node, service) := split host
  let answer ← Prog.perform {
    node := cstr node
    service := service.map fun i => cstr (host.drop i)
    aiFlags := 0
    aiFamily := family
    aiSocktype := type
    aiProtocol := protocol }
  match answer with
  | .error _ => return (false, result)
  | .ok results => return (!(result ++ results.map Address.create).isEmpty, result ++ results.map Address.create)

/-- The node and the service that `getaddrinfo` is called with. -/
def args (host : List UInt8) : List UInt8 × Option (List UInt8) :=
  (cstr (split host).1, (split host).2.map fun i => cstr (host.drop i))

/-! ## Where the separators stand -/

section Memchr

variable (before : List UInt8) {x rest : List UInt8} {c : UInt8}

theorem findIdx_absent (h : c ∉ x) : x.findIdx? (· == c) = none := by
  rw [List.findIdx?_eq_none_iff]
  intro d hd
  rw [beq_eq_false_iff_ne]
  rintro rfl
  exact h hd

theorem memchr_found (h : c ∉ x) :
    memchr (before ++ (x ++ c :: rest)) before.length c = some (before.length + x.length) := by
  rw [memchr, List.drop_left, List.findIdx?_append, findIdx_absent h, List.findIdx?_cons]
  simp

theorem memchr_absent (h : c ∉ x) : memchr (before ++ x) before.length c = none := by
  rw [memchr, List.drop_left, findIdx_absent h]
  rfl

end Memchr

/-- The host begins with `x` in brackets, and goes on with `rest`. -/
def Bracketed (host x rest : List UInt8) : Prop := x ≠ [] ∧ 93 ∉ x ∧ host = 91 :: (x ++ 93 :: rest)

/-- The host is `h`, its only colon, and `s`. -/
def Named (host h s : List UInt8) : Prop := h ≠ [] ∧ 58 ∉ h ∧ 58 ∉ s ∧ host = h ++ 58 :: s

section Split

variable {host x rest h s : List UInt8}

theorem brackets_eq (hx : 93 ∉ x) : brackets (91 :: (x ++ 93 :: rest)) =
    (x, if rest.head? = some 58 then some (x.length + 3) else none) := by
  have hfound : memchr (91 :: (x ++ 93 :: rest)) 1 93 = some (1 + x.length) := memchr_found [91] hx
  have hnode : ((91 :: (x ++ 93 :: rest)).drop 1).take (1 + x.length - 1) = x := by
    rw [Nat.add_sub_cancel_left]
    exact List.take_left
  have hnext : (91 :: (x ++ 93 :: rest))[1 + x.length + 1]? = rest.head? := by
    rw [Nat.add_comm 1, List.getElem?_cons_succ, List.getElem?_append_right (by omega), Nat.add_sub_cancel_left]
    simp [List.head?_eq_getElem?]
  simp only [brackets, List.head?_cons, hfound, hnode, hnext, if_true]
  rw [show 1 + x.length + 2 = x.length + 3 by omega]

/-- Without text in brackets, the first attempt finds no node. -/
theorem brackets_empty (hno : ∀ x rest, ¬ Bracketed host x rest) : (brackets host).1 = [] := by
  by_cases hhead : host.head? = some 91
  · obtain ⟨l, rfl⟩ : ∃ l, host = 91 :: l := by
      cases host with
      | nil => cases hhead
      | cons b l => exact ⟨l, by rw [Option.some.inj hhead]⟩
    by_cases hmem : 93 ∈ l
    · obtain ⟨x, rest, rfl, hx⟩ := List.eq_append_cons_of_mem hmem
      rw [brackets_eq hx]
      by_contra hne
      exact hno x rest ⟨hne, hx, rfl⟩
    · have hnone : memchr (91 :: l) 1 93 = none := memchr_absent [91] hmem
      simp only [brackets, hnone]
      split <;> rfl
  · simp only [brackets, if_neg hhead]

theorem split_of_not_bracketed (hno : ∀ x rest, ¬ Bracketed host x rest) :
    split host = (if (colon host).1.isEmpty then host else (colon host).1, (colon host).2) := by
  simp only [split, brackets_empty hno, List.isEmpty_nil, if_true]

theorem args_bracketed (hb : Bracketed host x rest) :
    args host = (cstr x, if rest.head? = some 58 then some (cstr rest.tail) else none) := by
  obtain ⟨hne, hx, rfl⟩ := hb
  have hsplit : split (91 :: (x ++ 93 :: rest)) =
      (x, if rest.head? = some 58 then some (x.length + 3) else none) := by
    simp only [split, brackets_eq hx, List.isEmpty_eq_false_iff.2 hne, Bool.false_eq_true, if_false]
  have hdrop : (91 :: (x ++ 93 :: rest)).drop (x.length + 3) = rest.tail := by
    rw [List.drop_succ_cons, List.drop_append, List.drop_of_length_le (by omega)]
    simp
  rw [args, hsplit]
  split
  · rw [Option.map_some, hdrop]
  · rfl

theorem args_of_no_colon (hno : ∀ x rest, ¬ Bracketed host x rest) (hcolon : 58 ∉ host) :
    args host = (cstr host, none) := by
  have hnone : memchr host 0 58 = none := memchr_absent [] hcolon
  rw [args, split_of_not_bracketed hno]
  simp [colon, hnone]

/-- A host with one colon is split at it, but for the node that is not there. -/
theorem args_of_one_colon (hno : ∀ x rest, ¬ Bracketed (h ++ 58 :: s) x rest) (hh : 58 ∉ h) (hs : 58 ∉ s) :
    args (h ++ 58 :: s) = (cstr (if h = [] then h ++ 58 :: s else h), some (cstr s)) := by
  have hfound : memchr (h ++ 58 :: s) 0 58 = some (0 + h.length) := memchr_found [] hh
  have hnone : memchr (h ++ 58 :: s) (h.length + 1) 58 = none := by
    have := memchr_absent (h ++ [58]) hs
    rwa [List.length_append, List.append_assoc] at this
  have hcolon : colon (h ++ 58 :: s) = (h, some (h.length + 1)) := by
    simp [colon, hfound, hnone]
  have hdrop : (h ++ 58 :: s).drop (h.length + 1) = s := by
    rw [List.drop_append, List.drop_of_length_le (by omega), Nat.add_sub_cancel_left]
    rfl
  rw [args, split_of_not_bracketed hno, hcolon]
  simp [hdrop]

/-- With two colons the service is left at the first. -/
theorem args_of_two_colons (hno : ∀ x rest, ¬ Bracketed (h ++ 58 :: s) x rest) (hh : 58 ∉ h) (hs : 58 ∈ s) :
    args (h ++ 58 :: s) = (cstr (h ++ 58 :: s), some (cstr (58 :: s))) := by
  have hfound : memchr (h ++ 58 :: s) 0 58 = some (0 + h.length) := memchr_found [] hh
  obtain ⟨u, v, rfl, hu⟩ := List.eq_append_cons_of_mem hs
  have hagain : memchr (h ++ 58 :: (u ++ 58 :: v)) (h.length + 1) 58 = some (h.length + 1 + u.length) := by
    have := @memchr_found (h ++ [58]) u v 58 hu
    rwa [List.length_append, List.append_assoc] at this
  have hcolon : colon (h ++ 58 :: (u ++ 58 :: v)) = ([], some h.length) := by
    simp [colon, hfound, hagain]
  rw [args, split_of_not_bracketed hno, hcolon]
  simp

theorem Bracketed.unique {x' rest' : List UInt8} (hb : Bracketed host x rest) (hb' : Bracketed host x' rest') :
    x = x' ∧ rest = rest' := by
  obtain ⟨-, hx, rfl⟩ := hb
  obtain ⟨-, hx', heq⟩ := hb'
  exact Separators.first_unique (List.cons.inj heq).2 hx hx'

theorem Named.count (hn : Named host h s) : host.count 58 = 1 := by
  obtain ⟨-, hh, hs, rfl⟩ := hn
  rw [List.count_append, List.count_cons_self, List.count_eq_zero_of_not_mem hh, List.count_eq_zero_of_not_mem hs]

/-- One colon, not at the front. -/
theorem named_iff : (∃ h s, Named host h s) ↔ host.count 58 = 1 ∧ host.head? ≠ some 58 := by
  constructor
  · rintro ⟨h, s, hn⟩
    refine ⟨hn.count, ?_⟩
    obtain ⟨hne, hh, -, rfl⟩ := hn
    cases h with
    | nil => exact absurd rfl hne
    | cons b h =>
      intro hhead
      exact hh (by rw [Option.some.inj hhead]; exact List.mem_cons_self ..)
  · rintro ⟨hcount, hhead⟩
    have hmem : 58 ∈ host := List.one_le_count_iff.1 (by omega)
    obtain ⟨h, s, rfl, hh⟩ := List.eq_append_cons_of_mem hmem
    rw [List.count_append, List.count_cons_self, List.count_eq_zero_of_not_mem hh] at hcount
    refine ⟨h, s, ?_, hh, List.count_eq_zero.1 (by omega), rfl⟩
    rintro rfl
    exact hhead rfl

end Split

/-! ## What the call should be -/

/-- `[x]:s` is split into `x` and `s`, `[x]` is `x` alone, any other `h:s` with no other colon is `h` and `s`, and what
is none of these and does not begin with text in brackets is not split at all. -/
structure Right (host : List UInt8) (args : List UInt8 × Option (List UInt8)) : Prop where
  bracketed_service : ∀ x s, Bracketed host x (58 :: s) → args = (cstr x, some (cstr s))
  bracketed : ∀ x, Bracketed host x [] → args = (cstr x, none)
  named : ∀ h s, (∀ x s, ¬ Bracketed host x (58 :: s)) → (∀ x, ¬ Bracketed host x []) → Named host h s →
    args = (cstr h, some (cstr s))
  other : (∀ x rest, ¬ Bracketed host x rest) → (∀ h s, ¬ Named host h s) → args = (cstr host, none)

/-- What follows the brackets is a service or nothing, or is not cut by the only colon; and without brackets there is
no colon, or one that is not at the front. -/
structure Splits (host : List UInt8) : Prop where
  bracketed : ∀ x rest, Bracketed host x rest → rest = [] ∨ rest.head? = some 58 ∨ host.count 58 ≠ 1
  other : (∀ x rest, ¬ Bracketed host x rest) → 58 ∉ host ∨ host.count 58 = 1 ∧ host.head? ≠ some 58

section Main

variable {host x rest : List UInt8}

theorem right_of_bracketed (hb : Bracketed host x rest) :
    Right host (args host) ↔ rest = [] ∨ rest.head? = some 58 ∨ host.count 58 ≠ 1 := by
  have hargs := args_bracketed hb
  constructor
  · intro hright
    by_contra hnot
    push Not at hnot
    obtain ⟨hempty, hcolon, hcount⟩ := hnot
    have hhead : host.head? ≠ some 58 := by
      rw [hb.2.2]
      simp
    obtain ⟨h, s, hn⟩ := named_iff.2 ⟨hcount, hhead⟩
    have hcall := hright.named h s
      (fun x' s' hb' => hcolon (by rw [(hb.unique hb').2]; rfl)) (fun x' hb' => hempty (hb.unique hb').2) hn
    rw [hargs, if_neg hcolon] at hcall
    cases (Prod.mk.inj hcall).2
  · intro h
    constructor
    · rintro x' s hb'
      obtain ⟨rfl, rfl⟩ := hb.unique hb'
      rw [hargs]
      rfl
    · rintro x' hb'
      obtain ⟨rfl, rfl⟩ := hb.unique hb'
      rw [hargs]
      rfl
    · rintro h' s hservice hplain hn
      rcases h with rfl | hcolon | hcount
      · exact absurd hb (hplain x)
      · cases rest with
        | nil => cases hcolon
        | cons c rest =>
          obtain rfl : c = 58 := Option.some.inj hcolon
          exact absurd hb (hservice x rest)
      · exact absurd hn.count hcount
    · intro hno
      exact absurd hb (hno x rest)

theorem right_of_not_bracketed (hno : ∀ x rest, ¬ Bracketed host x rest) :
    Right host (args host) ↔ 58 ∉ host ∨ host.count 58 = 1 ∧ host.head? ≠ some 58 := by
  constructor
  · intro hright
    by_contra hnot
    push Not at hnot
    obtain ⟨hmem, hcount⟩ := hnot
    have hnone : ∀ h s, ¬ Named host h s := by
      intro h s hn
      obtain ⟨hone, hhead⟩ := named_iff.1 ⟨h, s, hn⟩
      exact hhead (hcount hone)
    have hcall := hright.other hno hnone
    -- With a colon in the host, the pointer is set in any case.
    obtain ⟨h, s, rfl, hh⟩ := List.eq_append_cons_of_mem hmem
    by_cases hs : 58 ∈ s
    · rw [args_of_two_colons hno hh hs] at hcall
      cases hcall
    · rw [args_of_one_colon hno hh hs] at hcall
      cases (Prod.mk.inj hcall).2
  · rintro (hcolon | hone)
    · have hargs := args_of_no_colon hno hcolon
      constructor
      · exact fun x s hb => absurd hb (hno _ _)
      · exact fun x hb => absurd hb (hno _ _)
      · rintro h s - - ⟨-, -, -, rfl⟩
        exact absurd (List.mem_append_right h (List.mem_cons_self ..)) hcolon
      · exact fun _ _ => hargs
    · obtain ⟨h, s, hn⟩ := named_iff.2 hone
      constructor
      · exact fun x s hb => absurd hb (hno _ _)
      · exact fun x hb => absurd hb (hno _ _)
      · rintro h' s' - - ⟨hne, hh, hs, rfl⟩
        rw [args_of_one_colon hno hh hs, if_neg hne]
      · exact fun _ hnone => absurd hn (hnone h s)

theorem right_iff : Right host (args host) ↔ Splits host := by
  by_cases hb : ∃ x rest, Bracketed host x rest
  · obtain ⟨x, rest, hb⟩ := hb
    rw [right_of_bracketed hb]
    constructor
    · intro h
      constructor
      · rintro x' rest' hb'
        obtain ⟨rfl, rfl⟩ := hb.unique hb'
        exact h
      · intro hno
        exact absurd hb (hno x rest)
    · intro h
      exact h.bracketed x rest hb
  · push Not at hb
    rw [right_of_not_bracketed hb]
    constructor
    · intro h
      exact ⟨fun x rest hb' => absurd hb' (hb x rest), fun _ => h⟩
    · intro h
      exact h.other hb

end Main

/-- The call of `getaddrinfo` that a program begins with. -/
def Calls {α : Type} (p : Prog GetAddrInfo GetAddrInfo.Ans α) (call : GetAddrInfo) : Prop :=
  ∃ k, p = .ask call k

theorem lookup_calls (result : List (Option Address)) (host : List UInt8) (family type protocol : Int)
    {call : GetAddrInfo} : Calls (lookup result host family type protocol) call ↔
      call = ⟨(args host).1, (args host).2, 0, family, type, protocol⟩ := by
  constructor
  · rintro ⟨k, hk⟩
    exact (Prog.ask.inj hk).1.symm
  · rintro rfl
    exact ⟨_, rfl⟩

/-- For every host, the call is the right one exactly if the host splits. -/
theorem lookup_iff (result : List (Option Address)) (host : List UInt8) (family type protocol : Int) :
    (∃ node service, Right host (node, service) ∧
      Calls (lookup result host family type protocol) ⟨node, service, 0, family, type, protocol⟩) ↔ Splits host := by
  rw [← right_iff]
  constructor
  · rintro ⟨node, service, hright, hcalls⟩
    obtain ⟨rfl, rfl, -⟩ := GetAddrInfo.mk.inj ((lookup_calls ..).1 hcalls)
    exact hright
  · intro hright
    exact ⟨_, _, hright, (lookup_calls ..).2 rfl⟩

/-- The address `::1`: the service is `::1` as well. -/
theorem loopback_not_split : ¬ ∀ (result : List (Option Address)) (host : List UInt8) (family type protocol : Int),
    ∃ node service, Right host (node, service) ∧
      Calls (lookup result host family type protocol) ⟨node, service, 0, family, type, protocol⟩ := by
  intro h
  have hsplits : Splits [58, 58, 49] := right_iff.1 <| by
    obtain ⟨node, service, hright, hcalls⟩ := h [] [58, 58, 49] 2 0 0
    obtain ⟨rfl, rfl, -⟩ := GetAddrInfo.mk.inj ((lookup_calls ..).1 hcalls)
    exact hright
  have hno : ∀ x rest, ¬ Bracketed [58, 58, 49] x rest := by
    rintro x rest ⟨-, -, heq⟩
    cases heq
  rcases hsplits.other hno with hcolon | ⟨hcount, -⟩
  · exact hcolon (List.mem_cons_self ..)
  · cases hcount

end Lookup

end ServerFrame.Addresses
