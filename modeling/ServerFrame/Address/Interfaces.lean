/-
`Address::GetInterfaceAddresses` (`address.cc`): the addresses of the interfaces of the host, by name, each with the
length of its prefix, which `CountBytes` counts out of the netmask. The list comes from `getifaddrs`, in which an
interface may be without an address; the code reads the address of every one.
-/
import ServerFrame.Address.Lookup
import ServerFrame.Address.Masks
import ServerFrame.Http.Request
import ServerFrame.Lib.Multimap

namespace ServerFrame.Addresses

open Codec (Endian)
open Http (bytes)

/-! ## Set bits -/

/-- The set bits of a number below `2 ^ w`. -/
def ones (w n : Nat) : Nat := (List.range w).countP n.testBit

theorem ones_succ (w n : Nat) : ones (w + 1) n = n % 2 + ones w (n / 2) := by
  have htail : ((List.range w).map Nat.succ).countP n.testBit = ones w (n / 2) := by
    rw [List.countP_map, ones]
    exact List.countP_congr fun i _ => by simp [Nat.testBit_succ]
  rw [ones, List.range_succ_eq_map, List.countP_cons, htail, Nat.add_comm, Nat.testBit_zero]
  rcases Nat.mod_two_eq_zero_or_one n with h | h <;> simp [h]

/-- `n & (n - 1)` clears the lowest set bit. -/
theorem ones_and_pred : ∀ {w n : Nat}, 0 < n → n < 2 ^ w → ones w (n &&& (n - 1)) + 1 = ones w n
  | 0, n, hpos, hlt => by omega
  | w + 1, n, hpos, hlt => by
    have hmod : (n &&& (n - 1)) % 2 = 0 := by
      have hand := Nat.and_mod_two_pow (a := n) (b := n - 1) (n := 1)
      rw [Nat.pow_one] at hand
      rw [hand]
      rcases Nat.mod_two_eq_zero_or_one n with h | h
      · rw [h, Nat.zero_and]
      · have : (n - 1) % 2 = 0 := by omega
        rw [this, Nat.and_zero]
    have hhalf : (n &&& (n - 1)) / 2 = n / 2 &&& ((n - 1) / 2) := Nat.and_div_two
    rw [ones_succ, ones_succ, hmod, hhalf]
    rcases Nat.mod_two_eq_zero_or_one n with h | h
    · -- the lowest set bit is a higher one
      have hpred : (n - 1) / 2 = n / 2 - 1 := by omega
      have ih := ones_and_pred (w := w) (n := n / 2) (by omega) (by rw [Nat.pow_succ] at hlt; omega)
      rw [hpred, h]
      omega
    · have hpred : (n - 1) / 2 = n / 2 := by omega
      rw [hpred, Nat.and_self, h]
      omega

theorem toNat_pred {w : Nat} {value : BitVec w} (h : value ≠ 0) :
    0 < value.toNat ∧ (value &&& (value - 1)).toNat = value.toNat &&& (value.toNat - 1) := by
  have hpos : 0 < value.toNat := Nat.pos_of_ne_zero fun hz => h (BitVec.eq_of_toNat_eq hz)
  have hw : 1 < 2 ^ w := by
    have := value.isLt
    omega
  have hone : (1 : BitVec w).toNat = 1 := by
    change 1 % 2 ^ w = 1
    exact Nat.mod_eq_of_lt hw
  refine ⟨hpos, ?_⟩
  rw [BitVec.toNat_and, BitVec.toNat_sub_of_le (BitVec.le_def.2 (by omega)), hone]

/-- `CountBytes(value)`. -/
def countBytes {w : Nat} (value : BitVec w) : Nat :=
  if h : value = 0 then 0 else countBytes (value &&& (value - 1)) + 1
termination_by value.toNat
decreasing_by
  obtain ⟨hpos, hand⟩ := toNat_pred h
  have hle : value.toNat &&& (value.toNat - 1) ≤ value.toNat - 1 := Nat.and_le_right
  omega

/-- The loop goes round once for each set bit. -/
theorem countBytes_eq {w : Nat} (value : BitVec w) : countBytes value = ones w value.toNat := by
  induction value using countBytes.induct with
  | case1 =>
    have hzero : ones w (0 : BitVec w).toNat = 0 := by
      rw [ones, List.countP_eq_zero]
      intro i _
      simp
    rw [countBytes, dif_pos rfl, hzero]
  | case2 value h ih =>
    obtain ⟨hpos, hand⟩ := toNat_pred h
    rw [countBytes, dif_neg h, ih, hand, ones_and_pred hpos value.isLt]

/-- The bits may be counted in another order. -/
theorem ones_perm {w n : Nat} {σ : Nat → Nat} (hσ : ((List.range w).map σ).Perm (List.range w)) :
    ones w n = (List.range w).countP fun i => n.testBit (σ i) := by
  rw [ones, ← hσ.countP_eq, List.countP_map]
  rfl

/-- An address of four bytes, counted in network order. -/
theorem IPv4Address.countBytes_sAddr (host : Endian) (a : IPv4Address) :
    countBytes a.addr.sAddr = (List.range 32).countP (bit host a) := by
  rw [countBytes_eq]
  cases host with
  | little =>
    have hperm : ((List.range 32).map fun i => 8 * (3 - (31 - i) / 8) + (31 - i) % 8).Perm (List.range 32) := by decide
    rw [ones_perm hperm]
    refine List.countP_congr fun i hi => ?_
    have hi : i < 32 := List.mem_range.1 hi
    have hbit : bit .little a i = (bswap32 a.addr.sAddr).getMsbD i := rfl
    rw [hbit, BitVec.getMsbD_eq_getLsbD, getLsbD_bswap32 _ (by omega)]
    simp [hi, BitVec.getLsbD]
  | big =>
    have hperm : ((List.range 32).map fun i => 31 - i).Perm (List.range 32) := by decide
    rw [ones_perm hperm]
    refine List.countP_congr fun i hi => ?_
    have hi : i < 32 := List.mem_range.1 hi
    have hbit : bit .big a i = a.addr.sAddr.getMsbD i := rfl
    rw [hbit, BitVec.getMsbD_eq_getLsbD]
    simp [hi, BitVec.getLsbD]

/-- The bytes of an address, counted one after the other. -/
def countAll (v : Vector (BitVec 8) 16) : Nat := v.toList.foldl (fun prefixLen b => prefixLen + countBytes b) 0

/-- An address of sixteen bytes, counted in network order. -/
theorem IPv6Address.countAll_s6Addr (a : IPv6Address) : countAll a.addr.s6Addr = (List.range 128).countP (bit a) := by
  have hsum : ∀ (l : List (BitVec 8)) (n : Nat), l.foldl (fun prefixLen b => prefixLen + countBytes b) n =
      n + (l.map countBytes).sum := by
    intro l
    induction l with
    | nil => exact fun n => rfl
    | cons b l ih =>
      intro n
      rw [List.foldl_cons, ih, List.map_cons, List.sum_cons, Nat.add_assoc]
  have hrange : List.range 128 = (List.range 16).flatMap fun k => (List.range 8).map fun i => 8 * k + i := by decide
  rw [countAll, hsum, Nat.zero_add, hrange, List.countP_flatMap]
  have hlist : a.addr.s6Addr.toList = (List.range 16).map fun k => if h : k < 16 then a.addr.s6Addr[k] else 0 := by
    refine List.ext_getElem (by simp) fun k h₁ h₂ => ?_
    have hk : k < 16 := by simpa using h₁
    simp [hk]
  rw [hlist, List.map_map]
  refine congrArg List.sum (List.map_congr_left fun k hk => ?_)
  have hk : k < 16 := List.mem_range.1 hk
  have hperm : ((List.range 8).map fun i => 7 - i).Perm (List.range 8) := by decide
  simp only [Function.comp_apply, dif_pos hk]
  rw [countBytes_eq, ones_perm hperm, List.countP_map]
  refine List.countP_congr fun i hi => ?_
  have hi : i < 8 := List.mem_range.1 hi
  have hdiv : (8 * k + i) / 8 = k := by omega
  have hmod : (8 * k + i) % 8 = i := by omega
  simp only [Function.comp_apply, bit, hdiv, hmod, dif_pos hk, BitVec.getMsbD_eq_getLsbD]
  simp [hi, BitVec.getLsbD]

theorem countP_lt {p n : Nat} (h : p ≤ n) : ((List.range n).countP fun i => decide (i < p)) = p := by
  have hsplit : List.range n = List.range p ++ (List.range (n - p)).map (p + ·) := by
    rw [← List.range_add, Nat.add_sub_cancel' h]
  have hlow : ((List.range p).countP fun i => decide (i < p)) = p := by
    rw [List.countP_eq_length.2 fun i hi => decide_eq_true (List.mem_range.1 hi), List.length_range]
  have hhigh : ((List.range (n - p)).map (p + ·)).countP (fun i => decide (i < p)) = 0 := by
    rw [List.countP_eq_zero]
    intro i hi
    obtain ⟨j, -, rfl⟩ := List.mem_map.1 hi
    simp
  rw [hsplit, List.countP_append, hlow, hhigh, Nat.add_zero]

/-- The prefix is counted back out of its mask. -/
theorem countP_subnetMask {α : Type} {I : IPAddress α} {p : UInt32} {a m : α} (h : I.Masked p a)
    (hp : p.toNat ≤ I.width) (hm : I.subnetMask p = .ok (some m)) :
    (List.range I.width).countP (I.bit m) = p.toNat := by
  obtain ⟨m', hm', hbit⟩ := h.subnetMask
  obtain rfl : m' = m := by simpa using hm'.symm.trans hm
  rw [← countP_lt hp]
  refine List.countP_congr fun i hi => ?_
  rw [hbit i (List.mem_range.1 hi)]

/-! ## Interfaces -/

/-- `ifa_addr` of an interface, and the netmask of its family at `ifa_netmask`. -/
inductive Ifa
  | inet (addr : SockaddrIn) (netmask : Option SockaddrIn)
  | inet6 (addr : SockaddrIn6) (netmask : Option SockaddrIn6)
  | other (family : UInt16) (h : family ≠ 2 ∧ family ≠ 10)

/-- `sa_family`. -/
def Ifa.family : Ifa → Nat
  | .inet _ _ => afInet.toNat
  | .inet6 _ _ => afInet6.toNat
  | .other family _ => family.toNat

/-- `ifaddrs`: an interface, which may be without an address. -/
structure Ifaddrs where
  name : List UInt8
  ifa : Option Ifa

/-- A null pointer has been read. -/
inductive Crash
  | nullPointer
deriving DecidableEq

namespace Ifaddrs

/-- What the loop makes of an interface. `AF_UNSPEC` is 0. -/
def entry (family : Int) (next : Ifaddrs) : Except Crash (Option (Address × Nat)) :=
  match next.ifa with
  | none => .error .nullPointer
  | some a =>
    if family ≠ 0 ∧ family ≠ a.family then .ok none
    else match a with
      | .inet _ none | .inet6 _ none => .error .nullPointer
      | .inet addr (some netmask) =>
        .ok ((Address.create (some (.inet addr))).map fun a => (a, countBytes netmask.sAddr))
      | .inet6 addr (some netmask) =>
        .ok ((Address.create (some (.inet6 addr))).map fun a => (a, countAll netmask.s6Addr))
      | .other _ _ => .ok none

end Ifaddrs

/-- The multimap of the names. -/
abbrev Found := List (List UInt8 × Address × Nat)

/-- The order of the names. -/
abbrev before (a b : List UInt8) : Prop := a < b

/-- The loop over the interfaces. -/
def collect (family : Int) : List Ifaddrs → Found → Except Crash Found
  | [], result => .ok result
  | next :: rest, result => do
    match ← next.entry family with
    | none => collect family rest result
    | some e => collect family rest (Multimap.insert before (next.name, e) result)

/-- `Address::GetInterfaceAddresses(result, family)`; `getifaddrs` may fail. -/
def getInterfaceAddresses (interfaces : Option (List Ifaddrs)) (result : Found) (family : Int) :
    Except Crash (Bool × Found) :=
  match interfaces with
  | none => .ok (false, result)
  | some ifs => do
    let result ← collect family ifs result
    return (!result.isEmpty, result)

/-- `IPv4Address()` and `IPv6Address()`. -/
def anyV4 : IPv4Address := { addr := { sinFamily := afInet, sinPort := 0, sAddr := 0, sinZero := 0 } }

def anyV6 : IPv6Address where
  addr := { sin6Family := afInet6, sin6Port := 0, sin6Flowinfo := 0, s6Addr := Vector.replicate 16 0, sin6ScopeId := 0 }

/-- `Address::GetInterfaceAddresses(result, iface, family)`. -/
def getInterfaceAddressesOf (interfaces : Option (List Ifaddrs)) (result : List (Address × Nat)) (iface : List UInt8)
    (family : Int) : Except Crash (Bool × List (Address × Nat)) :=
  if iface.isEmpty ∨ iface = bytes "*" then
    let result := if family = afInet.toNat ∨ family = 0 then result ++ [(.ipv4 anyV4, 0)] else result
    let result := if family = afInet6.toNat ∨ family = 0 then result ++ [(.ipv6 anyV6, 0)] else result
    .ok (true, result)
  else do
    let (ok, results) ← getInterfaceAddresses interfaces [] family
    if !ok then return (false, result)
    let result := result ++ (Multimap.equalRange before iface results).map Prod.snd
    return (!result.isEmpty, result)

/-! ## What is listed -/

namespace Ifaddrs

/-- The interface has an address, and a netmask where its family is asked for. -/
def Complete (family : Int) (i : Ifaddrs) : Prop :=
  match i.ifa with
  | none => False
  | some (.inet _ netmask) => family = 0 ∨ family = afInet.toNat → netmask.isSome
  | some (.inet6 _ netmask) => family = 0 ∨ family = afInet6.toNat → netmask.isSome
  | some (.other _ _) => True

/-- The address of an interface of the family, with the set bits of its netmask in network order. -/
def listed (host : Endian) (family : Int) (i : Ifaddrs) : Option (Address × Nat) :=
  match i.ifa with
  | some (.inet addr (some netmask)) =>
    if family = 0 ∨ family = afInet.toNat then
      some (.ipv4 ⟨addr⟩, (List.range 32).countP (IPv4Address.bit host ⟨netmask⟩))
    else none
  | some (.inet6 addr (some netmask)) =>
    if family = 0 ∨ family = afInet6.toNat then
      some (.ipv6 ⟨addr⟩, (List.range 128).countP (IPv6Address.bit ⟨netmask⟩))
    else none
  | none | some (.inet _ none) | some (.inet6 _ none) | some (.other _ _) => none

variable {family : Int} {i : Ifaddrs}

theorem entry_complete (host : Endian) (h : i.Complete family) : i.entry family = .ok (i.listed host family) := by
  obtain ⟨name, ifa⟩ := i
  rcases ifa with - | (⟨addr, - | netmask⟩ | ⟨addr, - | netmask⟩ | ⟨f, hf⟩)
  · exact h.elim
  · have hskip : family ≠ 0 ∧ family ≠ afInet.toNat := by
      rw [← not_or]
      exact fun hc => absurd (h hc) (by decide)
    exact if_pos hskip
  · have hcount := IPv4Address.countBytes_sAddr host ⟨netmask⟩
    by_cases hc : family = 0 ∨ family = afInet.toNat
    · have hgo : ¬ (family ≠ 0 ∧ family ≠ afInet.toNat) := fun hn => hc.elim hn.1 hn.2
      simp only [entry, listed, Ifa.family, if_neg hgo, if_pos hc, Address.create, hcount]
      rfl
    · simp only [entry, listed, Ifa.family, if_neg hc]
      exact if_pos (not_or.1 hc)
  · have hskip : family ≠ 0 ∧ family ≠ afInet6.toNat := by
      rw [← not_or]
      exact fun hc => absurd (h hc) (by decide)
    exact if_pos hskip
  · have hcount := IPv6Address.countAll_s6Addr ⟨netmask⟩
    by_cases hc : family = 0 ∨ family = afInet6.toNat
    · have hgo : ¬ (family ≠ 0 ∧ family ≠ afInet6.toNat) := fun hn => hc.elim hn.1 hn.2
      simp only [entry, listed, Ifa.family, if_neg hgo, if_pos hc, Address.create, hcount]
      rfl
    · simp only [entry, listed, Ifa.family, if_neg hc]
      exact if_pos (not_or.1 hc)
  · exact ite_self _

theorem entry_incomplete (h : ¬ i.Complete family) : i.entry family = .error .nullPointer := by
  obtain ⟨name, ifa⟩ := i
  rcases ifa with - | (⟨addr, - | netmask⟩ | ⟨addr, - | netmask⟩ | ⟨f, hf⟩)
  · rfl
  · have hgo : ¬ (family ≠ 0 ∧ family ≠ afInet.toNat) := fun hn => h fun hc => absurd hc (not_or.2 hn)
    exact if_neg hgo
  · exact absurd (fun _ => rfl) h
  · have hgo : ¬ (family ≠ 0 ∧ family ≠ afInet6.toNat) := fun hn => h fun hc => absurd hc (not_or.2 hn)
    exact if_neg hgo
  · exact absurd (fun _ => rfl) h
  · exact absurd trivial h

end Ifaddrs

section Interfaces

variable {family : Int} {ifs : List Ifaddrs}

theorem collect_error (h : ∃ i ∈ ifs, ¬ i.Complete family) (result : Found) :
    collect family ifs result = .error .nullPointer := by
  induction ifs generalizing result with
  | nil => simp at h
  | cons i ifs ih =>
    by_cases hi : i.Complete family
    · have hrest : ∃ j ∈ ifs, ¬ j.Complete family := by
        obtain ⟨j, hj, hnot⟩ := h
        rcases List.mem_cons.1 hj with rfl | hj
        · exact absurd hi hnot
        · exact ⟨j, hj, hnot⟩
      rw [collect, i.entry_complete .little hi]
      cases i.listed .little family with
      | none => exact ih hrest _
      | some e => exact ih hrest _
    · rw [collect, i.entry_incomplete hi]
      rfl

/-- The loop puts the entries of every name in the order of the interfaces. -/
theorem collect_spec (host : Endian) (h : ∀ i ∈ ifs, i.Complete family) {result : Found}
    (hresult : Multimap.Ascending before result) :
    ∃ r, collect family ifs result = .ok r ∧ Multimap.Ascending before r ∧
      r.length = result.length + (ifs.filterMap (Ifaddrs.listed host family)).length ∧
      ∀ name, r.filter (fun x => x.1 = name) = result.filter (fun x => x.1 = name) ++
        ifs.filterMap fun i => if i.name = name then (i.listed host family).map (Prod.mk name) else none := by
  induction ifs generalizing result with
  | nil => exact ⟨result, rfl, hresult, rfl, fun name => (List.append_nil _).symm⟩
  | cons i ifs ih =>
    rw [List.forall_mem_cons] at h
    rw [collect, i.entry_complete host h.1]
    cases hl : i.listed host family with
    | none =>
      obtain ⟨r, hr, hasc, hlen, hfilter⟩ := ih h.2 hresult
      refine ⟨r, hr, hasc, ?_, fun name => ?_⟩
      · rw [hlen, List.filterMap_cons_none hl]
      · rw [hfilter, List.filterMap_cons_none (by rw [hl]; exact ite_self _)]
    | some e =>
      obtain ⟨r, hr, hasc, hlen, hfilter⟩ := ih h.2 (Multimap.ascending_insert (e := (i.name, e)) hresult)
      refine ⟨r, hr, hasc, ?_, fun name => ?_⟩
      · rw [hlen, Multimap.length_insert, List.filterMap_cons_some hl, List.length_cons]
        omega
      · rw [hfilter, Multimap.filter_insert hresult, List.append_assoc]
        by_cases hname : i.name = name
        · subst hname
          rw [if_pos rfl, List.filterMap_cons_some (b := (i.name, e)) (by rw [hl, if_pos rfl]; rfl)]
          rfl
        · rw [if_neg hname, List.nil_append, List.filterMap_cons_none (by exact if_neg hname)]

/-- The addresses of an interface are those that the host lists under its name, in that order, each with the length of
its prefix; an interface without an address makes the call crash. The prefix of a mask is counted back out of it. -/
theorem interface_addresses (host : Endian) (ifs : List Ifaddrs) (result : List (Address × Nat)) {iface : List UInt8}
    (hiface : ¬ (iface.isEmpty ∨ iface = bytes "*")) (family : Int) :
    ((∃ i ∈ ifs, ¬ i.Complete family) →
      getInterfaceAddressesOf (some ifs) result iface family = .error .nullPointer) ∧
    ((∀ i ∈ ifs, i.Complete family) → getInterfaceAddressesOf (some ifs) result iface family = .ok (
      if ifs.filterMap (Ifaddrs.listed host family) = [] then (false, result)
      else
        let r := result ++ ifs.filterMap fun i => if i.name = iface then i.listed host family else none
        (!r.isEmpty, r))) ∧
    (∀ p m, p.toNat ≤ 32 → IPv4Address.subnetMask host p = .ok (some m) →
      (List.range 32).countP (IPv4Address.bit host m) = p.toNat) ∧
    ∀ p m, p.toNat ≤ 128 → IPv6Address.subnetMask p = .ok (some m) →
      (List.range 128).countP (IPv6Address.bit m) = p.toNat := by
  refine ⟨fun h => ?_, fun h => ?_, fun p m hp hm => ?_, fun p m hp hm => ?_⟩
  · unfold getInterfaceAddressesOf getInterfaceAddresses
    rw [if_neg hiface]
    dsimp only
    rw [collect_error h]
    rfl
  · obtain ⟨r, hr, hasc, hlen, hfilter⟩ := collect_spec host h (List.Pairwise.nil : Multimap.Ascending before [])
    unfold getInterfaceAddressesOf getInterfaceAddresses
    rw [if_neg hiface]
    dsimp only
    rw [hr]
    change (if !!r.isEmpty then Except.ok (false, result) else
      Except.ok (!(result ++ (Multimap.equalRange before iface r).map Prod.snd).isEmpty,
        result ++ (Multimap.equalRange before iface r).map Prod.snd)) = _
    have hnone : r.isEmpty = true ↔ ifs.filterMap (Ifaddrs.listed host family) = [] := by
      rw [List.isEmpty_iff, ← List.length_eq_zero_iff, hlen, List.length_nil, Nat.zero_add, List.length_eq_zero_iff]
    have hfound : (Multimap.equalRange before iface r).map Prod.snd =
        ifs.filterMap fun i => if i.name = iface then i.listed host family else none := by
      rw [Multimap.equalRange_eq hasc, hfilter iface, List.filter_nil, List.nil_append, List.map_filterMap]
      refine List.filterMap_congr fun i _ => ?_
      by_cases hname : i.name = iface
      · rw [if_pos hname, if_pos hname, Option.map_map]
        exact Option.map_id_apply
      · rw [if_neg hname, if_neg hname]
        rfl
    rw [hfound, Bool.not_not]
    by_cases hempty : ifs.filterMap (Ifaddrs.listed host family) = []
    · rw [if_pos (hnone.2 hempty), if_pos hempty]
    · rw [if_neg (fun he => hempty (hnone.1 he)), if_neg hempty]
  · have hlow : 2 ≤ p.toNat := by
      by_contra hlow
      obtain ⟨e, he⟩ := IPv4Address.subnetMask_fault host (p := p) (by omega)
      rw [he] at hm
      cases hm
    exact countP_subnetMask (IPv4Address.masked hp hlow m) hp hm
  · have hhigh : p.toNat ≤ 127 := by
      by_contra hhigh
      rw [IPv6Address.subnetMask_fault (p := p) (by omega)] at hm
      cases hm
    exact countP_subnetMask (IPv6Address.masked hhigh m) hp hm

/-- The loopback interface, behind one of another family. -/
theorem interface_addresses_loopback :
    let loopback : SockaddrIn := ⟨afInet, 0, 0x0100007f, 0⟩
    let ifs : List Ifaddrs := [⟨bytes "lo", some (.other 17 (by decide))⟩,
      ⟨bytes "lo", some (.inet loopback (some ⟨afInet, 0, 0xff, 0⟩))⟩]
    getInterfaceAddressesOf (some ifs) [] (bytes "lo") 0 = .ok (true, [(.ipv4 ⟨loopback⟩, 8)]) := by
  intro loopback ifs
  have hcomplete : ∀ i ∈ ifs, i.Complete 0 := by
    intro i hi
    rcases List.mem_pair.1 hi with rfl | rfl
    · exact trivial
    · exact fun _ => rfl
  have hlisted : Ifaddrs.listed .little 0 ⟨bytes "lo", some (.inet loopback (some ⟨afInet, 0, 0xff, 0⟩))⟩ =
      some (.ipv4 ⟨loopback⟩, 8) := by
    have hcount : (List.range 32).countP (IPv4Address.bit .little ⟨⟨afInet, 0, 0xff, 0⟩⟩) = 8 := by decide
    exact congrArg (fun n => some (Address.ipv4 ⟨loopback⟩, n)) hcount
  have hall : ifs.filterMap (Ifaddrs.listed .little 0) = [(.ipv4 ⟨loopback⟩, 8)] := by
    rw [List.filterMap_cons_none rfl, List.filterMap_cons_some hlisted, List.filterMap_nil]
  have hnamed : (ifs.filterMap fun i => if i.name = bytes "lo" then i.listed .little 0 else none) =
      [(.ipv4 ⟨loopback⟩, 8)] := by
    rw [List.filterMap_cons_none rfl, List.filterMap_cons_some (by rw [if_pos rfl]; exact hlisted), List.filterMap_nil]
  have hname : ¬ ((bytes "lo").isEmpty ∨ bytes "lo" = bytes "*") := by decide
  have hcall := (interface_addresses .little ifs [] hname 0).2.1 hcomplete
  rw [hall, hnamed] at hcall
  exact hcall

end Interfaces

end ServerFrame.Addresses
