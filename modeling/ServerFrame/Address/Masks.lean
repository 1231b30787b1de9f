/-
The masks of `Address/Basic`, as bits in network order. `subnetMask` and `broadcastAddress` are right wherever
`CreateMask` shifts less than into the sign of an `int` and the byte of the prefix is one of the sixteen;
`networdAddress` keeps the bits of that byte, or of the IPv4 word, that it has to clear, and clears those it has to
keep. The main results say exactly for which addresses and prefixes this does no harm.
-/
import ServerFrame.Address.Basic
import Mathlib.Data.Nat.Bitwise

namespace ServerFrame.Addresses

open Codec (Endian)

/-! ## An address as bits -/

/-- `IPAddress`: the virtual functions, what they return of a null pointer being `none`; and the address they are
about, as `width` bits in network order, the first one at 0, beside what is left of it without them. -/
structure IPAddress (α : Type) where
  broadcastAddress : α → UInt32 → Except Fault (Option α)
  networdAddress : α → UInt32 → Except Fault (Option α)
  subnetMask : UInt32 → Except Fault (Option α)
  width : Nat
  bit : α → Nat → Bool
  cleared : α → α
  ext : ∀ {a b : α}, cleared a = cleared b → (∀ i < width, bit a i = bit b i) → a = b

namespace IPAddress

variable {α : Type} (I : IPAddress α)

/-- What has to hold of the mask of a prefix and of the broadcast address of `a`. -/
structure Masked (p : UInt32) (a : α) : Prop where
  subnetMask : ∃ m, I.subnetMask p = .ok (some m) ∧ ∀ i < I.width, I.bit m i = decide (i < p.toNat)
  broadcastAddress : ∃ b, I.broadcastAddress a p = .ok (some b) ∧ I.cleared b = I.cleared a ∧
    ∀ i < I.width, I.bit b i = (I.bit a i || decide (p.toNat ≤ i))

/-- What has to hold of the network addresses of `a` and of `b`. -/
structure Networded (p : UInt32) (a b : α) : Prop where
  masked : ∃ m net, I.subnetMask p = .ok (some m) ∧ I.networdAddress a p = .ok (some net) ∧
    I.cleared net = I.cleared a ∧ ∀ i < I.width, I.bit net i = (I.bit a i && I.bit m i)
  idempotent : ∃ net, I.networdAddress a p = .ok (some net) ∧ I.networdAddress net p = .ok (some net)
  broadcast : ∃ net, I.networdAddress a p = .ok (some net) ∧ I.broadcastAddress net p = I.broadcastAddress a p
  same : (∃ m n, I.networdAddress a p = .ok (some m) ∧ I.networdAddress b p = .ok (some n) ∧
    ∀ i < I.width, I.bit m i = I.bit n i) ↔ ∀ i < p.toNat, I.bit a i = I.bit b i

/-- What `networdAddress` computes: of the bits from `lo` up to `hi` it keeps those after the prefix, and before `lo`
all of them. -/
def Keeps (lo hi : Nat) (p : UInt32) : Prop :=
  ∀ a, ∃ net, I.networdAddress a p = .ok (some net) ∧ I.cleared net = I.cleared a ∧
    ∀ i < I.width, I.bit net i = (I.bit a i && decide (i < lo ∨ p.toNat ≤ i ∧ i < hi))

/-- When the bits that are kept and those that should be are told apart by neither address. -/
def Harmless (lo hi : Nat) (p : UInt32) (a b : α) : Prop :=
  (∀ i, lo ≤ i → i < hi → I.bit a i = false) ∧
    ((∀ i < lo, I.bit a i = I.bit b i) →
      ((∀ i, p.toNat ≤ i → i < hi → I.bit b i = false) ↔ ∀ i, lo ≤ i → i < p.toNat → I.bit b i = false))

section Network

variable {I} {lo hi : Nat} {p : UInt32} {a b : α}

theorem Keeps.of_networdAddress (h : I.Keeps lo hi p) {net : α} (hnet : I.networdAddress a p = .ok (some net)) :
    I.cleared net = I.cleared a ∧
      ∀ i < I.width, I.bit net i = (I.bit a i && decide (i < lo ∨ p.toNat ≤ i ∧ i < hi)) := by
  obtain ⟨net', hnet', hcleared, hbit⟩ := h a
  obtain rfl : net' = net := by simpa using hnet'.symm.trans hnet
  exact ⟨hcleared, hbit⟩

/-- Broadcast addresses are the same if the addresses are, but for bits after the prefix. -/
theorem Masked.broadcast_congr (ha : I.Masked p a) (hb : I.Masked p b) (hcleared : I.cleared a = I.cleared b)
    (hbit : ∀ i < I.width, i < p.toNat → I.bit a i = I.bit b i) :
    I.broadcastAddress a p = I.broadcastAddress b p := by
  obtain ⟨a', ha', hac, habit⟩ := ha.broadcastAddress
  obtain ⟨b', hb', hbc, hbbit⟩ := hb.broadcastAddress
  have heq : a' = b' := by
    apply I.ext
    · rw [hac, hbc, hcleared]
    · intro i hi
      rw [habit i hi, hbbit i hi]
      by_cases hp : p.toNat ≤ i
      · simp [hp]
      · rw [hbit i hi (by omega)]
  rw [ha', hb', heq]

/-- The network address is the address under the mask exactly if no bit of the block is set. -/
theorem masked_iff (hmasked : I.Masked p a) (h : I.Keeps lo hi p) (hlo : lo ≤ p.toNat) (hhi : p.toNat ≤ hi)
    (hwidth : hi ≤ I.width) :
    (∃ m net, I.subnetMask p = .ok (some m) ∧ I.networdAddress a p = .ok (some net) ∧ I.cleared net = I.cleared a ∧
      ∀ i < I.width, I.bit net i = (I.bit a i && I.bit m i)) ↔
    ∀ i, lo ≤ i → i < hi → I.bit a i = false := by
  obtain ⟨mask, hmask, hmaskbit⟩ := hmasked.subnetMask
  constructor
  · rintro ⟨m, net, hm, hnet, -, hbit⟩ i hi₁ hi₂
    obtain rfl : mask = m := by simpa using hmask.symm.trans hm
    have hkept := (h.of_networdAddress hnet).2 i (by omega)
    rw [hbit i (by omega), hmaskbit i (by omega)] at hkept
    by_cases hp : i < p.toNat
    · have hout : ¬ (i < lo ∨ p.toNat ≤ i ∧ i < hi) := by omega
      simpa [hp, hout] using hkept
    · have hin : i < lo ∨ p.toNat ≤ i ∧ i < hi := by omega
      simpa [hp, hin] using hkept
  · intro hzero
    obtain ⟨net, hnet, hcleared, hbit⟩ := h a
    refine ⟨mask, net, hmask, hnet, hcleared, ?_⟩
    intro i hi₁
    rw [hbit i hi₁, hmaskbit i hi₁]
    by_cases hblock : lo ≤ i ∧ i < hi
    · simp [hzero i hblock.1 hblock.2]
    · have hiff : (i < lo ∨ p.toNat ≤ i ∧ i < hi) ↔ i < p.toNat := by omega
      simp only [hiff]

/-- Network addresses are the same exactly if the bits that are kept agree. -/
theorem same_iff (h : I.Keeps lo hi p) (hhi : p.toNat ≤ hi) (hlo : lo ≤ p.toNat) (hwidth : hi ≤ I.width) :
    (∃ m n, I.networdAddress a p = .ok (some m) ∧ I.networdAddress b p = .ok (some n) ∧
      ∀ i < I.width, I.bit m i = I.bit n i) ↔
    (∀ i < lo, I.bit a i = I.bit b i) ∧ ∀ i, p.toNat ≤ i → i < hi → I.bit a i = I.bit b i := by
  constructor
  · rintro ⟨m, n, hm, hn, hbit⟩
    have hkept : ∀ i, (i < lo ∨ p.toNat ≤ i ∧ i < hi) → I.bit a i = I.bit b i := by
      intro i hi
      have h₁ := (h.of_networdAddress hm).2 i (by omega)
      have h₂ := (h.of_networdAddress hn).2 i (by omega)
      rw [hbit i (by omega), h₂, decide_eq_true hi, Bool.and_true, Bool.and_true] at h₁
      exact h₁.symm
    exact ⟨fun i hi => hkept i (.inl hi), fun i hi₁ hi₂ => hkept i (.inr ⟨hi₁, hi₂⟩)⟩
  · rintro ⟨hbefore, hafter⟩
    obtain ⟨m, hm, -, hmbit⟩ := h a
    obtain ⟨n, hn, -, hnbit⟩ := h b
    refine ⟨m, n, hm, hn, ?_⟩
    intro i hi'
    rw [hmbit i hi', hnbit i hi']
    by_cases hkept : i < lo ∨ p.toNat ≤ i ∧ i < hi
    · rw [hkept.elim (hbefore i) fun h => hafter i h.1 h.2]
    · rw [decide_eq_false hkept, Bool.and_false, Bool.and_false]

/-- Where masks are right, network addresses are so exactly if it does no harm to keep the wrong bits. -/
theorem networded_iff (hmasked : ∀ a, I.Masked p a) (h : I.Keeps lo hi p) (hlo : lo ≤ p.toNat) (hhi : p.toNat ≤ hi)
    (hwidth : hi ≤ I.width) : I.Networded p a b ↔ I.Harmless lo hi p a b := by
  have hfirst : (∀ i < p.toNat, I.bit a i = I.bit b i) ↔
      (∀ i < lo, I.bit a i = I.bit b i) ∧ ∀ i, lo ≤ i → i < p.toNat → I.bit a i = I.bit b i := by
    constructor
    · intro hall
      exact ⟨fun i hi => hall i (by omega), fun i _ hi => hall i hi⟩
    · rintro ⟨hbefore, hafter⟩ i hi
      by_cases hi' : i < lo
      · exact hbefore i hi'
      · exact hafter i (by omega) hi
  -- With no bit of `a` in the block, what is kept of `b` and what should be are both that `b` has none.
  have hsame (hzero : ∀ i, lo ≤ i → i < hi → I.bit a i = false) :
      ((∃ m n, I.networdAddress a p = .ok (some m) ∧ I.networdAddress b p = .ok (some n) ∧
        ∀ i < I.width, I.bit m i = I.bit n i) ↔ ∀ i < p.toNat, I.bit a i = I.bit b i) ↔
      ((∀ i < lo, I.bit a i = I.bit b i) →
        ((∀ i, p.toNat ≤ i → i < hi → I.bit b i = false) ↔ ∀ i, lo ≤ i → i < p.toNat → I.bit b i = false)) := by
    have hafter : (∀ i, p.toNat ≤ i → i < hi → I.bit a i = I.bit b i) ↔
        ∀ i, p.toNat ≤ i → i < hi → I.bit b i = false := by
      refine forall_congr' fun i => forall_congr' fun h₁ => forall_congr' fun h₂ => ?_
      rw [hzero i (by omega) h₂, eq_comm]
    have hbefore : (∀ i, lo ≤ i → i < p.toNat → I.bit a i = I.bit b i) ↔
        ∀ i, lo ≤ i → i < p.toNat → I.bit b i = false := by
      refine forall_congr' fun i => forall_congr' fun h₁ => forall_congr' fun h₂ => ?_
      rw [hzero i h₁ (by omega), eq_comm]
    rw [same_iff h hhi hlo hwidth, hfirst, hafter, hbefore, and_congr_right_iff]
  constructor
  · intro hnet
    have hzero := (masked_iff (hmasked a) h hlo hhi hwidth).1 hnet.masked
    exact ⟨hzero, (hsame hzero).1 hnet.same⟩
  · rintro ⟨hzero, hharmless⟩
    obtain ⟨net, hnet, hcleared, hbit⟩ := h a
    obtain ⟨net', hnet', hcleared', hbit'⟩ := h net
    have hidem : net' = net := by
      apply I.ext hcleared'
      intro i hi
      rw [hbit' i hi, hbit i hi, Bool.and_assoc, Bool.and_self]
    constructor
    · exact (masked_iff (hmasked a) h hlo hhi hwidth).2 hzero
    · exact ⟨net, hnet, hidem ▸ hnet'⟩
    · refine ⟨net, hnet, (hmasked net).broadcast_congr (hmasked a) hcleared ?_⟩
      intro i hi hp
      rw [hbit i hi]
      by_cases hi' : i < lo
      · simp [hi']
      · simp [hzero i (by omega) (by omega)]
    · exact (hsame hzero).2 hharmless

end Network

end IPAddress

/-! ## The word of an IPv4 address -/

section ByteOrder

variable (host : Endian)

theorem getLsbD_bswap32 (x : BitVec 32) {i : Nat} (h : i < 32) :
    (bswap32 x).getLsbD i = x.getLsbD (8 * (3 - i / 8) + i % 8) := by
  simp only [bswap32, BitVec.getLsbD_append, BitVec.getLsbD_extractLsb']
  split
  · have : 8 * (3 - i / 8) + i % 8 = 24 + i := by omega
    simp [*]
  · split
    · have : 8 * (3 - i / 8) + i % 8 = 16 + (i - 8) := by omega
      simp [*]
    · split
      · have : 8 * (3 - i / 8) + i % 8 = 8 + (i - 8 - 8) := by omega
        simp [*]
      · have : 8 * (3 - i / 8) + i % 8 = 0 + (i - 8 - 8 - 8) := by omega
        have : i - 8 - 8 - 8 < 8 := by omega
        simp [*]

/-- A bit of the swapped word is a bit of the word. -/
theorem getMsbD_byteswap {i : Nat} (h : i < 32) :
    ∃ j < 32, ∀ x, (byteswapOnLittleEndian host x).getMsbD i = x.getMsbD j := by
  cases host with
  | little =>
    refine ⟨8 * (3 - i / 8) + i % 8, by omega, fun x => ?_⟩
    have hplace : 8 * (3 - (32 - 1 - i) / 8) + (32 - 1 - i) % 8 = 32 - 1 - (8 * (3 - i / 8) + i % 8) := by omega
    have hlt : 8 * (3 - i / 8) + i % 8 < 32 := by omega
    show (bswap32 x).getMsbD i = _
    rw [BitVec.getMsbD_eq_getLsbD, BitVec.getMsbD_eq_getLsbD, getLsbD_bswap32 x (by omega), hplace]
    simp [h, hlt]
  | big => exact ⟨i, h, fun x => rfl⟩

theorem byteswap_or (x y : BitVec 32) : byteswapOnLittleEndian host (x ||| y) =
    byteswapOnLittleEndian host x ||| byteswapOnLittleEndian host y := by
  apply BitVec.eq_of_getMsbD_eq
  intro i hi
  obtain ⟨j, -, hj⟩ := getMsbD_byteswap host hi
  rw [BitVec.getMsbD_or, hj, hj, hj, BitVec.getMsbD_or]

theorem byteswap_and (x y : BitVec 32) : byteswapOnLittleEndian host (x &&& y) =
    byteswapOnLittleEndian host x &&& byteswapOnLittleEndian host y := by
  apply BitVec.eq_of_getMsbD_eq
  intro i hi
  obtain ⟨j, -, hj⟩ := getMsbD_byteswap host hi
  rw [BitVec.getMsbD_and, hj, hj, hj, BitVec.getMsbD_and]

theorem byteswap_not (x : BitVec 32) : byteswapOnLittleEndian host (~~~x) = ~~~byteswapOnLittleEndian host x := by
  apply BitVec.eq_of_getMsbD_eq
  intro i hi
  obtain ⟨j, hj, h⟩ := getMsbD_byteswap host hi
  rw [BitVec.getMsbD_not, h, h, BitVec.getMsbD_not, decide_eq_true hi, decide_eq_true hj]

@[simp] theorem byteswap_byteswap (x : BitVec 32) :
    byteswapOnLittleEndian host (byteswapOnLittleEndian host x) = x := by
  cases host with
  | little =>
    apply BitVec.eq_of_getLsbD_eq
    intro i hi
    have hplace : 8 * (3 - (8 * (3 - i / 8) + i % 8) / 8) + (8 * (3 - i / 8) + i % 8) % 8 = i := by omega
    show (bswap32 (bswap32 x)).getLsbD i = _
    rw [getLsbD_bswap32 _ hi, getLsbD_bswap32 _ (by omega), hplace]
  | big => rfl

end ByteOrder

/-! ## The mask of the host -/

/-- Between the faults, `CreateMask` sets the bits after the first `bits` ones. -/
theorem createMask_ok {w : Nat} {bits : UInt32} (hw : w ≤ 32) (hbits : bits.toNat ≤ w) (h : w < bits.toNat + 31) :
    ∃ mask : BitVec w, createMask w bits = .ok mask ∧ ∀ i < w, mask.getMsbD i = decide (bits.toNat ≤ i) := by
  have hshift : (UInt64.ofNat w - bits.toUInt64).toNat = w - bits.toNat := by
    rw [UInt64.toNat_sub_of_le]
    · simp; omega
    · rw [UInt64.le_iff_toNat_le]; simp; omega
  have hle : 2 ^ (w - bits.toNat) ≤ 2 ^ 30 := Nat.pow_le_pow_right (by omega) (by omega)
  have hpos : 0 < 2 ^ (w - bits.toNat) := Nat.two_pow_pos _
  have hone : shiftOne (w - bits.toNat) = .ok ((2 ^ (w - bits.toNat) : Nat) : Int) := by
    unfold shiftOne
    rw [if_pos (by omega), Int.bmod_eq_of_le]
    · norm_cast
    · norm_cast
      omega
    · norm_cast
      omega
  have hsub : subInt ((2 ^ (w - bits.toNat) : Nat) : Int) 1 = .ok ((2 ^ (w - bits.toNat) - 1 : Nat) : Int) := by
    unfold subInt
    rw [if_pos (by omega), Int.ofNat_sub hpos]
    rfl
  refine ⟨BitVec.ofNat w (2 ^ (w - bits.toNat) - 1), ?_, ?_⟩
  · rw [createMask, hshift, hone]
    show subInt _ 1 >>= _ = _
    rw [hsub]
    rfl
  · intro i hi
    rw [BitVec.getMsbD_eq_getLsbD, BitVec.getLsbD_ofNat, Nat.testBit_two_pow_sub_one]
    have hiff : w - 1 - i < w - bits.toNat ↔ bits.toNat ≤ i := by omega
    have hlt : w - 1 - i < w := by omega
    simp [hi, hlt, hiff]

namespace IPv4Address

variable (host : Endian)

def bit (a : IPv4Address) (i : Nat) : Bool := (byteswapOnLittleEndian host a.addr.sAddr).getMsbD i

/-- The virtual functions of an IPv4 address. -/
def ipAddress : IPAddress IPv4Address where
  broadcastAddress := broadcastAddress host
  networdAddress := networdAddress host
  subnetMask := subnetMask host
  width := 32
  bit := bit host
  cleared a := a.withAddr 0
  ext := by
    rintro ⟨a⟩ ⟨b⟩ hcleared hbit
    have hswap : byteswapOnLittleEndian host a.sAddr = byteswapOnLittleEndian host b.sAddr :=
      BitVec.eq_of_getMsbD_eq hbit
    have hword : a.sAddr = b.sAddr := by
      rw [← byteswap_byteswap host a.sAddr, hswap, byteswap_byteswap]
    cases a
    cases b
    simp_all [withAddr]

variable {host} {p : UInt32}

theorem cleared_withAddr (a : IPv4Address) (v : BitVec 32) : (a.withAddr v).withAddr 0 = a.withAddr 0 := rfl

theorem masked (hp : p.toNat ≤ 32) (h : 2 ≤ p.toNat) (a : IPv4Address) : (ipAddress host).Masked p a := by
  obtain ⟨mask, hmask, hbit⟩ := createMask_ok (le_refl 32) hp (by omega)
  have hvalid : ¬ p > 32 := by simpa [UInt32.lt_iff_toNat_lt] using hp
  constructor
  · refine ⟨{ addr := ⟨afInet, 0, ~~~byteswapOnLittleEndian host mask, 0⟩ }, ?_, ?_⟩
    · show subnetMask host p = _
      rw [subnetMask, hmask]
      rfl
    · intro i hi
      show (byteswapOnLittleEndian host (~~~byteswapOnLittleEndian host mask)).getMsbD i = _
      have hi' : i < 32 := hi
      rw [byteswap_not, byteswap_byteswap, BitVec.getMsbD_not, hbit i hi]
      simp [hi', ← decide_not]
  · refine ⟨a.withAddr (a.addr.sAddr ||| byteswapOnLittleEndian host mask), ?_, cleared_withAddr a _, ?_⟩
    · show broadcastAddress host a p = _
      rw [broadcastAddress, if_neg hvalid, hmask]
      rfl
    · intro i hi
      show (byteswapOnLittleEndian host (a.addr.sAddr ||| byteswapOnLittleEndian host mask)).getMsbD i = _
      rw [byteswap_or, byteswap_byteswap, BitVec.getMsbD_or, hbit i hi]
      rfl

theorem keeps (hp : p.toNat ≤ 32) (h : 2 ≤ p.toNat) : (ipAddress host).Keeps 0 32 p := by
  intro a
  obtain ⟨mask, hmask, hbit⟩ := createMask_ok (le_refl 32) hp (by omega)
  have hvalid : ¬ p > 32 := by simpa [UInt32.lt_iff_toNat_lt] using hp
  refine ⟨a.withAddr (a.addr.sAddr &&& byteswapOnLittleEndian host mask), ?_, cleared_withAddr a _, ?_⟩
  · show networdAddress host a p = _
    rw [networdAddress, if_neg hvalid, hmask]
    rfl
  · intro i hi
    show (byteswapOnLittleEndian host (a.addr.sAddr &&& byteswapOnLittleEndian host mask)).getMsbD i = _
    have hi' : i < 32 := hi
    rw [byteswap_and, byteswap_byteswap, BitVec.getMsbD_and, hbit i hi]
    simp [hi', ipAddress, bit]

/-- At 0 the shift is one of the width of `int`, at 1 the least `int` is decremented. -/
theorem subnetMask_fault (host : Endian) (h : p.toNat < 2) : ∃ e, subnetMask host p = .error e := by
  obtain rfl | rfl : p = 0 ∨ p = 1 := by
    rw [← UInt32.toNat_inj, ← UInt32.toNat_inj]
    simp
    omega
  · exact ⟨.shift, rfl⟩
  · exact ⟨.overflow, rfl⟩

/-- The masks of IPv4 are right, and without a fault, from 2 on. -/
theorem masked_iff (hp : p.toNat ≤ 32) (a : IPv4Address) : (ipAddress host).Masked p a ↔ 2 ≤ p.toNat := by
  constructor
  · rintro ⟨⟨m, hm, -⟩, -⟩
    by_contra h
    obtain ⟨e, he⟩ := subnetMask_fault host (show p.toNat < 2 by omega)
    cases he.symm.trans hm
  · intro h
    exact masked hp h a

end IPv4Address

/-! ## The bytes of an IPv6 address -/

theorem load_ok (bytes : Vector (BitVec 8) 16) {i : Nat} (h : i < 16) : load bytes i = .ok bytes[i] := dif_pos h

theorem store_ok (bytes : Vector (BitVec 8) 16) {i : Nat} (h : i < 16) (v : BitVec 8) :
    store bytes i v = .ok (bytes.set i v) := dif_pos h

theorem fill_ok (v : BitVec 8) {i stop : Nat} (hi : i ≤ stop) (hstop : stop ≤ 16) (bytes : Vector (BitVec 8) 16) :
    ∃ out, fill v i stop bytes = .ok out ∧
      ∀ j (h : j < 16), out[j] = if i ≤ j ∧ j < stop then v else bytes[j] := by
  unfold fill
  obtain ⟨n, rfl⟩ := Nat.exists_eq_add_of_le hi
  rw [Nat.add_sub_cancel_left]
  induction n generalizing i bytes with
  | zero =>
    refine ⟨bytes, rfl, fun j h => ?_⟩
    rw [if_neg (by omega)]
  | succ n ih =>
    obtain ⟨out, hout, hbytes⟩ := ih (i := i + 1) (bytes.set i v) (by omega) (by omega)
    refine ⟨out, ?_, fun j h => ?_⟩
    · rw [List.range'_succ, List.foldlM_cons, store_ok bytes (by omega)]
      exact hout
    · rw [hbytes j h, Vector.getElem_set]
      by_cases hj : j = i
      · subst hj
        simp
      · have hiff : (i + 1 ≤ j ∧ j < i + 1 + n) ↔ i ≤ j ∧ j < i + (n + 1) := by omega
        rw [if_neg (Ne.symm hj)]
        simp only [hiff]

namespace IPv6Address

def bit (a : IPv6Address) (i : Nat) : Bool := if h : i / 8 < 16 then a.addr.s6Addr[i / 8].getMsbD (i % 8) else false

/-- The virtual functions of an IPv6 address. -/
def ipAddress : IPAddress IPv6Address where
  broadcastAddress := broadcastAddress
  networdAddress := networdAddress
  subnetMask := subnetMask
  width := 128
  bit := bit
  cleared a := a.withAddr (Vector.replicate 16 0)
  ext := by
    rintro ⟨a⟩ ⟨b⟩ hcleared hbit
    have hbytes : a.s6Addr = b.s6Addr := by
      apply Vector.ext
      intro j hj
      apply BitVec.eq_of_getMsbD_eq
      intro i hi
      have := hbit (8 * j + i) (by omega)
      have hdiv : (8 * j + i) / 8 = j := by omega
      have hmod : (8 * j + i) % 8 = i := by omega
      simpa [bit, hdiv, hmod, hj] using this
    cases a
    cases b
    simp_all [withAddr]

theorem cleared_withAddr (a : IPv6Address) (v : Vector (BitVec 8) 16) :
    (a.withAddr v).withAddr (Vector.replicate 16 0) = a.withAddr (Vector.replicate 16 0) := rfl

variable {p : UInt32}

/-- Byte `k` is changed by `f`, and those after it are set to `v`. -/
theorem change_ok (bytes : Vector (BitVec 8) 16) {k : Nat} (hk : k < 16) (f : BitVec 8 → BitVec 8) (v : BitVec 8) :
    ∃ out, (∀ {β : Type} (g : Vector (BitVec 8) 16 → Except Fault β),
      (load bytes k >>= fun b => store bytes k (f b) >>= fun bytes => fill v (k + 1) 16 bytes >>= g) = g out) ∧
      ∀ j (h : j < 16), out[j] = if j < k then bytes[j] else if j = k then f bytes[j] else v := by
  obtain ⟨out, hout, hbytes⟩ := fill_ok v (show k + 1 ≤ 16 by omega) (le_refl 16) (bytes.set k (f bytes[k]))
  refine ⟨out, ?_, ?_⟩
  · intro β g
    rw [load_ok bytes hk]
    show (store bytes k (f bytes[k]) >>= fun bytes => fill v (k + 1) 16 bytes >>= g) = g out
    rw [store_ok bytes hk]
    show (fill v (k + 1) 16 (bytes.set k (f bytes[k])) >>= g) = g out
    rw [hout]
    rfl
  intro j h
  rw [hbytes j h, Vector.getElem_set]
  by_cases hj : j = k
  · subst hj
    simp
  · by_cases hj' : j < k
    · have hnot : ¬ (k + 1 ≤ j ∧ j < 16) := by omega
      rw [if_neg hnot, if_neg (Ne.symm hj), if_pos hj']
    · have hin : k + 1 ≤ j ∧ j < 16 := by omega
      rw [if_pos hin, if_neg hj', if_neg hj]

/-- The mask of the partial byte. -/
theorem partial_mask (p : UInt32) : ∃ mask : BitVec 8, createMask 8 (p % 8) = .ok mask ∧
    ∀ i < 8, mask.getMsbD i = decide (p.toNat % 8 ≤ i) := by
  have hmod : (p % 8).toNat = p.toNat % 8 := by simp
  have hlt : p.toNat % 8 < 8 := Nat.mod_lt _ (by omega)
  have hmask := @createMask_ok 8 (p % 8) (by omega) (by omega) (by omega)
  rwa [hmod] at hmask

theorem getMsbD_ff {i : Nat} (h : i < 8) : (255#8).getMsbD i = true := by
  rw [show 255#8 = BitVec.allOnes 8 from rfl, BitVec.getMsbD_allOnes, decide_eq_true h]

/-- A bit of an address whose bytes are given. -/
theorem bit_withAddr (a : IPv6Address) (v : Vector (BitVec 8) 16) {i : Nat} (h : i / 8 < 16) :
    (a.withAddr v).bit i = v[i / 8].getMsbD (i % 8) := by
  simp [bit, withAddr, h]

/-- The bits of an address whose byte `k` is changed bit by bit. -/
theorem change_bits (a : IPv6Address) {k : Nat} (hk : k < 16) {f : BitVec 8 → BitVec 8} {op : Bool → Bool → Bool}
    {r : Nat → Bool} (hf : ∀ b : BitVec 8, ∀ i < 8, (f b).getMsbD i = op (b.getMsbD i) (r i)) (v : BitVec 8) :
    ∃ out, (∀ {β : Type} (g : Vector (BitVec 8) 16 → Except Fault β),
      (load a.addr.s6Addr k >>= fun b => store a.addr.s6Addr k (f b) >>= fun bytes =>
        fill v (k + 1) 16 bytes >>= g) = g out) ∧
      ∀ i < 128, (a.withAddr out).bit i =
        if i / 8 < k then a.bit i else if i / 8 = k then op (a.bit i) (r (i % 8)) else v.getMsbD (i % 8) := by
  obtain ⟨out, hout, hbytes⟩ := change_ok a.addr.s6Addr hk f v
  refine ⟨out, hout, ?_⟩
  intro i hi
  have hi' : i / 8 < 16 := by omega
  have hbit : a.bit i = a.addr.s6Addr[i / 8].getMsbD (i % 8) := by simp [bit, hi']
  rw [bit_withAddr a out hi', hbytes _ hi', hbit]
  split
  · rfl
  · split
    · exact hf _ _ (Nat.mod_lt _ (by omega))
    · rfl

theorem keeps (h : p.toNat ≤ 127) : ipAddress.Keeps (8 * (p.toNat / 8)) (8 * (p.toNat / 8) + 8) p := by
  intro a
  obtain ⟨mask, hmask, hbit⟩ := partial_mask p
  have hdiv : (p / 8).toNat = p.toNat / 8 := by simp
  have hand : ∀ b : BitVec 8, ∀ i < 8, (b &&& mask).getMsbD i = (b.getMsbD i && decide (p.toNat % 8 ≤ i)) := by
    intro b i hi
    rw [BitVec.getMsbD_and, hbit i hi]
  obtain ⟨out, hout, hbits⟩ := change_bits a (show (p / 8).toNat < 16 by omega) hand 0
  refine ⟨a.withAddr out, ?_, cleared_withAddr a out, ?_⟩
  · show networdAddress a p = _
    rw [networdAddress, hmask]
    exact hout _
  · intro i hi
    show (a.withAddr out).bit i = (a.bit i && _)
    rw [hbits i hi, hdiv]
    split
    · have hin : i < 8 * (p.toNat / 8) := by omega
      simp [hin]
    · split
      · have hiff : p.toNat % 8 ≤ i % 8 ↔ i < 8 * (p.toNat / 8) ∨ p.toNat ≤ i ∧ i < 8 * (p.toNat / 8) + 8 := by omega
        simp only [hiff]
      · have hout : ¬ (i < 8 * (p.toNat / 8) ∨ p.toNat ≤ i ∧ i < 8 * (p.toNat / 8) + 8) := by omega
        simp [hout]

theorem masked (h : p.toNat ≤ 127) (a : IPv6Address) : ipAddress.Masked p a := by
  obtain ⟨mask, hmask, hbit⟩ := partial_mask p
  have hdiv : (p / 8).toNat = p.toNat / 8 := by simp
  have hk : (p / 8).toNat < 16 := by omega
  constructor
  · obtain ⟨out, hout, hbytes⟩ :=
      fill_ok 0xff (Nat.zero_le (p / 8).toNat) (le_of_lt hk) ((Vector.replicate 16 0).set (p / 8).toNat (~~~mask))
    refine ⟨{ addr := ⟨afInet6, 0, 0, out, 0⟩ }, ?_, ?_⟩
    · show subnetMask p = _
      rw [subnetMask, hmask]
      show (store (Vector.replicate 16 0) (p / 8).toNat (~~~mask) >>= _) = _
      rw [store_ok _ hk]
      show (fill 0xff 0 (p / 8).toNat _ >>= _) = _
      rw [hout]
      rfl
    · intro i hi
      have hi' : i / 8 < 16 := by
        have : i < 128 := hi
        omega
      have hlt : i % 8 < 8 := Nat.mod_lt _ (by omega)
      have hbit' : bit { addr := ⟨afInet6, 0, 0, out, 0⟩ } i = out[i / 8].getMsbD (i % 8) := by simp [bit, hi']
      show bit _ i = _
      rw [hbit', hbytes _ hi', Vector.getElem_set]
      simp only [hdiv]
      split
      · have hin : i < p.toNat := by omega
        simp [hin, getMsbD_ff hlt]
      · split
        · have hiff : i < p.toNat ↔ i % 8 < p.toNat % 8 := by omega
          rw [BitVec.getMsbD_not, hbit _ hlt]
          simp [hiff, hlt, ← decide_not]
        · have hout : ¬ i < p.toNat := by omega
          simp [hout]
  · have hor : ∀ b : BitVec 8, ∀ i < 8, (b ||| mask).getMsbD i = (b.getMsbD i || decide (p.toNat % 8 ≤ i)) := by
      intro b i hi
      rw [BitVec.getMsbD_or, hbit i hi]
    obtain ⟨out, hout, hbits⟩ := change_bits a hk hor 0xff
    refine ⟨a.withAddr out, ?_, cleared_withAddr a out, ?_⟩
    · show broadcastAddress a p = _
      rw [broadcastAddress, hmask]
      exact hout _
    · intro i hi
      show (a.withAddr out).bit i = (a.bit i || _)
      rw [hbits i hi, hdiv]
      split
      · have hin : ¬ p.toNat ≤ i := by omega
        simp [hin]
      · split
        · have hiff : p.toNat % 8 ≤ i % 8 ↔ p.toNat ≤ i := by omega
          simp only [hiff]
        · have hout : p.toNat ≤ i := by omega
          simp [hout, getMsbD_ff (Nat.mod_lt i (by omega))]

/-- At 128 the byte of the prefix is behind the address. -/
theorem subnetMask_fault (h : p.toNat = 128) : subnetMask p = .error .index := by
  obtain rfl : p = 128 := by
    rw [← UInt32.toNat_inj]
    exact h
  rfl

/-- The masks of IPv6 are right, and without a fault, up to 127. -/
theorem masked_iff (hp : p.toNat ≤ 128) (a : IPv6Address) : ipAddress.Masked p a ↔ p.toNat ≤ 127 := by
  constructor
  · rintro ⟨⟨m, hm, -⟩, -⟩
    by_contra h
    cases (subnetMask_fault (show p.toNat = 128 by omega)).symm.trans hm
  · intro h
    exact masked h a

end IPv6Address

/-! ## Every prefix -/

/-- Over all valid prefixes, masks and broadcast addresses are right and computed without a fault, exactly without the
first two of IPv4 and the last one of IPv6. -/
theorem masks_iff (host : Endian) (a : IPv4Address) (b : IPv6Address) {p q : UInt32} (hp : p.toNat ≤ 32)
    (hq : q.toNat ≤ 128) :
    ((IPv4Address.ipAddress host).Masked p a ↔ 2 ≤ p.toNat) ∧ (IPv6Address.ipAddress.Masked q b ↔ q.toNat ≤ 127) := by
  constructor
  · exact IPv4Address.masked_iff hp a
  · exact IPv6Address.masked_iff hq b

/-- 192.168.10.129 and `::`. -/
theorem masks_iff_at : let a : IPv4Address := ⟨⟨afInet, 0, 0x810aa8c0, 0⟩⟩
    let b : IPv6Address := ⟨⟨afInet6, 0, 0, Vector.replicate 16 0, 0⟩⟩
    ((IPv4Address.ipAddress .little).Masked 24 a ↔ 2 ≤ (24 : UInt32).toNat) ∧
      (IPv6Address.ipAddress.Masked 128 b ↔ (128 : UInt32).toNat ≤ 127) :=
  masks_iff .little _ _ (by decide) (by decide)

/-- The whole of IPv4: the shift is one of the width of `int`. -/
theorem default_route_not_masked : ¬ ∀ (host : Endian) (a : IPv4Address) (b : IPv6Address) (p q : UInt32),
    p.toNat ≤ 32 → q.toNat ≤ 128 → (IPv4Address.ipAddress host).Masked p a ∧ IPv6Address.ipAddress.Masked q b := by
  intro h
  have hmasked := h .little ⟨⟨afInet, 0, 0, 0⟩⟩ ⟨⟨afInet6, 0, 0, Vector.replicate 16 0, 0⟩⟩ 0 0 (by decide) (by decide)
  obtain ⟨m, hm, -⟩ := hmasked.1.subnetMask
  cases hm

/-- Within the prefixes whose masks are right, network addresses are right exactly if no bit of the block of the
prefix, the word of IPv4 or a byte of IPv6, is told apart by the bits kept and those to be kept. -/
theorem networks_iff (host : Endian) (a b : IPv4Address) (c d : IPv6Address) {p q : UInt32} (hp₂ : 2 ≤ p.toNat)
    (hp : p.toNat ≤ 32) (hq : q.toNat ≤ 127) :
    ((IPv4Address.ipAddress host).Networded p a b ↔ (IPv4Address.ipAddress host).Harmless 0 32 p a b) ∧
      (IPv6Address.ipAddress.Networded q c d ↔
        IPv6Address.ipAddress.Harmless (8 * (q.toNat / 8)) (8 * (q.toNat / 8) + 8) q c d) := by
  constructor
  · exact IPAddress.networded_iff (IPv4Address.masked hp hp₂) (IPv4Address.keeps hp hp₂) (Nat.zero_le _) hp (le_refl 32)
  · exact IPAddress.networded_iff (IPv6Address.masked hq) (IPv6Address.keeps hq) (by omega) (by omega)
      (show 8 * (q.toNat / 8) + 8 ≤ 128 by omega)

/-- The documented example: the network of 192.168.10.129/24. -/
theorem networks_iff_at : let a : IPv4Address := ⟨⟨afInet, 0, 0x810aa8c0, 0⟩⟩
    let c : IPv6Address := ⟨⟨afInet6, 0, 0, Vector.replicate 16 0, 0⟩⟩
    ((IPv4Address.ipAddress .little).Networded 24 a a ↔ (IPv4Address.ipAddress .little).Harmless 0 32 24 a a) ∧
      (IPv6Address.ipAddress.Networded 64 c c ↔
        IPv6Address.ipAddress.Harmless (8 * ((64 : UInt32).toNat / 8)) (8 * ((64 : UInt32).toNat / 8) + 8) 64 c c) :=
  networks_iff .little _ _ _ _ (by decide) (by decide) (by decide)

/-- 192.168.10.129/24: what is kept is 0.0.0.129. -/
theorem network_not_kept : ¬ ∀ (host : Endian) (a b : IPv4Address) (c d : IPv6Address) (p q : UInt32),
    2 ≤ p.toNat → p.toNat ≤ 32 → q.toNat ≤ 127 →
      (IPv4Address.ipAddress host).Networded p a b ∧ IPv6Address.ipAddress.Networded q c d := by
  intro h
  have hnet := (h .little ⟨⟨afInet, 0, 0x810aa8c0, 0⟩⟩ ⟨⟨afInet, 0, 0, 0⟩⟩ ⟨⟨afInet6, 0, 0, Vector.replicate 16 0, 0⟩⟩
    ⟨⟨afInet6, 0, 0, Vector.replicate 16 0, 0⟩⟩ 24 0 (by decide) (by decide) (by decide)).1
  have hzero := (IPAddress.masked_iff (IPv4Address.masked (by decide) (by decide) _)
    (IPv4Address.keeps (by decide) (by decide)) (Nat.zero_le _) (by decide) (le_refl 32)).1 hnet.masked 0
    (by decide) (by decide)
  cases hzero

end ServerFrame.Addresses
