/-
The numbers of variable length on any bytes: what `readUint32` and `readUint64` take off and return, whether the bytes
come from the writers or not, and that the writers give the one shortest encoding.
-/
import ServerFrame.Lib.Septets
import ServerFrame.ByteArray.Calls

namespace ServerFrame.Codec

open Readers Septets

/-! ## Writing -/

section Writing

variable {k v : Nat}

theorem encodes_varint (v : Nat) : Encodes (varint v) v := by
  induction v using Nat.strongRecOn with
  | ind v ih =>
    rw [varint_eq]
    split
    · rename_i hlt
      have hb : (UInt8.ofNat v).toNat = v := by
        rw [UInt8.toNat_ofNat']
        omega
      constructor
      · rw [ends_cons, toNat_lt_iff, hb]
        exact .inl ⟨hlt, rfl⟩
      · rw [groups_cons, groups_nil, hb]
        omega
    · rename_i hge
      have hb : (UInt8.ofNat (v % 128 + 128)).toNat = v % 128 + 128 := by
        rw [UInt8.toNat_ofNat']
        omega
      have hrest := ih (v / 128) (by omega)
      constructor
      · rw [ends_cons, toNat_lt_iff, hb]
        exact .inr ⟨by omega, hrest.ends⟩
      · rw [groups_cons, hrest.groups, hb]
        omega

/-- A number below `2 ^ (7 * k)` takes `k` bytes at most. -/
theorem length_varint_le (hk : 0 < k) (hv : v < 2 ^ (7 * k)) : (varint v).length ≤ k := by
  induction k generalizing v with
  | zero => cases hk
  | succ k ih =>
    rw [varint_eq]
    split
    · exact Nat.succ_le_succ (Nat.zero_le k)
    · rename_i hge
      rw [Nat.mul_succ, Nat.pow_add] at hv
      have hpos : 0 < k := by
        rcases Nat.eq_zero_or_pos k with rfl | hpos
        · rw [Nat.mul_zero, Nat.pow_zero] at hv
          omega
        · exact hpos
      exact Nat.succ_le_succ (ih hpos (by omega))

theorem shortest_varint (v : Nat) : Shortest (varint v) v where
  toEncodes := encodes_varint v
  least l h := by
    have hlt := groups_lt l
    rw [h.groups] at hlt
    refine length_varint_le (List.length_pos_iff.2 ?_) hlt
    rintro rfl
    exact not_ends_nil h.ends

end Writing

/-! ## Reading -/

section Reading

variable (host : Endian) {n i R : Nat} {l : List UInt8}

theorem and_low (b : UInt8) : (b &&& 0x7f).toNat = b.toNat % 128 := by
  rw [UInt8.toNat_and, show (0x7f : UInt8).toNat = 2 ^ 7 - 1 from rfl, Nat.and_two_pow_sub_one_eq_mod]

/-- A group of seven bits put above the bits read so far, in a type of `w` bits. -/
theorem or_group_mod (w : Nat) {x : Nat} (hR : R < 2 ^ i) :
    R % 2 ^ w ||| x <<< i % 2 ^ w = (R + x * 2 ^ i) % 2 ^ w := by
  rw [← Nat.or_mod_two_pow, Nat.or_comm, ← Nat.shiftLeft_add_eq_or_of_lt hR, Nat.shiftLeft_eq, Nat.add_comm]

/-- The loop of the readers where the bytes do not end too early, `R` being the sum so far: induction on the rounds
left. -/
theorem varint_front (w : Nat) (hR : R < 2 ^ i) (h : n ≤ l.length ∨ ∃ b ∈ l, b < 0x80) :
    readVarint take host w n i (R % 2 ^ w) l =
      .ok ((R + groups (front n l) * 2 ^ i) % 2 ^ w) (l.drop (front n l).length) := by
  induction n generalizing i R l with
  | zero =>
    rw [front_zero, groups_nil, Nat.zero_mul]
    rfl
  | succ n ih =>
    cases l with
    | nil =>
      rcases h with h | ⟨b, hb, -⟩
      · cases h
      · cases hb
    | cons b l =>
      rw [varint_cons, front_cons]
      by_cases hb : b < 0x80
      · have hlow : b.toNat % 128 = b.toNat := Nat.mod_eq_of_lt (toNat_lt_iff.1 hb)
        rw [if_pos hb, if_pos hb, or_group_mod w hR, groups_cons, groups_nil, hlow]
        rfl
      · have hrest : n ≤ l.length ∨ ∃ b ∈ l, b < 0x80 := by
          rcases h with h | ⟨c, hc, hlt⟩
          · exact .inl (Nat.le_of_succ_le_succ h)
          · rcases List.mem_cons.1 hc with rfl | hc
            · exact absurd hlt hb
            · exact .inr ⟨c, hc, hlt⟩
        have hnext : R + b.toNat % 128 * 2 ^ i < 2 ^ (i + 7) := by
          have hlow : b.toNat % 128 * 2 ^ i ≤ 127 * 2 ^ i := Nat.mul_le_mul_right _ (by omega)
          rw [Nat.pow_add]
          omega
        have hsum : R + b.toNat % 128 * 2 ^ i + groups (front n l) * 2 ^ (i + 7) =
            R + groups (b :: front n l) * 2 ^ i := by
          rw [groups_cons, Nat.pow_add]
          ring
        rw [if_neg hb, if_neg hb, and_low, or_group_mod w hR, ih hnext hrest, hsum]
        rfl

end Reading

/-! ## The two widths -/

/-- The numbers of a type of `w` bits in groups of seven bits, of which there are `n` at most. -/
structure VarintExact {α : Type} (n w : Nat) (toNat : α → Nat) (read : Taker UInt8 α) (call : Buffers.Call α)
    (write : α → List (List UInt8)) : Prop where
  /-- The reader throws exactly where the bytes end before one below 128, or the last that it would read. -/
  throws : ∀ l, (∃ rest, read l = .error () rest) ↔ l.length < n ∧ ∀ b ∈ l, ¬ b < 0x80
  /-- Else it takes off the front part and returns its sum. -/
  reads : ∀ l v rest, read l = .ok v rest → front n l ++ rest = l ∧ toNat v = groups (front n l) % 2 ^ w
  /-- It does so on the unread bytes of the block chain. -/
  chain : Buffers.Mirrors α read call
  /-- The writer hands over one string, the only shortest encoding, and the array on the stack has room for it. -/
  writes : ∀ v, ∃ e, write v = [e] ∧ e.length ≤ n ∧ Shortest e (toNat v) ∧ ∀ e', Shortest e' (toNat v) → e' = e
  /-- No bytes that are read for the value are fewer. -/
  least : ∀ l v, read l = .ok v [] → ∀ e, write v = [e] → e.length ≤ l.length
  /-- What was read is written again exactly if it was the shortest encoding of the value. -/
  rewrites : ∀ l v rest, read l = .ok v rest → (write v = [front n l] ↔ Shortest (front n l) (toNat v))

/-- The reader and the writer of an unsigned type of `w` bits. -/
theorem varintExact_of {α : Type} {n w : Nat} {toNat : α → Nat} {ofNat : Nat → α} (host : Endian) (hn : 0 < n)
    (hwn : w ≤ 7 * n) (hlt : ∀ a, toNat a < 2 ^ w) (hmod : ∀ x, toNat (ofNat x) = x % 2 ^ w) :
    VarintExact n w toNat (readVarint take host w n 0 0 >>= fun x => pure (ofNat x))
      (readVarint Buffers.readCall host w n 0 0 >>= fun x => pure (ofNat x)) (fun v => [varint (toNat v)]) := by
  have hok : ∀ l, n ≤ l.length ∨ (∃ b ∈ l, b < 0x80) →
      (readVarint take host w n 0 0 >>= fun x => pure (ofNat x)) l =
        .ok (ofNat (groups (front n l) % 2 ^ w)) (l.drop (front n l).length) := by
    intro l hl
    have hrun := varint_front host (R := 0) (i := 0) w (Nat.two_pow_pos 0) hl
    rw [Nat.zero_mod, Nat.zero_add, Nat.pow_zero, Nat.mul_one] at hrun
    exact bind_ok hrun
  have herror : ∀ l, ¬ (n ≤ l.length ∨ ∃ b ∈ l, b < 0x80) →
      (readVarint take host w n 0 0 >>= fun x => pure (ofNat x)) l = .error () [] := by
    intro l hl
    rw [not_or, not_exists] at hl
    exact bind_error (varint_error host w (Nat.not_le.1 hl.1) fun b hb hlt => hl.2 b ⟨hb, hlt⟩)
  have hreads : ∀ l v rest, (readVarint take host w n 0 0 >>= fun x => pure (ofNat x)) l = .ok v rest →
      front n l ++ rest = l ∧ toNat v = groups (front n l) % 2 ^ w := by
    intro l v rest hrun
    by_cases hl : n ≤ l.length ∨ ∃ b ∈ l, b < 0x80
    · rw [hok l hl] at hrun
      cases hrun
      exact ⟨front_append_drop, by rw [hmod, Nat.mod_mod]⟩
    · rw [herror l hl] at hrun
      cases hrun
  constructor
  · intro l
    by_cases hl : n ≤ l.length ∨ ∃ b ∈ l, b < 0x80
    · constructor
      · rintro ⟨rest, hrun⟩
        rw [hok l hl] at hrun
        cases hrun
      · rintro ⟨hshort, hall⟩
        rcases hl with hle | ⟨b, hb, hlow⟩
        · omega
        · exact absurd hlow (hall b hb)
    · refine iff_of_true ⟨[], herror l hl⟩ ?_
      rw [not_or, not_exists] at hl
      exact ⟨Nat.not_le.1 hl.1, fun b hb hlow => hl.2 b ⟨hb, hlow⟩⟩
  · exact hreads
  · exact Buffers.related_mirrors.ret (related_varint Buffers.related_mirrors Buffers.mirrors_read host w) ofNat
  · intro v
    have hv : toNat v < 2 ^ (7 * n) := Nat.lt_of_lt_of_le (hlt v) (Nat.pow_le_pow_right (by decide) hwn)
    exact ⟨_, rfl, length_varint_le hn hv, shortest_varint _, fun e' h => h.unique (shortest_varint _)⟩
  · intro l v hrun e he
    obtain ⟨hfront, hv⟩ := hreads l v [] hrun
    rw [List.append_nil] at hfront
    rw [hfront] at hv
    have hne : l ≠ [] := by
      rintro rfl
      have hempty : ¬ (n ≤ ([] : List UInt8).length ∨ ∃ b ∈ ([] : List UInt8), b < 0x80) := by
        rintro (hle | ⟨b, hb, -⟩)
        · exact absurd hle (Nat.not_le.2 hn)
        · cases hb
      rw [herror [] hempty] at hrun
      cases hrun
    rw [← (List.cons.inj he).1, hv]
    exact length_varint_le (List.length_pos_iff.2 hne) (Nat.lt_of_le_of_lt (Nat.mod_le _ _) (groups_lt l))
  · intro l v rest hrun
    constructor
    · intro hwrite
      rw [← (List.cons.inj hwrite).1]
      exact shortest_varint _
    · intro hshort
      rw [hshort.unique (shortest_varint _)]

/-- On every stream of bytes `readUint32` and `readUint64` throw exactly where it ends before a byte below 128 and
before their last byte; else they take off the shortest front part that ends in such a byte, of 5 or 10 bytes at most,
and return the sum of its groups modulo `2 ^ 32` or `2 ^ 64`. The writers give the one shortest encoding of a value, of
no more bytes than that, which is what was read exactly if that was the shortest encoding of what it was read for. -/
theorem varints_exact (host : Endian) :
    VarintExact 5 32 UInt32.toNat (readUint32 take host) (readUint32 Buffers.readCall host) writeUint32 ∧
    VarintExact 10 64 UInt64.toNat (readUint64 take host) (readUint64 Buffers.readCall host) writeUint64 :=
  ⟨varintExact_of host (by decide) (by decide) UInt32.toNat_lt fun _ => UInt32.toNat_ofNat',
    varintExact_of host (by decide) (by decide) UInt64.toNat_lt fun _ => UInt64.toNat_ofNat'⟩

/-- Of a fifth byte only four bits fit. -/
example : readUint32 take .little [0x80, 0x80, 0x80, 0x80, 0x71] = .ok 0x10000000 [] := rfl

end ServerFrame.Codec
