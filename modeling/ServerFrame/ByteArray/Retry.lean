/-
Calls that throw and calls that read nothing: which failures of the typed readers leave the state as it was, and where
nothing can be read.
-/
import ServerFrame.ByteArray.Calls

namespace ServerFrame.Buffers

open Blocks Readers Codec

variable {s : ByteArray} (host endian : Endian)

/-! ## Failures -/

section Failures

variable {limit : Nat} {k : StrKind}

/-- A reader of strings fails where it was called when its prefix does, and no prefix announces more bytes than follow
it. -/
theorem atomic_string (h : WF s) : Atomic (stringCall host endian limit k) s ↔
    Stays (k.readLen take host endian) s.unread ∧
      ∀ len rest, k.readLen take host endian s.unread = .ok len rest → limit < len.toNat ∨ len.toNat ≤ rest.length := by
  -- the prefix fails, or it is read and one more `read` takes the bytes it announces
  cases hrun : k.readLen take host endian s.unread with
  | error e mid =>
    obtain ⟨s', hwf, hrest, hm, hcall⟩ := stringCall_error host endian limit h hrun
    rw [Atomic, Stays, hcall, hrun, and_iff_left (fun len rest hr => by cases hr)]
    constructor
    · intro hatomic rest hr
      cases hr
      rw [← hrest, hatomic s' rfl]
    · intro hstays t ht
      cases ht
      exact (hm.eq_iff h hwf).2 (hrest.trans (hstays mid rfl))
  | ok len mid =>
    obtain ⟨s', hwf, hrest, hm, hcall⟩ := stringCall_ok host endian limit h hrun
    obtain ⟨hthrow, hnull, hread⟩ := readStr_chain hwf len
    have hstays : Stays (k.readLen take host endian) s.unread := fun rest hr => by
      rw [hrun] at hr
      cases hr
    rw [and_iff_right hstays]
    have hiff : Atomic (stringCall host endian limit k) s ↔ limit < len.toNat ∨ len.toNat ≤ mid.length := by
      rw [Atomic, hcall]
      rcases Nat.lt_or_ge limit len.toNat with hlimit | hlimit
      · rw [if_neg (Nat.not_le.2 hlimit)]
        exact iff_of_true (fun t ht => by cases ht) (.inl hlimit)
      · rw [if_pos hlimit, or_iff_right (Nat.not_lt.2 hlimit), ← hrest]
        rcases Nat.lt_or_ge s'.unread.length len.toNat with hlt | hle
        · rw [hthrow hlt]
          refine iff_of_false (fun hatomic => ?_) (Nat.not_le.2 hlt)
          -- the prefix took bytes off, so the state it left is another one
          have hshort := shortens_len host endian k len mid hrun
          rw [← hrest, hatomic s' rfl] at hshort
          exact Nat.lt_irrefl _ hshort
        · refine iff_of_true (fun t ht => ?_) hle
          by_cases hc : len.toNat = 0 ∧ s'.position = s'.capacity
          · rw [hnull hc.1 hc.2] at ht
            cases ht
          · obtain ⟨value, t', hok, -⟩ := hread hle (not_and.1 hc)
            rw [hok] at ht
            cases ht
    rw [hiff]
    constructor
    · intro hle len' rest hr
      cases hr
      exact hle
    · intro hall
      exact hall len mid rfl

/-- Which reads leave the state as it was when they throw `std::out_of_range`: the readers of fixed size always, those
of variable length unless all the bytes left continue the number, those of strings unless the prefix is whole and
announces more bytes than are left. -/
theorem failed_reads_atomic (h : WF s) :
    (∀ k : Kind, k ≠ .stringF64 ∧ k ≠ .stringVint → (Atomic (k.read readCall host endian) s ↔
      ∀ n, k.rounds = some n → s.unread = [] ∨ n ≤ s.unread.length ∨ ∃ b ∈ s.unread, b < 0x80)) ∧
    ∀ (k : StrKind) (limit : Nat), Atomic (stringCall host endian limit k) s ↔
      (k = .vint → s.unread = [] ∨ 10 ≤ s.unread.length ∨ ∃ b ∈ s.unread, b < 0x80) ∧
      ∀ len rest, k.readLen take host endian s.unread = .ok len rest →
        limit < len.toNat ∨ len.toNat ≤ rest.length := by
  constructor
  · intro k hk
    have hmirrors := related_kind related_mirrors mirrors_read host endian hk
    exact (hmirrors.atomic_iff h).trans (stays_kind host endian hk)
  · intro k limit
    rw [atomic_string host endian h, stays_len]

/-- Two bytes before the end. -/
def nearEnd : ByteArray := { twoBlocks with position := 6, cur := some 1 }

theorem failed_reads_atomic_numbers : WF nearEnd ∧
    Kind.fuint32.read readCall .little .big nearEnd = .error (.read .outOfRange) nearEnd ∧
    Atomic (Kind.fuint32.read readCall .little .big) nearEnd ∧
    Kind.uint32.read readCall .little .big nearEnd = .ok (.uint32 7) { nearEnd with position := 7 } ∧
    Atomic (Kind.uint32.read readCall .little .big) nearEnd := by
  have hwf : WF nearEnd := ⟨by decide, by decide, twoBlocks_wf.blocks, by decide, by decide, by decide, by decide⟩
  have h := (failed_reads_atomic .little .big hwf).1
  refine ⟨hwf, rfl, (h .fuint32 (by decide)).2 fun n hn => ?_, rfl, (h .uint32 (by decide)).2 fun n hn => ?_⟩
  · cases hn
  · cases hn
    decide

/-- The prefix of 16 bits announces 513 bytes, six are left: the prefix is taken off all the same. -/
theorem string_prefix_taken : ¬ ∀ (host endian : Endian) (s : ByteArray), WF s →
    (∀ k : Kind, k ≠ .stringF64 ∧ k ≠ .stringVint → Atomic (k.read readCall host endian) s) ∧
    ∀ (k : StrKind) (limit : Nat), Atomic (stringCall host endian limit k) s := by
  intro h
  have hatomic := (h .little .little twoBlocks twoBlocks_wf).2 .f16 1000
  rw [atomic_string .little .little twoBlocks_wf] at hatomic
  exact absurd (hatomic.2 513 [3, 4, 5, 6, 7, 8] rfl) (by decide)

end Failures

/-! ## Reading nothing -/

section Nothing

theorem read_nothing (h : WF s) : (∃ s', s.read 0 = .ok ([], s')) ↔ s.position ≠ s.capacity := by
  constructor
  · rintro ⟨s', hread⟩ hc
    rw [read_null h hc] at hread
    cases hread
  · intro hc
    obtain ⟨s', hread, -⟩ := read_moves h (Nat.zero_le _) fun _ => hc
    exact ⟨s', hread⟩

/-- Where nothing can be read: not at the end of the chain. A string that was written is read back unless it is empty
and the prefix ends there. -/
theorem empty_payload_read (h : WF s) :
    ((∃ s', s.read 0 = .ok ([], s')) ↔ s.position ≠ s.capacity) ∧
    ∀ (k : StrKind) (limit : Nat) (value : Str) (rest : List UInt8),
      (k.written value).toNat = value.bytes.length → value.bytes.length ≤ limit →
      s.unread = (k.write host endian value).flatten ++ rest →
      ((∃ s', stringCall host endian limit k s = .ok value s' ∧ s'.unread = rest) ↔
        value.bytes ≠ [] ∨ s.position + (k.write host endian value).flatten.length ≠ s.capacity) := by
  refine ⟨read_nothing h, fun k limit value rest hvalue hlimit hunread => ?_⟩
  obtain ⟨pre, hwrite, hlen⟩ := reads_len host endian k value
  rw [hwrite, List.append_assoc] at hunread
  have htake : k.readLen take host endian s.unread = .ok (k.written value) (value.bytes ++ rest) := by
    rw [hunread]
    exact related_len related_agrees (fun n _ => agrees_read n) host endian k _ _ _ (hlen _)
  obtain ⟨s', hwf, hrest, hm, hcall⟩ := stringCall_ok host endian limit h htake
  obtain ⟨-, hnull, hread⟩ := readStr_chain hwf (k.written value)
  rw [hcall, if_pos (hvalue.trans_le hlimit), hwrite]
  rw [hvalue] at hnull hread
  -- what is unread before and after the prefix tells where the cursor stands
  have hposition : s'.position = s.position + pre.length := by
    have h1 := h.length_unread
    have h2 := hwf.length_unread
    rw [hunread, List.length_append] at h1
    rw [hrest, hm.size] at h2
    have h3 := h.position
    have h4 := hwf.position
    have h5 := hm.size
    omega
  by_cases hempty : value.bytes = [] ∧ s'.position = s'.capacity
  · obtain ⟨hnil, hc⟩ := hempty
    rw [hnull (by rw [hnil]; rfl) hc]
    refine iff_of_false (fun ⟨t, ht, _⟩ => by cases ht) ?_
    rw [hnil, List.append_nil, ← hposition, ← hm.capacity]
    exact not_or.2 ⟨not_not_intro rfl, not_not_intro hc⟩
  · obtain ⟨v, t, hok, hbytes, -, ht⟩ := hread (by simp [hrest]) fun h0 hc =>
      hempty ⟨List.length_eq_zero_iff.1 h0, hc⟩
    rw [hrest, List.take_left] at hbytes
    rw [hrest, List.drop_left] at ht
    obtain rfl : v = value := by
      cases v
      cases value
      cases hbytes
      rfl
    refine iff_of_true ⟨t, hok, ht⟩ ?_
    rw [or_iff_not_imp_left, not_not]
    intro hnil
    rw [hnil, List.append_nil, ← hposition, ← hm.capacity]
    exact fun hc => hempty ⟨hnil, hc⟩

theorem empty_payload_read_one : WF { twoBlocks with nodes := [[1, 0, 9, 4], [5, 6, 7, 8]] } ∧
    (∃ s', { twoBlocks with nodes := [[1, 0, 9, 4], [5, 6, 7, 8]] }.read 0 = .ok ([], s')) ∧
    ∃ s', stringCall .little .little 1 .f16 { twoBlocks with nodes := [[1, 0, 9, 4], [5, 6, 7, 8]] } =
      .ok ⟨[9], by decide⟩ s' ∧ s'.unread = [4, 5, 6, 7, 8] := by
  have hwf : WF { twoBlocks with nodes := [[1, 0, 9, 4], [5, 6, 7, 8]] } :=
    ⟨by decide, by decide, by unfold Uniform; decide, by decide, by decide, by decide, by decide⟩
  have hread := empty_payload_read .little .little hwf
  have hstring := hread.2 .f16 1 ⟨[9], by decide⟩ [4, 5, 6, 7, 8] (by decide) (by decide) (by decide)
  exact ⟨hwf, hread.1.2 (by decide), hstring.2 (.inl (by decide))⟩

/-- All eight bytes are read: the current node is null, and a read of no bytes asks it for its size. -/
theorem null_node_asked : ¬ ∀ (host endian : Endian) (s : ByteArray), WF s →
    (∃ s', s.read 0 = .ok ([], s')) ∧
    ∀ (k : StrKind) (limit : Nat) (value : Str) (rest : List UInt8),
      (k.written value).toNat = value.bytes.length → value.bytes.length ≤ limit →
      s.unread = (k.write host endian value).flatten ++ rest →
      ∃ s', stringCall host endian limit k s = .ok value s' ∧ s'.unread = rest := by
  intro h
  have hwf : WF { twoBlocks with position := 8, cur := none } :=
    ⟨by decide, by decide, twoBlocks_wf.blocks, by decide, by decide, by decide, by decide⟩
  obtain ⟨s', hread⟩ := (h .little .little _ hwf).1
  cases hread

end Nothing

end ServerFrame.Buffers
