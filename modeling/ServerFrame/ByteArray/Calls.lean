/-
The typed readers on the block chain. A call ends with a value or an exception and leaves a state either way. What
`resize` refuses is a limit on the length.
-/
import ServerFrame.ByteArray.Positional
import ServerFrame.ByteArray.Typed

namespace ServerFrame.Buffers

open Blocks Readers Codec

/-- Where the exception of a reader comes from. -/
inductive CallFault
  | read (f : Fault)
  | resize
  deriving DecidableEq, Repr

abbrev Call (α : Type) := EStateM CallFault ByteArray α

theorem length_readLoop : ∀ {chain : List (List UInt8)} {node : List UInt8} {npos p n : Nat}
    {r : List UInt8 × Nat × Nat}, ByteArray.readLoop (node :: chain) npos (node.length - npos) p n = .ok r →
    r.1.length = n
  | chain, node, npos, p, 0, r, h => by
    rw [ByteArray.readLoop] at h
    cases h
    rfl
  | [], node, npos, p, n + 1, r, h => by
    rw [ByteArray.readLoop.eq_def] at h
    simp only at h
    split at h
    · rename_i hge
      cases h
      rw [List.length_take, List.length_drop]
      omega
    · cases h
  | next :: chain, node, npos, p, n + 1, r, h => by
    rw [ByteArray.readLoop.eq_def] at h
    simp only at h
    split at h
    · rename_i hge
      cases h
      rw [List.length_take, List.length_drop]
      omega
    · rename_i hlt
      split at h
      · cases h
      · rename_i buf q moved hrun
        cases h
        rw [← Nat.sub_zero next.length] at hrun
        have hlen := length_readLoop hrun
        rw [List.length_append, List.length_take, List.length_drop]
        simp only at hlen
        omega

/-- What `read` returns is as long as it was asked for, and only the cursor moves. -/
theorem read_ok {s s' : ByteArray} {n : Nat} {buf : List UInt8} (h : s.read n = .ok (buf, s')) :
    buf.length = n ∧ s' = { s with position := s'.position, cur := s'.cur } := by
  rw [ByteArray.read] at h
  split at h
  · cases h
  · split at h
    · cases h
    · simp only at h
      split at h
      · cases h
      · split at h
        · cases h
        · rename_i hrun
          cases h
          exact ⟨length_readLoop hrun, rfl⟩

/-- `read(buf, size)` as a call. -/
def readCall (n : Nat) : Call { l : List UInt8 // l.length = n } := fun s =>
  match h : s.read n with
  | .ok (buf, s') => .ok ⟨buf, (read_ok h).1⟩ s'
  | .error f => .error (.read f) s

/-- `buff.resize(len)` of a string that can be as long as `limit`. -/
def resizeCall (limit : Nat) (len : UInt64) : Call Unit := fun s =>
  if len.toNat ≤ limit then .ok () s else .error .resize s

/-! ## The cursor moves on -/

/-- The same blocks, with the cursor further on. -/
structure Moved (s s' : ByteArray) : Prop where
  same : s' = { s with position := s'.position, cur := s'.cur }
  le : s.position ≤ s'.position

section Moves

variable {s s' t : ByteArray} {n : Nat}

theorem Moved.refl (s : ByteArray) : Moved s s := ⟨rfl, le_rfl⟩

theorem Moved.trans (h : Moved s s') (h' : Moved s' t) : Moved s t := by
  refine ⟨?_, h.le.trans h'.le⟩
  have h1 := h.same
  have h2 := h'.same
  rw [h1] at h2
  exact h2

theorem Moved.size (h : Moved s s') : s'.size = s.size := by rw [h.same]

theorem Moved.capacity (h : Moved s s') : s'.capacity = s.capacity := by rw [h.same]

/-- A cursor that has taken nothing off is where it was. -/
theorem Moved.eq_iff (hm : Moved s s') (h : WF s) (h' : WF s') : s' = s ↔ s'.unread = s.unread := by
  refine ⟨fun he => by rw [he], fun hu => ?_⟩
  have hlen := congrArg List.length hu
  have h1 := h.position
  have h2 := h'.position
  rw [h.length_unread, h'.length_unread, hm.size] at hlen
  have hsize := hm.size
  have hposition : s'.position = s.position := by omega
  have hcur : s'.cur = s.cur := by
    rw [h'.cur, h.cur, hposition, hm.capacity, show s'.baseSize = s.baseSize by rw [hm.same]]
  rw [hm.same, hposition, hcur]

theorem read_moves (h : WF s) (hn : n ≤ s.unread.length) (hc : n = 0 → s.position ≠ s.capacity) :
    ∃ s', s.read n = .ok (s.unread.take n, s') ∧ WF s' ∧ s'.unread = s.unread.drop n ∧ Moved s s' ∧
      s'.position = s.position + n := by
  rw [h.length_unread] at hn
  obtain ⟨s', hread, hwf, hflat, -, hpos, hsize, -⟩ := read_spec h hn hc
  have htake : (s.flat.drop s.position).take n = s.unread.take n := by
    rw [ByteArray.unread, List.take_take, Nat.min_eq_left hn]
  refine ⟨s', by rw [hread, htake], hwf, ?_, ⟨(read_ok hread).2, by omega⟩, hpos⟩
  rw [ByteArray.unread, ByteArray.unread, hflat, hpos, hsize, List.drop_take, List.drop_drop, Nat.sub_sub]

theorem readCall_ok {buf : List UInt8} (h : s.read n = .ok (buf, s')) :
    readCall n s = .ok ⟨buf, (read_ok h).1⟩ s' := by
  unfold readCall
  split
  · rename_i hread
    obtain ⟨rfl, rfl⟩ := Prod.mk.inj (Except.ok.inj (h.symm.trans hread))
    rfl
  · rename_i hread
    cases h.symm.trans hread

theorem readCall_error {f : Fault} (h : s.read n = .error f) : readCall n s = .error (.read f) s := by
  unfold readCall
  split
  · rename_i hread
    cases h.symm.trans hread
  · rename_i hread
    cases h.symm.trans hread
    rfl

theorem read_throws (h : WF s) (hn : s.unread.length < n) : s.read n = .error .outOfRange := by
  rw [h.length_unread] at hn
  rw [ByteArray.read, if_pos (by unfold ByteArray.getReadSize; omega)]

/-- At the end of the chain the current node is null. -/
theorem read_null (h : WF s) (hc : s.position = s.capacity) : s.read 0 = .error .nullNode := by
  have hcur : s.cur = none := by rw [h.cur, if_pos hc]
  rw [ByteArray.read, if_neg (Nat.not_lt_zero _)]
  simp only [hcur]

end Moves

/-! ## Readers on the chain -/

section Mirrors

variable {α : Type} {s : ByteArray} (host endian : Endian)

/-- The call does to the unread bytes what the reader does, and throws where it fails. -/
structure Mirrors (α : Type) (t : Taker UInt8 α) (c : Call α) : Prop where
  ok : ∀ s, WF s → ∀ a rest, t s.unread = .ok a rest →
    ∃ s', c s = .ok a s' ∧ WF s' ∧ s'.unread = rest ∧ Moved s s'
  error : ∀ s, WF s → ∀ rest, t s.unread = .error () rest →
    ∃ s', c s = .error (.read .outOfRange) s' ∧ WF s' ∧ s'.unread = rest ∧ Moved s s'

theorem related_mirrors : Related Mirrors where
  pure a :=
    { ok := fun s h b rest hrun => by cases hrun; exact ⟨s, rfl, h, rfl, .refl s⟩
      error := fun s h rest hrun => by cases hrun }
  bind {α γ x y f g} hxy hfg := by
    constructor
    · intro s h b rest hrun
      cases hx : x s.unread with
      | error e mid =>
        rw [bind_error hx] at hrun
        cases hrun
      | ok a mid =>
        rw [bind_ok hx] at hrun
        obtain ⟨s', hy, hwf, hmid, hm⟩ := hxy.ok s h a mid hx
        obtain ⟨t, hg, hwf', hrest, hm'⟩ := (hfg a).ok s' hwf b rest (by rw [hmid, hrun])
        exact ⟨t, by rw [bind_ok hy, hg], hwf', hrest, hm.trans hm'⟩
    · intro s h rest hrun
      cases hx : x s.unread with
      | error e mid =>
        rw [bind_error hx] at hrun
        injection hrun with _ hmid
        obtain ⟨s', hy, hwf, hrest, hm⟩ := hxy.error s h rest (hmid ▸ hx)
        exact ⟨s', by rw [bind_error hy], hwf, hrest, hm⟩
      | ok a mid =>
        rw [bind_ok hx] at hrun
        obtain ⟨s', hy, hwf, hmid, hm⟩ := hxy.ok s h a mid hx
        obtain ⟨t, hg, hwf', hrest, hm'⟩ := (hfg a).error s' hwf rest (by rw [hmid, hrun])
        exact ⟨t, by rw [bind_ok hy, hg], hwf', hrest, hm.trans hm'⟩

/-- Reading at least one byte. -/
theorem mirrors_read (n : Nat) (hn : 0 < n) : Mirrors _ (take n) (readCall n) where
  ok s h a rest hrun := by
    rcases Nat.lt_or_ge s.unread.length n with hlt | hge
    · rw [take_of_lt hlt] at hrun
      cases hrun
    · rw [take_of_le hge] at hrun
      cases hrun
      obtain ⟨s', hread, hwf, hrest, hm, -⟩ := read_moves h hge fun h0 => absurd h0 hn.ne'
      exact ⟨s', readCall_ok hread, hwf, hrest, hm⟩
  error s h rest hrun := by
    rcases Nat.lt_or_ge s.unread.length n with hlt | hge
    · rw [take_of_lt hlt] at hrun
      cases hrun
      exact ⟨s, readCall_error (read_throws h hlt), h, rfl, .refl s⟩
    · rw [take_of_le hge] at hrun
      cases hrun

/-- When the call throws `std::out_of_range`, the state is as before. -/
def Atomic (c : Call α) (s : ByteArray) : Prop := ∀ s', c s = .error (.read .outOfRange) s' → s' = s

theorem Mirrors.atomic_iff {t : Taker UInt8 α} {c : Call α} (hm : Mirrors α t c) (h : WF s) :
    Atomic c s ↔ Stays t s.unread := by
  cases hrun : t s.unread with
  | ok a rest =>
    obtain ⟨s', hc, -⟩ := hm.ok s h a rest hrun
    refine iff_of_true (fun t ht => ?_) fun rest h => ?_
    · rw [hc] at ht
      cases ht
    · rw [hrun] at h
      cases h
  | error e rest =>
    obtain ⟨s', hc, hwf, hrest, hmoved⟩ := hm.error s h rest hrun
    rw [Atomic, Stays, hc, hrun]
    constructor
    · intro hatomic rest' hr
      cases hr
      rw [← hrest, hatomic s' rfl]
    · intro hstays t ht
      cases ht
      exact (hmoved.eq_iff h hwf).2 (hrest.trans (hstays rest rfl))

/-! ## Strings -/

section Strings

variable {k : StrKind}

/-- A reader of strings on the chain. -/
abbrev stringCall (limit : Nat) (k : StrKind) : Call Str := k.readString readCall (resizeCall limit) host endian

/-- The call up to `read(&buff[0], len)`. -/
theorem stringCall_ok (limit : Nat) (h : WF s) {len : UInt64} {rest : List UInt8}
    (hlen : k.readLen take host endian s.unread = .ok len rest) :
    ∃ s', WF s' ∧ s'.unread = rest ∧ Moved s s' ∧ stringCall host endian limit k s =
      if len.toNat ≤ limit then readStr readCall len s' else .error .resize s' := by
  obtain ⟨s', hc, hwf, hrest, hm⟩ := (related_len related_mirrors mirrors_read host endian k).ok s h len rest hlen
  refine ⟨s', hwf, hrest, hm, ?_⟩
  rw [stringCall, StrKind.readString, bind_ok hc]
  by_cases hle : len.toNat ≤ limit
  · have hresize : resizeCall limit len s' = .ok () s' := if_pos hle
    rw [bind_ok hresize, if_pos hle]
  · have hresize : resizeCall limit len s' = .error .resize s' := if_neg hle
    rw [bind_error hresize, if_neg hle]

theorem stringCall_error (limit : Nat) (h : WF s) {rest : List UInt8}
    (hlen : k.readLen take host endian s.unread = .error () rest) :
    ∃ s', WF s' ∧ s'.unread = rest ∧ Moved s s' ∧
      stringCall host endian limit k s = .error (.read .outOfRange) s' := by
  obtain ⟨s', hc, hwf, hrest, hm⟩ := (related_len related_mirrors mirrors_read host endian k).error s h rest hlen
  exact ⟨s', hwf, hrest, hm, by rw [stringCall, StrKind.readString, bind_error hc]⟩

/-- The last part of the string readers: nothing is read at the end of the chain only when it is nothing. -/
theorem readStr_chain (h : WF s) (len : UInt64) :
    (s.unread.length < len.toNat → readStr readCall len s = .error (.read .outOfRange) s) ∧
    (len.toNat = 0 → s.position = s.capacity → readStr readCall len s = .error (.read .nullNode) s) ∧
    (len.toNat ≤ s.unread.length → (len.toNat = 0 → s.position ≠ s.capacity) →
      ∃ value s', readStr readCall len s = .ok value s' ∧ value.bytes = s.unread.take len.toNat ∧ WF s' ∧
        s'.unread = s.unread.drop len.toNat) := by
  refine ⟨fun hlt => ?_, fun h0 hc => ?_, fun hle hc => ?_⟩
  · rw [readStr, bind_error (readCall_error (read_throws h hlt))]
  · have hnull : s.read len.toNat = .error .nullNode := by
      rw [h0]
      exact read_null h hc
    rw [readStr, bind_error (readCall_error hnull)]
  · obtain ⟨s', hread, hwf, hrest, -, -⟩ := read_moves h hle hc
    rw [readStr, bind_ok (readCall_ok hread)]
    exact ⟨_, s', rfl, rfl, hwf, hrest⟩

end Strings

end Mirrors

end ServerFrame.Buffers
