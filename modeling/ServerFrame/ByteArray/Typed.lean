/-
The typed readers as programs over `read`: what any two readings of `read` have in common the readers have too; and
what a reader takes off a list of bytes, also when it fails.
-/
import ServerFrame.ByteArray.Strings

namespace ServerFrame.Codec

open Readers

/-! ## Programs over `read` -/

section Related

variable {m m' : Type → Type} [Monad m] [Monad m'] {R : (α : Type) → m α → m' α → Prop} (hR : Related R)
  {read : (n : Nat) → m { l : List UInt8 // l.length = n }} {read' : (n : Nat) → m' { l : List UInt8 // l.length = n }}
  (hread : ∀ n, 0 < n → R _ (read n) (read' n)) (host endian : Endian)

include hR hread

theorem related_fixed {k : Nat} (hk : 0 < k) : R _ (readFixed read host endian k) (readFixed read' host endian k) :=
  hR.ret (hread k hk) fun buf =>
    if endian = host then ofMemory host buf.1 else byteswap k (ofMemory host buf.1)

theorem related_fuint8 : R _ (readFuint8 read host) (readFuint8 read' host) :=
  hR.ret (hread 1 (by decide)) fun buf => UInt8.ofNat (ofMemory host buf.1)

theorem related_varint (w : Nat) {n i result : Nat} :
    R _ (readVarint read host w n i result) (readVarint read' host w n i result) := by
  induction n generalizing i result with
  | zero => exact hR.pure result
  | succ n ih =>
    refine hR.bind (related_fuint8 hR hread host) fun b => ?_
    by_cases hb : b < 0x80
    · rw [if_pos hb, if_pos hb]
      exact hR.pure _
    · rw [if_neg hb, if_neg hb]
      exact ih

theorem related_len (k : StrKind) : R _ (k.readLen read host endian) (k.readLen read' host endian) := by
  cases k with
  | f16 => exact hR.ret (hR.ret (related_fixed hR hread host endian (by decide)) _) _
  | f32 => exact hR.ret (hR.ret (related_fixed hR hread host endian (by decide)) _) _
  | f64 => exact hR.ret (related_fixed hR hread host endian (by decide)) _
  | vint => exact hR.ret (related_varint hR hread host 64) _

/-- A kind that is not a string. -/
theorem related_kind {k : Kind} (hk : k ≠ .stringF64 ∧ k ≠ .stringVint) :
    R _ (k.read read host endian) (k.read read' host endian) := by
  cases k with
  | fint8 => exact hR.ret (hR.ret (hread 1 (by decide)) _) _
  | fuint8 => exact hR.ret (related_fuint8 hR hread host) _
  | fint16 | fuint16 | fint32 | fuint32 | fint64 | fuint64 | float | double =>
    exact hR.ret (hR.ret (related_fixed hR hread host endian (by decide)) _) _
  | int32 | int64 => exact hR.ret (hR.ret (hR.ret (related_varint hR hread host _) _) _) _
  | uint32 | uint64 => exact hR.ret (hR.ret (related_varint hR hread host _) _) _
  | stringF64 => exact absurd rfl hk.1
  | stringVint => exact absurd rfl hk.2

end Related

/-! ## What a reader takes off any bytes -/

section Takers

variable {α γ : Type} {l : List UInt8} (host endian : Endian)

/-- When the reader fails, nothing is taken off. -/
def Stays (t : Taker UInt8 α) (l : List UInt8) : Prop := ∀ rest, t l = .error () rest → rest = l

theorem stays_ret {t : Taker UInt8 α} {f : α → γ} : Stays (t >>= fun a => pure (f a)) l ↔ Stays t l := by
  have hbind : ∀ rest, (t >>= fun a => pure (f a)) l = .error () rest ↔ t l = .error () rest := by
    intro rest
    cases hrun : t l with
    | ok a l' =>
      rw [bind_ok hrun]
      exact iff_of_false (fun h => by cases h) fun h => by cases h
    | error e l' =>
      rw [bind_error hrun]
      exact ⟨fun h => by cases h; rfl, fun h => by cases h; rfl⟩
  exact forall_congr' fun rest => imp_congr_left (hbind rest)

theorem stays_take {n : Nat} : Stays (take n) l := by
  intro rest h
  rcases Nat.lt_or_ge l.length n with hlt | hge
  · rw [take_of_lt hlt] at h
    cases h
    rfl
  · rw [take_of_le hge] at h
    cases h

theorem stays_fixed {k : Nat} : Stays (readFixed take host endian k) l := stays_ret.2 stays_take

theorem take_fuint8 (b : UInt8) : readFuint8 take host (b :: l) = .ok b l := by
  have hb : ofMemory host [b] = b.toNat := by cases host <;> simp [ofMemory, Digits.ofBytes]
  rw [readFuint8, bind_ok (take_of_le (by simp))]
  change EStateM.Result.ok (UInt8.ofNat (ofMemory host [b])) l = _
  rw [hb, UInt8.ofNat_toNat]

theorem varint_cons (w : Nat) {n i result : Nat} (b : UInt8) : readVarint take host w (n + 1) i result (b :: l) =
    (if b < 0x80 then (pure (result ||| b.toNat <<< i % 2 ^ w) : Taker UInt8 Nat)
      else readVarint take host w n (i + 7) (result ||| (b &&& 0x7f).toNat <<< i % 2 ^ w)) l := by
  rw [readVarint, bind_ok (take_fuint8 host b)]

/-- The loop ends early where the bytes end before its rounds do and none of them ends the number. -/
theorem varint_error (w : Nat) {n i result : Nat} (hn : l.length < n) (hl : ∀ b ∈ l, ¬ b < 0x80) :
    readVarint take host w n i result l = .error () [] := by
  induction l generalizing n i result with
  | nil =>
    obtain ⟨n, rfl⟩ := Nat.exists_eq_succ_of_ne_zero (Nat.ne_zero_of_lt hn)
    rfl
  | cons b l ih =>
    obtain ⟨n, rfl⟩ := Nat.exists_eq_succ_of_ne_zero (Nat.ne_zero_of_lt hn)
    rw [List.forall_mem_cons] at hl
    rw [varint_cons, if_neg hl.1]
    exact ih (Nat.lt_of_succ_lt_succ hn) hl.2

theorem varint_ok (w : Nat) {n i result : Nat} (h : n ≤ l.length ∨ ∃ b ∈ l, b < 0x80) :
    ∃ v rest, readVarint take host w n i result l = .ok v rest ∧ (0 < n → rest.length < l.length) := by
  induction n generalizing l i result with
  | zero => exact ⟨result, l, rfl, fun h0 => absurd h0 (Nat.lt_irrefl 0)⟩
  | succ n ih =>
    cases l with
    | nil => simp at h
    | cons b l =>
      rw [varint_cons]
      by_cases hb : b < 0x80
      · rw [if_pos hb]
        exact ⟨_, l, rfl, fun _ => Nat.lt_succ_self _⟩
      · rw [if_neg hb]
        have hrest : n ≤ l.length ∨ ∃ b ∈ l, b < 0x80 := by
          rcases h with hn | ⟨c, hc, hlt⟩
          · exact .inl (Nat.le_of_succ_le_succ hn)
          · rcases List.mem_cons.1 hc with rfl | hc
            · exact absurd hlt hb
            · exact .inr ⟨c, hc, hlt⟩
        obtain ⟨v, rest, hrun, hlen⟩ := ih hrest
        refine ⟨v, rest, hrun, fun _ => ?_⟩
        rcases Nat.eq_zero_or_pos n with rfl | hpos
        · cases hrun
          exact Nat.lt_succ_self _
        · exact Nat.lt_trans (hlen hpos) (Nat.lt_succ_self _)

/-- The loop takes nothing off when it fails exactly if there is nothing, or it does not fail. -/
theorem stays_varint (w : Nat) {n i result : Nat} : Stays (readVarint take host w n i result) l ↔
    l = [] ∨ n ≤ l.length ∨ ∃ b ∈ l, b < 0x80 := by
  by_cases h : n ≤ l.length ∨ ∃ b ∈ l, b < 0x80
  · obtain ⟨v, rest, hrun, -⟩ := varint_ok host w h
    refine iff_of_true (fun rest h => ?_) (.inr h)
    rw [hrun] at h
    cases h
  · have hrun : readVarint take host w n i result l = .error () [] := by
      rw [not_or, not_exists] at h
      exact varint_error host w (Nat.not_le.1 h.1) fun b hb hlt => h.2 b ⟨hb, hlt⟩
    rw [or_iff_left h]
    refine ⟨fun hs => (hs [] hrun).symm, ?_⟩
    rintro rfl rest hrest
    rw [hrun] at hrest
    cases hrest
    rfl

/-- The rounds of the loop of a reader of variable length. -/
def Kind.rounds : Kind → Option Nat
  | int32 | uint32 => some 5
  | int64 | uint64 => some 10
  | _ => none

theorem stays_kind {k : Kind} (hk : k ≠ .stringF64 ∧ k ≠ .stringVint) : Stays (k.read take host endian) l ↔
    ∀ n, k.rounds = some n → l = [] ∨ n ≤ l.length ∨ ∃ b ∈ l, b < 0x80 := by
  have hnone : ∀ {P : Prop}, P → (P ↔ ∀ n, none = some n → l = [] ∨ n ≤ l.length ∨ ∃ b ∈ l, b < 0x80) := fun h =>
    iff_of_true h fun n hn => by cases hn
  have hsome : ∀ {P : Prop} {k : Nat}, (P ↔ l = [] ∨ k ≤ l.length ∨ ∃ b ∈ l, b < 0x80) →
      (P ↔ ∀ n, some k = some n → l = [] ∨ n ≤ l.length ∨ ∃ b ∈ l, b < 0x80) := fun h =>
    h.trans ⟨fun h n hn => Option.some.inj hn ▸ h, fun h => h _ rfl⟩
  cases k with
  | fint8 => exact hnone (stays_ret.2 (stays_ret.2 stays_take))
  | fuint8 => exact hnone (stays_ret.2 (stays_ret.2 stays_take))
  | fint16 | fuint16 | fint32 | fuint32 | fint64 | fuint64 | float | double =>
    exact hnone (stays_ret.2 (stays_ret.2 (stays_fixed host endian)))
  | int32 | int64 => exact hsome (stays_ret.trans (stays_ret.trans (stays_ret.trans (stays_varint host _))))
  | uint32 | uint64 => exact hsome (stays_ret.trans (stays_ret.trans (stays_varint host _)))
  | stringF64 => exact absurd rfl hk.1
  | stringVint => exact absurd rfl hk.2

theorem stays_len {k : StrKind} : Stays (k.readLen take host endian) l ↔
    (k = .vint → l = [] ∨ 10 ≤ l.length ∨ ∃ b ∈ l, b < 0x80) := by
  cases k with
  | f16 | f32 => exact iff_of_true (stays_ret.2 (stays_ret.2 (stays_fixed host endian))) fun h => by cases h
  | f64 => exact iff_of_true (stays_ret.2 (stays_fixed host endian)) fun h => by cases h
  | vint => exact (stays_ret.trans (stays_varint host 64)).trans ⟨fun h _ => h, fun h => h rfl⟩

/-- When the reader succeeds, something is taken off. -/
def Shortens (t : Taker UInt8 α) (l : List UInt8) : Prop := ∀ a rest, t l = .ok a rest → rest.length < l.length

theorem Shortens.ret {t : Taker UInt8 α} {f : α → γ} (h : Shortens t l) : Shortens (t >>= fun a => pure (f a)) l := by
  intro c rest hrun
  cases ht : t l with
  | ok a mid =>
    rw [bind_ok ht] at hrun
    injection hrun with _ hmid
    exact hmid ▸ h a mid ht
  | error e mid =>
    rw [bind_error ht] at hrun
    cases hrun

theorem shortens_take {n : Nat} (hn : 0 < n) : Shortens (take n) l := by
  intro a rest h
  rcases Nat.lt_or_ge l.length n with hlt | hge
  · rw [take_of_lt hlt] at h
    cases h
  · rw [take_of_le hge] at h
    cases h
    rw [List.length_drop]
    omega

theorem shortens_varint (w : Nat) {n i result : Nat} (hn : 0 < n) :
    Shortens (readVarint take host w n i result) l := by
  intro a rest h
  by_cases hl : n ≤ l.length ∨ ∃ b ∈ l, b < 0x80
  · obtain ⟨v, rest', hrun, hlt⟩ := varint_ok host w hl
    rw [hrun] at h
    cases h
    exact hlt hn
  · rw [not_or, not_exists] at hl
    rw [varint_error host w (Nat.not_le.1 hl.1) fun b hb hlt => hl.2 b ⟨hb, hlt⟩] at h
    cases h

theorem shortens_len (k : StrKind) : Shortens (k.readLen take host endian) l := by
  cases k with
  | f16 | f32 => exact (shortens_take (by decide)).ret.ret.ret
  | f64 => exact (shortens_take (by decide)).ret.ret
  | vint => exact (shortens_varint host 64 (by decide)).ret

end Takers

end ServerFrame.Codec
