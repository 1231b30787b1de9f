/-
The number on the line of a chunk (action `chunk_size` of `httpclient_parser.rl`) and what `recvResponse` does with it,
for any digits on a line that is whole in the buffer, and whatever comes behind it.
-/
import ServerFrame.Http.Chunked
import Mathlib.Data.Bool.AllAny

namespace ServerFrame.Http

open Ragel CLib

/-- The count that `body.append(data, …)` gets, `len` bytes being in the buffer. -/
def appended (contentLen : Int) (len : Nat) : Nat := if contentLen + 2 ≤ len then sizeT contentLen else len

/-- What has to hold of the size behind a line with these digits, `len` bytes being left in the buffer: it is the number
of the digits, or `nullptr` is returned; only the size zero is the last one; no more bytes are appended than there are,
and the sums are ones of `int`, of which the second is only computed for a chunk that is not all in the buffer. -/
structure SizeSafe (ds : List UInt8) (h : HttpResponseParser) (data : Nat → UInt8) (len : Nat) : Prop where
  exact_or_null : ∀ buffSize body s, h.parser.contentLen = value 16 ds ∨
    ∃ s', HttpConnection.chunk buffSize h.parser.contentLen data len body s = .ok (none, s')
  done : h.parser.chunksDone = true → value 16 ds = 0
  append : appended h.parser.contentLen len ≤ len
  sum : -2 ^ 31 ≤ h.parser.contentLen + 2 ∧ h.parser.contentLen + 2 < 2 ^ 31
  left : len < h.parser.contentLen + 2 →
    -2 ^ 31 ≤ h.parser.contentLen - len ∧ h.parser.contentLen - len + 2 < 2 ^ 31

/-- The line with these digits, however it ends, is used safely after any call of the parser that is given it. -/
def LineSafe (ds : List UInt8) : Prop :=
  ∀ (h h' : HttpResponseParser) (buffer data : Nat → UInt8) (len n : Nat) (e : List UInt8), e = [13, 10] ∨ e = [10] →
    At buffer 0 (ds ++ e) → (ds ++ e).length ≤ len → h.execute buffer len true = .ok (h', data, n) →
    SizeSafe ds h' data (len - n)

section Size

variable {ds : List UInt8}

/-- The size that the loop over the chunks goes on with is that of the last call of the parser, and so is what is left
in the buffer; what every call keeps of the parser still holds before it. -/
theorem sizeLoop_execute {P : HttpResponseParser → Prop}
    (hkeep : ∀ {h h' : HttpResponseParser} {buffer data : Nat → UInt8} {len n : Nat}, P h →
      h.execute buffer len true = .ok (h', data, n) → P h')
    {buffSize turns : Nat} {begin : Bool} {h h' : HttpResponseParser} {data data' : Nat → UInt8} {len len' : Nat}
    {s s' : Session} (hp : P h)
    (hloop : HttpConnection.sizeLoop buffSize turns begin h data len s = .ok (some (h', data', len'), s')) :
    ∃ h₀ buffer total n, P h₀ ∧ HttpResponseParser.execute h₀ buffer total true = .ok (h', data', n) ∧
      len' = total - n := by
  induction turns generalizing begin h data len s with
  | zero => cases hloop
  | succ turns ih =>
    rw [HttpConnection.sizeLoop] at hloop
    dsimp only at hloop
    generalize (if (!begin || len == 0) = true then (s.read (buffSize - len)).1 else []) = piece at hloop
    generalize (if (!begin || len == 0) = true then (s.read (buffSize - len)).2 else s) = s₁ at hloop
    split at hloop
    · cases hloop
    · split at hloop
      · cases hloop
      · rename_i hex
        split at hloop
        · cases hloop
        · split at hloop
          · cases hloop
          · split at hloop
            · cases hloop
              exact ⟨_, _, _, _, hp, hex, rfl⟩
            · exact ih (hkeep hp hex) hloop

theorem lineSafe_of_lt (hne : ds ≠ []) (hhex : ∀ d ∈ ds, digitValue d < 16) (hlt : value 16 ds + 2 < 2 ^ 31) :
    LineSafe ds := by
  intro h h' buffer data len n e he hat hle hex
  obtain ⟨-, -, h31, hnul, -⟩ := HttpResponseParser.execute_ok hex
  obtain ⟨h'', hex', hlined⟩ := execute_digits hne hhex he h hat hle h31 hnul
  cases hex.symm.trans hex'
  have hlen : h'.parser.contentLen = value 16 ds := by
    rw [hlined.contentLen, Int.min_eq_left (by omega)]
    exact Int.bmod_eq_of_le_mul_two (by omega) (by omega)
  refine ⟨fun _ _ _ => .inl hlen, fun hdone => ?_, ?_, ?_, fun _ => ?_⟩
  · rw [hlined.chunksDone, decide_eq_true_eq, hlen] at hdone
    omega
  · rw [appended, hlen]
    split
    · rw [sizeT_natCast (by omega)]
      omega
    · exact Nat.le_refl _
  · rw [hlen]
    omega
  · rw [hlen]
    omega

/-- A number of `2 ^ 31` or more is never given as it is, and the two below it are too large for the sum. -/
theorem not_sizeSafe {h h' : HttpResponseParser} (hlined : Lined ds h h') (data : Nat → UInt8)
    (hge : 2 ^ 31 ≤ value 16 ds + 2) : ¬ SizeSafe ds h' data 0 := by
  intro hsafe
  have hlen := hlined.contentLen
  have hsum := hsafe.sum.2
  have hlarge : 2 ^ 31 ≤ value 16 ds := by
    by_contra hlt
    rw [Int.min_eq_left (by omega), Int.bmod_eq_of_le_mul_two (by omega) (by omega)] at hlen
    omega
  rcases lt_or_ge 0 h'.parser.contentLen with hpos | hneg
  · -- some stream holds a chunk of the wrong length
    obtain ⟨k, hk⟩ : ∃ k : Nat, h'.parser.contentLen = k := Int.eq_ofNat_of_zero_le hpos.le
    have hpayload : (List.replicate k (0 : UInt8)).length = k := List.length_replicate
    have hstream : slice data 0 0 ++ [List.replicate k 0 ++ [13, 10]].flatten =
        List.replicate k 0 ++ [13, 10] ++ [] := by
      rw [List.flatten_singleton, List.append_nil]
      rfl
    have hpiece : ∀ p ∈ [List.replicate k (0 : UInt8) ++ [13, 10]], p ≠ [] := by
      rw [List.forall_mem_singleton]
      exact List.append_ne_nil_of_right_ne_nil _ (List.cons_ne_nil _ _)
    have h64 : 0 < 64 := by decide
    obtain ⟨data', len', hchunk, -⟩ :=
      chunk_whole h64 (by decide) hpiece (by rw [hpayload]; omega) hstream []
    rw [hpayload, ← hk] at hchunk
    rcases hsafe.exact_or_null 64 [] { input := [List.replicate k 0 ++ [13, 10]] } with heq | ⟨s', hnone⟩
    · omega
    · cases hchunk.symm.trans hnone
  · have hdone := hsafe.done (by rw [hlined.chunksDone, decide_eq_true hneg])
    omega

theorem at_cstr (l : List UInt8) : At (cstr l) 0 l := by
  intro i c hi
  rw [Nat.zero_add, cstr, List.getD_eq_getElem?_getD, hi, Option.getD_some]

/-- The line with a line feed, alone in the buffer. -/
theorem exists_line (hne : ds ≠ []) (hhex : ∀ d ∈ ds, digitValue d < 16) (hfits : ds.length + 1 < 2 ^ 31)
    (h : HttpResponseParser) : ∃ h' data, h.execute (cstr (ds ++ [10])) (ds.length + 1) true =
      .ok (h', data, ds.length + 1) ∧ Lined ds h h' := by
  have hlength : (ds ++ [10]).length = ds.length + 1 := List.length_append
  have hnul : cstr (ds ++ [10]) (ds.length + 1) = 0 := by
    rw [cstr, List.getD_eq_getElem?_getD, List.getElem?_eq_none hlength.le, Option.getD_none]
  obtain ⟨h', hex, hlined⟩ := execute_digits hne hhex (.inr rfl) h (at_cstr _) hlength.le hfits hnul
  rw [hlength] at hex
  exact ⟨h', _, hex, hlined⟩

theorem not_lineSafe (hne : ds ≠ []) (hhex : ∀ d ∈ ds, digitValue d < 16) (hfits : ds.length + 1 < 2 ^ 31)
    (hge : 2 ^ 31 ≤ value 16 ds + 2) : ¬ LineSafe ds := by
  intro hsafe
  obtain ⟨h', data, hex, hlined⟩ := exists_line hne hhex hfits client.object
  have hlength : (ds ++ [10]).length = ds.length + 1 := List.length_append
  have hsize := hsafe client.object h' _ data _ _ [10] (.inr rfl) (at_cstr _) hlength.le hex
  rw [Nat.sub_self] at hsize
  exact not_sizeSafe hlined data hge hsize

/-- The size of a chunk is used safely exactly if the number, with two added for the line end, is one of `int`, unless
the line is too long for any buffer. -/
theorem chunk_size_safe_iff (hne : ds ≠ []) (hhex : ∀ d ∈ ds, digitValue d < 16) :
    LineSafe ds ↔ (ds.length + 1 < 2 ^ 31 → value 16 ds + 2 < 2 ^ 31) := by
  constructor
  · intro hsafe hfits
    by_contra hge
    exact not_lineSafe hne hhex hfits (Nat.le_of_not_lt hge) hsafe
  · intro hlt
    by_cases hfits : ds.length + 1 < 2 ^ 31
    · exact lineSafe_of_lt hne hhex (hlt hfits)
    · -- the assertion on the length refuses the line
      intro h h' buffer data len n e he hat hle hex
      obtain ⟨-, -, h31, -⟩ := HttpResponseParser.execute_ok hex
      rw [List.length_append] at hle
      rcases he with rfl | rfl
      · simp only [List.length_cons, List.length_nil] at hle
        omega
      · simp only [List.length_cons, List.length_nil] at hle
        omega

/-- `chunk_size_safe_iff` for a chunk of ten bytes. -/
theorem chunk_size_safe_iff_ten : LineSafe (bytes "a") :=
  (chunk_size_safe_iff (by decide) (List.all_iff_forall_prop.1 (by decide))).2 fun _ => by decide

/-- A size of `2 ^ 32` is taken for zero, and for the end of the chunks. -/
theorem wrapped_size_not_safe : ¬ ∀ ds : List UInt8, ds ≠ [] → (∀ d ∈ ds, digitValue d < 16) → LineSafe ds := by
  intro hall
  have hne : bytes "100000000" ≠ [] := by decide
  have hhex : ∀ d ∈ bytes "100000000", digitValue d < 16 := List.all_iff_forall_prop.1 (by decide)
  exact not_lineSafe hne hhex (by decide) (by decide) (hall _ hne hhex)

end Size

end ServerFrame.Http
