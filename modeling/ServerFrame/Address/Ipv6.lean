/-
The text of an IPv6 address (`IPv6Address::insert` in `address.cc`). It compresses the first run of zero groups; read
by the rules of RFC 4291, it gives the bytes back, and `Address::Lookup` splits it off its port.
-/
import ServerFrame.Address.Lookup
import ServerFrame.Lib.Numerals
import Mathlib.Data.List.Basic
import Mathlib.Data.List.TakeWhile

namespace ServerFrame.Addresses

open Codec (Endian)
open CLib

namespace IPv6Address

/-! ## Printing -/

section Insert

variable (host : Endian)

/-- Entry `i` of `(uint16_t*) s6_addr`. -/
def wordAt (bytes : Vector (BitVec 8) 16) (i : Nat) : BitVec 16 :=
  let b (j : Nat) : BitVec 8 := if h : j < 16 then bytes[j] else 0
  if host = .little then b (2 * i + 1) ++ b (2 * i) else b (2 * i) ++ b (2 * i + 1)

/-- A turn of the loop over the groups, with what is printed and `used_zeros`. -/
def insertGroup (addr : Nat → BitVec 16) (s : List UInt8 × Bool) (i : Nat) : List UInt8 × Bool :=
  if addr i = 0 ∧ s.2 = false then s
  else
    let s := if i ≠ 0 ∧ addr (i - 1) = 0 ∧ s.2 = false then (s.1 ++ [58], true) else s
    let os := if i ≠ 0 then s.1 ++ [58] else s.1
    (os ++ numeral 16 (byteswapOnLittleEndian16 host (addr i)).toNat, s.2)

/-- What `insert` prints between the brackets. -/
def insertAddr (addr : Nat → BitVec 16) : List UInt8 :=
  let s := (List.range 8).foldl (insertGroup host addr) ([], false)
  if s.2 = false ∧ addr 7 = 0 then s.1 ++ [58, 58] else s.1

/-- `IPv6Address::getPort()`. -/
def getPort (a : IPv6Address) : Nat := (byteswapOnLittleEndian16 host a.addr.sin6Port).toNat

/-- `IPv6Address::insert(os)`: what it prints. -/
def insert (a : IPv6Address) : List UInt8 :=
  91 :: (insertAddr host (wordAt host a.addr.s6Addr) ++ 93 :: 58 :: numeral 10 (getPort host a))

end Insert

/-! ## Reading -/

/-- A group: one to four hexadecimal digits, for two bytes. -/
def parseGroup (w : List UInt8) : Option (List (BitVec 8)) :=
  if w ≠ [] ∧ w.length ≤ 4 ∧ w.all (digitValue · < 16) then
    some [BitVec.ofNat 8 (value 16 w / 256), BitVec.ofNat 8 (value 16 w)]
  else none

/-- A byte of an IPv4 address, in decimal. -/
def parseDecimal (w : List UInt8) : Option (BitVec 8) :=
  if w ≠ [] ∧ w.length ≤ 3 ∧ w.all (digitValue · < 10) ∧ value 10 w < 256 then some (BitVec.ofNat 8 (value 10 w))
  else none

/-- The last four bytes may be an IPv4 address. -/
def parseQuad (w : List UInt8) : Option (List (BitVec 8)) := do
  let bytes ← (w.splitOn 46).mapM parseDecimal
  if bytes.length = 4 then some bytes else none

/-- The groups between colons; `last` if they end the address. -/
def parseGroups (last : Bool) : List (List UInt8) → Option (List (BitVec 8))
  | [] => some []
  | [w] => (parseGroup w).or (if last then parseQuad w else none)
  | w :: ws => do return (← parseGroup w) ++ (← parseGroups last ws)

/-- One side of the `::`, which may be empty. -/
def parseSide (last : Bool) (t : List UInt8) : Option (List (BitVec 8)) :=
  if t = [] then some [] else parseGroups last (t.splitOn 58)

/-- The text before the first `::`, and that after it. -/
def cutZeros : List UInt8 → Option (List UInt8 × List UInt8)
  | [] => none
  | c :: t =>
    if c = 58 ∧ t.head? = some 58 then some ([], t.tail) else (cutZeros t).map fun x => (c :: x.1, x.2)

/-- An IPv6 literal: eight groups, or fewer with one `::` for one or more groups of zeros. -/
def parse (t : List UInt8) : Option (List (BitVec 8)) :=
  match cutZeros t with
  | none => do
    let bytes ← parseSide true t
    if bytes.length = 16 then some bytes else none
  | some (l, r) => do
    let left ← parseSide false l
    let right ← parseSide true r
    if left.length + right.length ≤ 14 then
      some (left ++ List.replicate (16 - left.length - right.length) 0 ++ right)
    else none

/-! ## What is printed -/

/-- Groups with colons between them. -/
def text (l : List Nat) : List UInt8 := [58].intercalate (l.map (numeral 16))

/-- What is printed of some groups: as they are, or without the first zeros, still to be closed or followed by more. -/
inductive Printed : List Nat → List UInt8 × Bool → Prop
  | plain {l : List Nat} (h : ∀ n ∈ l, n ≠ 0) : Printed l (text l, false)
  | zeros {l : List Nat} (k : Nat) : Printed (l ++ List.replicate (k + 1) 0) (text l, false)
  | after {l : List Nat} (k : Nat) {m : List Nat} (hm : m ≠ []) :
      Printed (l ++ List.replicate (k + 1) 0 ++ m) (text l ++ 58 :: 58 :: text m, true)

theorem text_append {l : List Nat} (h : l ≠ []) (n : Nat) : text (l ++ [n]) = text l ++ 58 :: numeral 16 n := by
  induction l with
  | nil => exact absurd rfl h
  | cons m l ih =>
    cases l with
    | nil => simp [text]
    | cons m' l =>
      have hih := ih (List.cons_ne_nil _ _)
      simp only [text, List.cons_append, List.map_cons, List.intercalate_cons_cons] at hih ⊢
      rw [hih, List.append_assoc, List.append_assoc, List.append_assoc]

section Printing

variable {host : Endian} {addr : Nat → BitVec 16}

/-- The number of group `i`. -/
def group (host : Endian) (addr : Nat → BitVec 16) (i : Nat) : Nat := (byteswapOnLittleEndian16 host (addr i)).toNat

theorem bswap16_append (x y : BitVec 8) : bswap16 (x ++ y) = y ++ x := by
  rw [bswap16, BitVec.extractLsb'_append_eq_right, BitVec.extractLsb'_append_eq_left]

theorem bswap16_bswap16 (x : BitVec 16) : bswap16 (bswap16 x) = x := by
  have hx : x.extractLsb' 8 8 ++ x.extractLsb' 0 8 = x := @BitVec.extractLsb'_append_extractLsb' 8 8 x
  show bswap16 (x.extractLsb' 0 8 ++ x.extractLsb' 8 8) = x
  rw [bswap16_append, hx]

theorem group_eq_zero {i : Nat} : group host addr i = 0 ↔ addr i = 0 := by
  have hnat : group host addr i = 0 ↔ byteswapOnLittleEndian16 host (addr i) = 0 := BitVec.toNat_inj (y := 0#16)
  rw [hnat, byteswapOnLittleEndian16]
  split
  · constructor
    · intro h
      rw [← bswap16_bswap16 (addr i), h]
      rfl
    · intro h
      rw [h]
      rfl
  · exact Iff.rfl

/-- The groups before `i` end with the one before it. -/
theorem range_last {l m : List Nat} {i n : Nat} (h : (List.range i).map (group host addr) = l ++ m)
    (hm : m.getLast? = some n) : i ≠ 0 ∧ group host addr (i - 1) = n := by
  cases i with
  | zero =>
    rw [List.range_zero, List.map_nil, eq_comm, List.append_eq_nil_iff] at h
    rw [h.2] at hm
    cases hm
  | succ i =>
    rw [List.range_succ, List.map_append] at h
    have hlast := congrArg List.getLast? h
    rw [List.getLast?_append, List.getLast?_append, hm] at hlast
    exact ⟨Nat.succ_ne_zero i, Option.some.inj hlast⟩

/-- Groups that end in zeros. -/
theorem range_zeros {i k : Nat} {l : List Nat}
    (h : (List.range i).map (group host addr) = l ++ List.replicate (k + 1) 0) :
    i ≠ 0 ∧ group host addr (i - 1) = 0 := by
  refine range_last h ?_
  rw [List.getLast?_replicate, if_neg (Nat.succ_ne_zero k)]

/-- A group that is printed after others. -/
theorem insertGroup_after {i : Nat} {os : List UInt8} {used : Bool} (hi : i ≠ 0) (hskip : ¬ (addr i = 0 ∧ used = false))
    (hplain : addr (i - 1) ≠ 0 ∨ used = true) :
    insertGroup host addr (os, used) i = (os ++ 58 :: numeral 16 (group host addr i), used) := by
  have hno : ¬ (i ≠ 0 ∧ addr (i - 1) = 0 ∧ used = false) := by
    rintro ⟨-, hzero, hused⟩
    rcases hplain with h | h
    · exact h hzero
    · rw [hused] at h
      cases h
  rw [insertGroup, if_neg hskip]
  simp only [if_neg hno, if_pos hi, List.append_assoc]
  rfl

/-- A group that is printed after zeros. -/
theorem insertGroup_zeros {i : Nat} {os : List UInt8} (hi : i ≠ 0) (hgroup : addr i ≠ 0) (hzero : addr (i - 1) = 0) :
    insertGroup host addr (os, false) i = (os ++ 58 :: 58 :: numeral 16 (group host addr i), true) := by
  have hyes : i ≠ 0 ∧ addr (i - 1) = 0 ∧ (os, false).2 = false := ⟨hi, hzero, rfl⟩
  rw [insertGroup, if_neg fun h => hgroup h.1, if_pos hyes]
  simp only [if_pos hi, List.append_assoc]
  rfl

/-- One more group. -/
theorem Printed.step {i : Nat} {s : List UInt8 × Bool} (h : Printed ((List.range i).map (group host addr)) s) :
    Printed ((List.range (i + 1)).map (group host addr)) (insertGroup host addr s i) := by
  rw [List.range_succ, List.map_append, List.map_singleton]
  generalize hl : (List.range i).map (group host addr) = groups at h
  cases h with
  | plain hne =>
    by_cases hzero : addr i = 0
    · rw [insertGroup, if_pos ⟨hzero, rfl⟩, group_eq_zero.2 hzero]
      exact .zeros 0
    · have hgroup : group host addr i ≠ 0 := fun h => hzero (group_eq_zero.1 h)
      have hall : ∀ n ∈ groups ++ [group host addr i], n ≠ 0 := by
        intro n hn
        rw [List.mem_append, List.mem_singleton] at hn
        rcases hn with hn | rfl
        · exact hne n hn
        · exact hgroup
      rcases groups.eq_nil_or_concat' with rfl | ⟨l, n, rfl⟩
      · have hi : i = 0 := by simpa using hl
        subst hi
        rw [insertGroup, if_neg fun h => hzero h.1]
        simpa [text, group] using Printed.plain hall
      · obtain ⟨hi, hlast⟩ := range_last (m := [n]) hl rfl
        have hbefore : addr (i - 1) ≠ 0 := by
          intro h
          rw [group_eq_zero.2 h] at hlast
          exact hne n (by simp) hlast.symm
        have hl' : l ++ [n] ≠ [] := List.append_ne_nil_of_right_ne_nil l (List.cons_ne_nil n [])
        rw [insertGroup_after hi (fun h => hzero h.1) (.inl hbefore), ← text_append hl']
        exact .plain hall
  | @zeros l k =>
    obtain ⟨hi, hlast⟩ := range_zeros hl
    by_cases hzero : addr i = 0
    · rw [insertGroup, if_pos ⟨hzero, rfl⟩, group_eq_zero.2 hzero, List.append_assoc, ← List.replicate_succ']
      exact .zeros (k + 1)
    · rw [insertGroup_zeros hi hzero (group_eq_zero.1 hlast)]
      simpa [text] using Printed.after (l := l) k (m := [group host addr i]) (List.cons_ne_nil _ _)
  | @after l k m hm =>
    obtain ⟨n, hn⟩ := List.getLast?_isSome.2 hm |> Option.isSome_iff_exists.1
    obtain ⟨hi, -⟩ := range_last hl hn
    rw [insertGroup_after hi (fun h => Bool.noConfusion h.2) (.inr rfl), List.append_assoc]
    simpa [text_append hm] using Printed.after (l := l) k (m := m ++ [group host addr i]) (by simp)

theorem printed (n : Nat) :
    Printed ((List.range n).map (group host addr)) ((List.range n).foldl (insertGroup host addr) ([], false)) := by
  induction n with
  | zero => exact .plain (l := []) (fun n hn => absurd hn List.not_mem_nil)
  | succ n ih =>
    rw [List.range_succ (n := n), List.foldl_append]
    rw [← List.range_succ]
    exact ih.step

/-- The groups are all printed, or one run of zeros is not. -/
theorem insertAddr_eq : insertAddr host addr = text ((List.range 8).map (group host addr)) ∨
    ∃ l k m, (List.range 8).map (group host addr) = l ++ List.replicate (k + 1) 0 ++ m ∧
      insertAddr host addr = text l ++ 58 :: 58 :: text m := by
  have h := @printed host addr 8
  unfold insertAddr
  generalize hs : (List.range 8).foldl (insertGroup host addr) ([], false) = s at h
  generalize hl : (List.range 8).map (group host addr) = groups at h
  cases h with
  | plain hne =>
    have hlast : addr 7 ≠ 0 := by
      intro hzero
      refine hne (group host addr 7) ?_ (group_eq_zero.2 hzero)
      rw [← hl]
      exact List.mem_map_of_mem (by simp)
    left
    exact if_neg fun h => hlast h.2
  | @zeros l k =>
    obtain ⟨-, hlast⟩ := range_zeros hl
    right
    refine ⟨l, k, [], (List.append_nil _).symm, ?_⟩
    exact if_pos ⟨rfl, group_eq_zero.1 hlast⟩
  | @after l k m hm =>
    right
    refine ⟨l, k, m, rfl, ?_⟩
    exact if_neg fun h => Bool.noConfusion h.1

end Printing

/-! ## What is read -/

/-- The bytes of a group. -/
def groupBytes (n : Nat) : List (BitVec 8) := [BitVec.ofNat 8 (n / 256), BitVec.ofNat 8 n]

section Parsing

variable {n : Nat} {l m : List Nat} {last : Bool} {t : List UInt8}

theorem colon_not_mem_numeral : 58 ∉ numeral 16 n := by
  intro h
  have hdigit : digitValue 58 < 16 := digitValue_of_mem_numeral (by omega) (le_refl 16) h
  revert hdigit
  decide

theorem parseGroup_numeral (h : n < 65536) : parseGroup (numeral 16 n) = some (groupBytes n) := by
  have hlen : (numeral 16 n).length ≤ 4 := length_numeral_le (by omega) (by omega) h
  have hdigits : (numeral 16 n).all (digitValue · < 16) = true := by
    rw [List.all_eq_true]
    intro c hc
    exact decide_eq_true (digitValue_of_mem_numeral (by omega) (le_refl 16) hc)
  rw [parseGroup, if_pos ⟨numeral_ne_nil, hlen, hdigits⟩, value_numeral (by omega) (le_refl 16)]
  rfl

theorem parseGroups_numerals (h : ∀ n ∈ l, n < 65536) :
    parseGroups last (l.map (numeral 16)) = some (l.flatMap groupBytes) := by
  induction l with
  | nil => rfl
  | cons n l ih =>
    rw [List.forall_mem_cons] at h
    cases l with
    | nil =>
      rw [List.map_singleton, parseGroups, parseGroup_numeral h.1]
      rfl
    | cons m l =>
      rw [List.map_cons, List.map_cons, parseGroups, ← List.map_cons, ih h.2, parseGroup_numeral h.1]
      · rfl
      · exact fun hnil => List.cons_ne_nil _ _ hnil

theorem text_ne_nil (h : l ≠ []) : text l ≠ [] := by
  obtain ⟨n, l, rfl⟩ := List.exists_cons_of_ne_nil h
  cases l with
  | nil => simpa [text] using numeral_ne_nil
  | cons m l => simp [text]

theorem parseSide_text (h : ∀ n ∈ l, n < 65536) : parseSide last (text l) = some (l.flatMap groupBytes) := by
  by_cases hl : l = []
  · subst hl
    rfl
  · have hsplit : (text l).splitOn 58 = l.map (numeral 16) := by
      apply List.splitOn_intercalate
      · intro w hw
        obtain ⟨n, -, rfl⟩ := List.mem_map.1 hw
        exact colon_not_mem_numeral
      · simpa using hl
    rw [parseSide, if_neg (text_ne_nil hl), hsplit, parseGroups_numerals h]

theorem cutZeros_append {w : List UInt8} (h : 58 ∉ w) :
    cutZeros (w ++ t) = (cutZeros t).map fun x => (w ++ x.1, x.2) := by
  induction w with
  | nil => simp
  | cons c w ih =>
    rw [List.mem_cons, not_or] at h
    rw [List.cons_append, cutZeros, if_neg fun hc => h.1 hc.1.symm, ih h.2, Option.map_map]
    rfl

/-- A colon between groups is no cut. -/
theorem cutZeros_colon (h : t.head? ≠ some 58) : cutZeros (58 :: t) = (cutZeros t).map fun x => (58 :: x.1, x.2) := by
  rw [cutZeros, if_neg fun hc => h hc.2]

theorem head_text (h : l ≠ []) : (text l ++ t).head? ≠ some 58 := by
  obtain ⟨n, l, rfl⟩ := List.exists_cons_of_ne_nil h
  obtain ⟨c, w, hw⟩ := List.exists_cons_of_ne_nil (@numeral_ne_nil 16 n)
  have hc : c ≠ 58 := by
    rintro rfl
    exact @colon_not_mem_numeral n (by rw [hw]; exact List.mem_cons_self ..)
  cases l with
  | nil => simpa [text, hw] using hc
  | cons m l => simpa [text, hw] using hc

/-- The first cut is not before what follows the groups. -/
theorem cutZeros_text (h : l ≠ []) : cutZeros (text l ++ t) = (cutZeros t).map fun x => (text l ++ x.1, x.2) := by
  induction l with
  | nil => exact absurd rfl h
  | cons n l ih =>
    cases l with
    | nil => simpa [text] using cutZeros_append colon_not_mem_numeral
    | cons m l =>
      have htext : ∀ u, text (n :: m :: l) ++ u = numeral 16 n ++ 58 :: (text (m :: l) ++ u) := by
        intro u
        simp [text]
      simp only [htext]
      rw [cutZeros_append colon_not_mem_numeral, cutZeros_colon (head_text (List.cons_ne_nil _ _)),
        ih (List.cons_ne_nil _ _), Option.map_map, Option.map_map]
      rfl

/-- The cut is at the zeros that are left out. -/
theorem cutZeros_zeros : cutZeros (text l ++ 58 :: 58 :: t) = some (text l, t) := by
  have hcut : cutZeros (58 :: 58 :: t) = some ([], t) := rfl
  by_cases hl : l = []
  · subst hl
    exact hcut
  · rw [cutZeros_text hl, hcut, Option.map_some, List.append_nil]

theorem cutZeros_groups : cutZeros (text l) = none := by
  by_cases hl : l = []
  · subst hl
    rfl
  · have h := cutZeros_text (t := []) hl
    rw [List.append_nil] at h
    exact h

theorem length_groupBytes : (l.flatMap groupBytes).length = 2 * l.length := by
  induction l with
  | nil => rfl
  | cons n l ih =>
    rw [List.flatMap_cons, List.length_append, ih, List.length_cons]
    show 2 + _ = _
    omega

theorem flatMap_zeros (k : Nat) : (List.replicate k 0).flatMap groupBytes = List.replicate (2 * k) 0 := by
  induction k with
  | zero => rfl
  | succ k ih =>
    rw [List.replicate_succ, List.flatMap_cons, ih]
    rfl

theorem parse_groups (h : ∀ n ∈ l, n < 65536) (hlen : l.length = 8) :
    parse (text l) = some (l.flatMap groupBytes) := by
  rw [parse, cutZeros_groups]
  show (parseSide true (text l) >>= _) = _
  rw [parseSide_text h]
  exact if_pos (by rw [length_groupBytes, hlen])

theorem parse_zeros {k : Nat} (hl : ∀ n ∈ l, n < 65536) (hm : ∀ n ∈ m, n < 65536)
    (hlen : l.length + (k + 1) + m.length = 8) : parse (text l ++ 58 :: 58 :: text m) =
      some ((l ++ List.replicate (k + 1) 0 ++ m).flatMap groupBytes) := by
  rw [parse, cutZeros_zeros]
  show (parseSide false (text l) >>= fun _ => parseSide true (text m) >>= _) = _
  rw [parseSide_text hl, parseSide_text hm]
  have hle : (l.flatMap groupBytes).length + (m.flatMap groupBytes).length ≤ 14 := by
    rw [length_groupBytes, length_groupBytes]
    omega
  have hzeros : 16 - (l.flatMap groupBytes).length - (m.flatMap groupBytes).length = 2 * (k + 1) := by
    rw [length_groupBytes, length_groupBytes]
    omega
  rw [List.flatMap_append, List.flatMap_append, flatMap_zeros, ← hzeros]
  exact if_pos hle

end Parsing

/-! ## The address and the port -/

section Main

variable {host : Endian} {addr : Nat → BitVec 16} {bytes : Vector (BitVec 8) 16}

theorem group_lt (i : Nat) : group host addr i < 65536 := BitVec.isLt _

theorem groupBytes_append (x y : BitVec 8) : groupBytes (x ++ y).toNat = [x, y] := by
  have hx := x.isLt
  have hy := y.isLt
  have hnat : (x ++ y).toNat = x.toNat * 256 + y.toNat := by
    rw [BitVec.toNat_append, ← Nat.shiftLeft_add_eq_or_of_lt hy, Nat.shiftLeft_eq]
  rw [groupBytes, hnat]
  congr 1
  · apply BitVec.eq_of_toNat_eq
    rw [BitVec.toNat_ofNat]
    omega
  · congr 1
    apply BitVec.eq_of_toNat_eq
    rw [BitVec.toNat_ofNat]
    omega

/-- On either host, a group has its two bytes in network order. -/
theorem groupBytes_group (i : Nat) (h : i < 8) : groupBytes (group host (wordAt host bytes) i) =
    [bytes.get ⟨2 * i, by omega⟩, bytes.get ⟨2 * i + 1, by omega⟩] := by
  have hlo : 2 * i < 16 := by omega
  have hhi : 2 * i + 1 < 16 := by omega
  rw [← groupBytes_append]
  cases host with
  | little => simp [group, wordAt, byteswapOnLittleEndian16, bswap16_append, hlo, hhi, Vector.get]
  | big => simp [group, wordAt, byteswapOnLittleEndian16, hlo, hhi, Vector.get]

theorem flatMap_groups : ((List.range 8).map (group host (wordAt host bytes))).flatMap groupBytes = bytes.toList := by
  have hbytes : bytes.toList = (List.finRange 16).map bytes.get := by
    apply List.ext_getElem
    · simp
    · intro i _ _
      simp [Vector.get]
  rw [hbytes]
  simp only [List.range, List.range.loop, List.map_cons, List.map_nil, List.flatMap_cons, List.flatMap_nil]
  rw [groupBytes_group 0 (by omega), groupBytes_group 1 (by omega), groupBytes_group 2 (by omega),
    groupBytes_group 3 (by omega), groupBytes_group 4 (by omega), groupBytes_group 5 (by omega),
    groupBytes_group 6 (by omega), groupBytes_group 7 (by omega)]
  rfl

/-- What is printed of the groups reads as the bytes. -/
theorem parse_insertAddr : parse (insertAddr host (wordAt host bytes)) = some bytes.toList := by
  have hlt : ∀ n ∈ (List.range 8).map (group host (wordAt host bytes)), n < 65536 := by
    intro n hn
    obtain ⟨i, -, rfl⟩ := List.mem_map.1 hn
    exact group_lt i
  rw [← @flatMap_groups host]
  rcases @insertAddr_eq host (wordAt host bytes) with h | ⟨l, k, m, hgroups, h⟩
  · rw [h]
    exact parse_groups hlt (by simp)
  · have hlen := congrArg List.length hgroups
    simp only [List.length_map, List.length_range, List.length_append, List.length_replicate] at hlen
    rw [hgroups] at hlt ⊢
    rw [h]
    refine parse_zeros ?_ ?_ hlen.symm
    · exact fun n hn => hlt n (by simp [hn])
    · exact fun n hn => hlt n (by simp [hn])

theorem mem_text {l : List Nat} {c : UInt8} (h : c ∈ text l) : c = 58 ∨ digitValue c < 16 := by
  induction l with
  | nil => cases h
  | cons n l ih =>
    cases l with
    | nil =>
      right
      exact digitValue_of_mem_numeral (n := n) (by omega) (le_refl 16) (by simpa [text] using h)
    | cons m l =>
      have htext : text (n :: m :: l) = numeral 16 n ++ 58 :: text (m :: l) := by simp [text]
      rw [htext, List.mem_append, List.mem_cons] at h
      rcases h with h | rfl | h
      · right
        exact digitValue_of_mem_numeral (by omega) (le_refl 16) h
      · left
        rfl
      · exact ih h

theorem mem_insertAddr {c : UInt8} (h : c ∈ insertAddr host addr) : c = 58 ∨ digitValue c < 16 := by
  rcases @insertAddr_eq host addr with heq | ⟨l, k, m, -, heq⟩
  · rw [heq] at h
    exact mem_text h
  · rw [heq, List.mem_append, List.mem_cons, List.mem_cons] at h
    rcases h with h | rfl | rfl | h
    · exact mem_text h
    · left
      rfl
    · left
      rfl
    · exact mem_text h

theorem insertAddr_ne_nil : insertAddr host addr ≠ [] := by
  rcases @insertAddr_eq host addr with heq | ⟨l, k, m, -, heq⟩
  · rw [heq]
    exact text_ne_nil (by simp)
  · rw [heq]
    simp

/-- Text without a NUL is a C string. -/
theorem cstr_eq {l : List UInt8} (h : 0 ∉ l) : cstr l = l := by
  rw [cstr, List.takeWhile_eq_self_iff]
  intro c hc
  rw [decide_eq_true_eq]
  rintro rfl
  exact h hc

theorem not_mem_of_digitValue {l : List UInt8} {c : UInt8} (hl : ∀ c ∈ l, c = 58 ∨ digitValue c < 16) (hc : c ≠ 58)
    (hdigit : digitValue c = 36) : c ∉ l := by
  intro h
  rcases hl c h with h | h
  · exact hc h
  · omega

/-- For every address and port, what is printed in the brackets reads as the address, and `Lookup` asks for it and for
the port. -/
theorem insert_read (host : Endian) (a : IPv6Address) : ∃ node, 93 ∉ node ∧
    insert host a = 91 :: (node ++ 93 :: 58 :: numeral 10 (getPort host a)) ∧
    parse node = some a.addr.s6Addr.toList ∧
    ∀ result family type protocol, Lookup.Calls (Lookup.lookup result (insert host a) family type protocol)
      ⟨node, some (numeral 10 (getPort host a)), 0, family, type, protocol⟩ := by
  have hbracket : 93 ∉ insertAddr host (wordAt host a.addr.s6Addr) :=
    not_mem_of_digitValue (fun c hc => mem_insertAddr hc) (by decide) rfl
  have hnode : 0 ∉ insertAddr host (wordAt host a.addr.s6Addr) :=
    not_mem_of_digitValue (fun c hc => mem_insertAddr hc) (by decide) rfl
  have hport : 0 ∉ numeral 10 (getPort host a) := by
    refine not_mem_of_digitValue (fun c hc => ?_) (by decide) rfl
    have := digitValue_of_mem_numeral (by omega) (by omega) hc
    right
    omega
  refine ⟨insertAddr host (wordAt host a.addr.s6Addr), hbracket, rfl, parse_insertAddr, ?_⟩
  intro result family type protocol
  have hargs : Lookup.args (insert host a) = _ := Lookup.args_bracketed ⟨insertAddr_ne_nil, hbracket, rfl⟩
  rw [Lookup.lookup_calls, hargs]
  simp only [List.head?_cons, if_true, List.tail_cons, cstr_eq hnode, cstr_eq hport]

end Main

end IPv6Address

end ServerFrame.Addresses
