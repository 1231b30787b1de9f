/-
Patterns as lists of literals and directives, and what `LogFormatter::init` makes of such a list when it is printed.
A `%` inside a literal is printed twice; `init` takes the second one for the beginning of a directive.
-/
import ServerFrame.Log.Formatter
import Mathlib.Data.Fintype.Basic
import Mathlib.Data.List.Chain
import Mathlib.Tactic.FinCases

namespace ServerFrame.Log

open Http (bytes)

/-- A part of a pattern. The letters are those of `s_format_items`. -/
inductive PatternItem
  | literal (text : List UInt8)
  | directive (x : Fin 12) (fmt : Option (List UInt8))

namespace PatternItem

/-- The entry of a letter in `s_format_items`. -/
def entry (x : Fin 12) : List UInt8 × (List UInt8 → FormatItem) := formatItems.get ⟨x, x.isLt⟩

/-- Text in which every `%` is written twice. -/
def escape (text : List UInt8) : List UInt8 := text.flatMap fun c => if c = 37 then [37, 37] else [c]

def print : PatternItem → List UInt8
  | literal text => escape text
  | directive x none => 37 :: (entry x).1
  | directive x (some fmt) => 37 :: (entry x).1 ++ 123 :: fmt ++ [125]

/-- The format item that it stands for. -/
def item : PatternItem → FormatItem
  | literal text => .string text
  | directive x fmt => (entry x).2 (fmt.getD [])

/-- No text is empty, and no format has a brace in it. -/
def Valid : PatternItem → Prop
  | literal text => text ≠ []
  | directive _ fmt => ∀ f, fmt = some f → f ≠ [] ∧ 125 ∉ f

/-- A literal follows neither a literal nor, with a letter or a brace in front, a directive without format. -/
def Follows : PatternItem → PatternItem → Prop
  | literal _, literal _ => False
  | directive _ none, literal text => ∀ c, text.head? = some c → ¬ isalpha c ∧ c ≠ 123 ∧ c ≠ 125
  | _, _ => True

end PatternItem

/-- A pattern, as its parts. -/
structure Pattern where
  items : List PatternItem
  valid : ∀ i ∈ items, i.Valid
  follows : items.IsChain PatternItem.Follows

/-- The pattern as text. -/
def printed (items : List PatternItem) : List UInt8 := items.flatMap PatternItem.print

/-- The entries of `vec` become these items, without an error. -/
def Reads (r : List Piece × Bool) (items : List FormatItem) : Prop :=
  r.2 = false ∧ r.1.map Piece.item = items.map fun i => (i, false)

section Letters

variable (x : Fin 12)

/-- A directive is one letter. -/
theorem entry_letter : ∃ c, (PatternItem.entry x).1 = [c] ∧ isalpha c ∧ c ≠ 37 := by
  have h : ∀ x : Fin 12, (PatternItem.entry x).1 = [(PatternItem.entry x).1.headD 0] ∧
      isalpha ((PatternItem.entry x).1.headD 0) = true ∧ (PatternItem.entry x).1.headD 0 ≠ 37 := by decide
  exact ⟨_, h x⟩

theorem item_entry (fmt : List UInt8) :
    (Piece.directive (PatternItem.entry x).1 fmt).item = ((PatternItem.entry x).2 fmt, false) := by
  fin_cases x <;> rfl

end Letters

/-! ## One part -/

section Scan

variable {word str fmt rest : List UInt8} {c : UInt8}

/-- A format goes up to its brace. -/
theorem scan_format (hstr : str ≠ []) (hfmt : 125 ∉ fmt) (opened : List UInt8) :
    scan word str (some opened) (fmt ++ 125 :: rest) = { status := false, str, fmt := opened ++ fmt, rest } := by
  induction fmt generalizing word opened with
  | nil => simp [scan]
  | cons c fmt ih =>
    rw [List.mem_cons, not_or] at hfmt
    rw [List.cons_append, scan, if_neg (Ne.symm hfmt.1), if_neg fun h => hstr h.2, ih hfmt.2, List.append_assoc]
    rfl

/-- A directive without format goes up to what is no letter or brace. -/
theorem scan_letter (hc : isalpha c) (hrest : ∀ d, rest.head? = some d → ¬ isalpha d ∧ d ≠ 123 ∧ d ≠ 125) :
    scan [] [] none (c :: rest) = { status := false, str := [c], fmt := [], rest } := by
  have hbrace : c ≠ 123 := by
    rintro rfl
    cases hc
  have hscan : scan [] [] none (c :: rest) = scan [c] (if rest = [] then [c] else []) none rest := by
    simp [scan, hc, hbrace]
  rw [hscan]
  cases rest with
  | nil => simp [scan]
  | cons d rest =>
    obtain ⟨hd, hopen, hclose⟩ := hrest d rfl
    simp [scan, hd, hopen, hclose]

theorem scan_letter_format (hc : isalpha c) (hfmt : 125 ∉ fmt) :
    scan [] [] none (c :: 123 :: (fmt ++ 125 :: rest)) = { status := false, str := [c], fmt, rest } := by
  have hbrace : c ≠ 123 := by
    rintro rfl
    cases hc
  have hscan : scan [] [] none (c :: 123 :: (fmt ++ 125 :: rest)) =
      scan [c, 123] [c] (some []) (fmt ++ 125 :: rest) := by
    simp [scan, hc, hbrace]
  rw [hscan, scan_format (List.cons_ne_nil _ _) hfmt, List.nil_append]

end Scan

section Split

variable {nstr text rest w : List UInt8} {fuel : Nat}

-- its equations are derived here once, for all the lemmas on the branches
attribute [local simp] split

/-- Text without `%` is gathered. -/
theorem split_text (h : 37 ∉ text) :
    split (text.length + fuel) nstr (text ++ rest) = split fuel (nstr ++ text) rest := by
  induction text generalizing nstr with
  | nil => simp
  | cons c text ih =>
    rw [List.mem_cons, not_or] at h
    rw [List.length_cons, Nat.add_right_comm, List.cons_append, split, if_pos (Ne.symm h.1), ih h.2, List.append_assoc]
    rfl

/-- Of several `%`, each is gathered before the next. -/
theorem split_percents (k : Nat) : split (k + fuel) nstr (37 :: List.replicate k 37 ++ w) =
    split fuel (nstr ++ List.replicate k 37) (37 :: w) := by
  induction k generalizing nstr with
  | zero => simp
  | succ k ih =>
    have hpercents : 37 :: List.replicate (k + 1) 37 ++ w = 37 :: (37 :: List.replicate k 37 ++ w) := rfl
    rw [Nat.add_right_comm, hpercents, split, if_neg (by simp), if_pos (by rfl), ih, List.append_assoc]
    rfl

/-- The last `%` begins a directive. -/
theorem split_directive (h : w.head? ≠ some 37) (hscan : (scan [] [] none w).status = false) :
    split (fuel + 1) nstr (37 :: w) =
      (literalOf nstr ++ .directive (scan [] [] none w).str (scan [] [] none w).fmt ::
        (split fuel [] (scan [] [] none w).rest).1, (split fuel [] (scan [] [] none w).rest).2) := by
  rw [split, if_neg (by simp), if_neg h]
  simp only [hscan, Bool.false_eq_true, if_false]

theorem split_error (h : w.head? ≠ some 37) (hscan : (scan [] [] none w).status = true) :
    (split (fuel + 1) nstr (37 :: w)).2 = true := by
  rw [split, if_neg (by simp), if_neg h]
  simp only [hscan, if_true]

end Split

/-! ## All parts -/

theorem escape_of_not_mem {text : List UInt8} (h : 37 ∉ text) : PatternItem.escape text = text := by
  induction text with
  | nil => rfl
  | cons c text ih =>
    rw [List.mem_cons, not_or] at h
    rw [PatternItem.escape, List.flatMap_cons, if_neg (Ne.symm h.1)]
    exact congrArg (c :: ·) (ih h.2)

theorem escape_append (text text' : List UInt8) :
    PatternItem.escape (text ++ text') = PatternItem.escape text ++ PatternItem.escape text' := List.flatMap_append

theorem escape_percents (k : Nat) :
    PatternItem.escape (List.replicate k 37) = List.replicate k 37 ++ List.replicate k 37 := by
  induction k with
  | zero => rfl
  | succ k ih =>
    rw [List.replicate_succ, ← List.singleton_append, escape_append, ih, List.replicate_append_replicate,
      List.singleton_append, ← List.replicate_succ, List.replicate_append_replicate]
    show 37 :: 37 :: List.replicate (k + k) 37 = _
    rw [← List.replicate_succ, ← List.replicate_succ]
    congr 1
    omega

/-- The `%` that a text begins with. -/
theorem exists_percents (l : List UInt8) : ∃ k w, l = List.replicate k 37 ++ w ∧ w.head? ≠ some 37 := by
  induction l with
  | nil => exact ⟨0, [], rfl, by simp⟩
  | cons c l ih =>
    by_cases hc : c = 37
    · obtain ⟨k, w, rfl, hw⟩ := ih
      exact ⟨k + 1, w, by rw [hc]; rfl, hw⟩
    · exact ⟨0, c :: l, rfl, by simpa using hc⟩

section Reads

variable {r : List Piece × Bool} {nstr fmt text : List UInt8} {items : List PatternItem} {expected : List FormatItem}
  {fuel : Nat}

/-- The item of the text gathered before a part. -/
def gathered (nstr : List UInt8) : List FormatItem := if nstr = [] then [] else [.string nstr]

theorem map_literalOf : (literalOf nstr).map Piece.item = (gathered nstr).map fun i => (i, false) := by
  unfold literalOf gathered
  split <;> rfl

/-- What was gathered before a directive is a literal before it. -/
theorem reads_directive {x : Fin 12} :
    Reads (literalOf nstr ++ .directive (PatternItem.entry x).1 fmt :: r.1, r.2)
      (gathered nstr ++ (PatternItem.entry x).2 fmt :: expected) ↔ Reads r expected := by
  unfold Reads
  rw [List.map_append, List.map_append, map_literalOf, List.map_cons, List.map_cons, item_entry,
    List.append_cancel_left_eq, List.cons.injEq, eq_self, true_and]

/-- The text gathered before a directive is the literal that is expected. -/
theorem eq_of_reads_literal {str : List UInt8} {pieces : List Piece} (hnstr : nstr ≠ [])
    (h : Reads (literalOf nstr ++ .directive str fmt :: pieces, r.2) (.string text :: expected)) : nstr = text := by
  obtain ⟨-, h⟩ := h
  rw [literalOf, if_neg hnstr] at h
  exact FormatItem.string.inj (Prod.mk.inj (List.cons.inj h).1).1

/-- A text in which a `%` was printed twice is not read as it was. -/
theorem not_reads_of_percent (hmem : 37 ∈ text) (hitems : ∀ i, items.head? = some i → ∃ x fmt, i = .directive x fmt)
    (hfuel : (printed (.literal text :: items)).length ≤ fuel) :
    ¬ Reads (split fuel [] (printed (.literal text :: items)))
      ((PatternItem.literal text :: items).map PatternItem.item) := by
  intro hreads
  obtain ⟨u, v, rfl, hu⟩ := List.eq_append_cons_of_mem hmem
  obtain ⟨k, w, hkw, hw⟩ := exists_percents (PatternItem.escape v ++ printed items)
  have hprinted : printed (.literal (u ++ 37 :: v) :: items) = u ++ (37 :: List.replicate (k + 1) 37 ++ w) := by
    have hcons : PatternItem.escape (37 :: v) = 37 :: 37 :: PatternItem.escape v := rfl
    show PatternItem.escape (u ++ 37 :: v) ++ printed items = _
    rw [escape_append, escape_of_not_mem hu, hcons, List.append_assoc, List.cons_append, List.cons_append, hkw]
    rfl
  rw [hprinted] at hreads hfuel
  obtain ⟨f, rfl⟩ : ∃ f, fuel = u.length + (k + 1 + (f + 1)) := by
    simp only [List.length_append, List.length_cons, List.length_replicate] at hfuel
    exact ⟨fuel - (u.length + k + 2), by omega⟩
  rw [split_text hu, split_percents, List.nil_append] at hreads
  have hnstr : u ++ List.replicate (k + 1) 37 ≠ [] := by simp
  cases hstatus : (scan [] [] none w).status with
  | true => exact Bool.noConfusion ((split_error hw hstatus).symm.trans hreads.1)
  | false =>
    rw [split_directive hw hstatus] at hreads
    -- The literal is the one expected only if all of its `%` but the first are still to come, and they are not.
    obtain rfl : List.replicate k 37 = v :=
      (List.cons.inj (List.append_cancel_left (eq_of_reads_literal hnstr hreads))).2
    rw [escape_percents, List.append_assoc] at hkw
    have hafter : List.replicate k 37 ++ printed items = w := List.append_cancel_left hkw
    cases k with
    | succ k =>
      rw [← hafter] at hw
      exact hw rfl
    | zero =>
      cases items with
      | cons i items =>
        obtain ⟨x, fmt, rfl⟩ := hitems i rfl
        rw [← hafter] at hw
        cases fmt <;> exact absurd rfl hw
      | nil =>
        have hempty : w = [] := hafter.symm
        subst hempty
        have hlen := congrArg List.length hreads.2
        rw [literalOf, if_neg hnstr] at hlen
        simp at hlen

/-- What ends a directive without format. -/
theorem not_letter_of_follows {x : Fin 12} (hvalid : ∀ i ∈ items, i.Valid)
    (hfollows : ∀ i, items.head? = some i → PatternItem.Follows (.directive x none) i) {d : UInt8}
    (hd : (printed items).head? = some d) : ¬ isalpha d ∧ d ≠ 123 ∧ d ≠ 125 := by
  have hpercent : ¬ isalpha 37 ∧ (37 : UInt8) ≠ 123 ∧ (37 : UInt8) ≠ 125 := by decide
  cases items with
  | nil => cases hd
  | cons i items =>
    cases i with
    | directive y fmt =>
      obtain rfl : 37 = d := by cases fmt <;> exact Option.some.inj hd
      exact hpercent
    | literal text =>
      cases text with
      | nil => exact absurd rfl (hvalid (.literal []) (List.mem_cons_self ..))
      | cons c text =>
        by_cases hc : c = 37
        · subst hc
          obtain rfl : 37 = d := Option.some.inj hd
          exact hpercent
        · have hhead : (printed (.literal (c :: text) :: items)).head? = some c := by
            simp [printed, PatternItem.print, PatternItem.escape, hc]
          obtain rfl : c = d := Option.some.inj (hhead.symm.trans hd)
          exact hfollows _ rfl c rfl

/-- A directive is read up to the next part. -/
theorem scan_directive (x : Fin 12) (fmt : Option (List UInt8)) (hi : (PatternItem.directive x fmt).Valid)
    (hvalid : ∀ i ∈ items, i.Valid)
    (hfollows : ∀ i, items.head? = some i → PatternItem.Follows (.directive x fmt) i) :
    ∃ w, printed (.directive x fmt :: items) = 37 :: w ∧ w.head? ≠ some 37 ∧ scan [] [] none w =
      { status := false, str := (PatternItem.entry x).1, fmt := fmt.getD [], rest := printed items } := by
  obtain ⟨c, hentry, halpha, hc⟩ := entry_letter x
  cases fmt with
  | none =>
    refine ⟨c :: printed items, ?_, by simpa using hc, ?_⟩
    · show 37 :: (PatternItem.entry x).1 ++ printed items = _
      rw [hentry]
      rfl
    · rw [scan_letter halpha fun d hd => not_letter_of_follows hvalid hfollows hd, hentry]
      rfl
  | some f =>
    refine ⟨c :: 123 :: (f ++ 125 :: printed items), ?_, by simpa using hc, ?_⟩
    · show 37 :: (PatternItem.entry x).1 ++ 123 :: f ++ [125] ++ printed items = _
      rw [hentry]
      simp
    · rw [scan_letter_format halpha (hi f rfl).2, hentry]
      rfl

/-- Printed and read, a valid list is itself exactly if no literal has a `%` in it; the text gathered so far goes before
it. -/
theorem reads_iff (hvalid : ∀ i ∈ items, i.Valid) (hfollows : items.IsChain PatternItem.Follows)
    (hnstr : nstr ≠ [] → ∀ i, items.head? = some i → ∃ x fmt, i = .directive x fmt)
    (hfuel : (printed items).length ≤ fuel) :
    Reads (split fuel nstr (printed items)) (gathered nstr ++ items.map PatternItem.item) ↔
      ∀ text, .literal text ∈ items → 37 ∉ text := by
  induction items generalizing nstr fuel with
  | nil =>
    have hsplit : split fuel nstr [] = (literalOf nstr, false) := by cases fuel <;> rfl
    have hreads : Reads (split fuel nstr []) (gathered nstr ++ [].map PatternItem.item) := by
      rw [hsplit]
      exact ⟨rfl, by rw [map_literalOf, List.map_nil, List.append_nil]⟩
    exact iff_of_true hreads fun text h => absurd h List.not_mem_nil
  | cons i items ih =>
    rw [List.forall_mem_cons] at hvalid
    obtain ⟨hi, hvalid⟩ := hvalid
    rw [List.isChain_cons] at hfollows
    obtain ⟨hnext, hfollows⟩ := hfollows
    cases i with
    | literal text =>
      have hnstr' : nstr = [] := by
        by_contra hne
        obtain ⟨x, fmt, h⟩ := hnstr hne _ rfl
        cases h
      subst hnstr'
      have hdirective : ∀ j, items.head? = some j → ∃ x fmt, j = .directive x fmt := by
        intro j hj
        cases j with
        | literal t => exact (hnext _ hj).elim
        | directive x fmt => exact ⟨x, fmt, rfl⟩
      by_cases hmem : 37 ∈ text
      · refine iff_of_false (not_reads_of_percent hmem hdirective hfuel) ?_
        intro h
        exact h text (List.mem_cons_self ..) hmem
      · have hprinted : printed (.literal text :: items) = text ++ printed items := by
          show PatternItem.escape text ++ printed items = _
          rw [escape_of_not_mem hmem]
        rw [hprinted, List.length_append] at hfuel
        obtain ⟨f, rfl⟩ := Nat.exists_eq_add_of_le (Nat.le_of_add_right_le hfuel)
        have hgathered : gathered [] ++ (PatternItem.literal text :: items).map PatternItem.item =
            gathered text ++ items.map PatternItem.item := by
          rw [gathered, gathered, if_pos rfl, if_neg hi]
          rfl
        rw [hprinted, split_text hmem, List.nil_append, hgathered,
          ih hvalid hfollows (fun _ => hdirective) (by omega)]
        simp [hmem]
    | directive x fmt =>
      obtain ⟨w, hprinted, hw, hscan⟩ := scan_directive x fmt hi hvalid fun j hj => hnext j hj
      have hlen : (printed items).length < (printed (.directive x fmt :: items)).length := by
        have hpos : 0 < (PatternItem.directive x fmt).print.length := by cases fmt <;> exact Nat.succ_pos _
        show _ < ((PatternItem.directive x fmt).print ++ printed items).length
        rw [List.length_append]
        omega
      obtain ⟨f, rfl⟩ : ∃ f, fuel = f + 1 := ⟨fuel - 1, by omega⟩
      have hsplit := @split_directive nstr w f hw (by rw [hscan])
      simp only [hscan] at hsplit
      rw [hprinted, hsplit, List.map_cons]
      refine reads_directive.trans ?_
      rw [← List.nil_append (items.map PatternItem.item)]
      refine (ih hvalid hfollows (fun h => absurd rfl h) (by omega)).trans ?_
      simp

end Reads

theorem map_item_iff {pieces : List Piece} {items : List FormatItem} :
    pieces.map Piece.item = items.map (fun i => (i, false)) ↔
      pieces.map (fun p => p.item.1) = items ∧ (pieces.any fun p => p.item.2) = false := by
  induction pieces generalizing items with
  | nil => cases items <;> simp
  | cons p pieces ih =>
    cases items with
    | nil => simp
    | cons i items =>
      rw [List.map_cons, List.map_cons, List.cons.injEq, ih, Prod.ext_iff, List.map_cons, List.cons.injEq,
        List.any_cons, Bool.or_eq_false_iff]
      exact ⟨fun h => ⟨⟨h.1.1, h.2.1⟩, h.1.2, h.2.2⟩, fun h => ⟨⟨h.1.1, h.2.1⟩, h.1.2, h.2.2⟩⟩

/-- For every pattern, `init` makes of what is printed exactly its items, without an error, exactly if there is no `%`
in a literal. -/
theorem new_iff (p : Pattern) :
    ((LogFormatter.new (printed p.items)).items = p.items.map PatternItem.item ∧
      (LogFormatter.new (printed p.items)).error = false) ↔
    ∀ text, PatternItem.literal text ∈ p.items → 37 ∉ text := by
  rw [← @reads_iff [] p.items _ p.valid p.follows (fun h => absurd rfl h) (le_refl _)]
  show _ ↔ Reads _ (p.items.map PatternItem.item)
  rw [Reads, map_item_iff]
  generalize hsplit : split (printed p.items).length [] (printed p.items) = r
  have hnew : LogFormatter.new (printed p.items) =
      ⟨printed p.items, r.1.map fun p => p.item.1, r.2 || r.1.any fun p => p.item.2⟩ := by
    rw [LogFormatter.new, hsplit]
  rw [hnew]
  show _ ∧ (_ || _) = false ↔ _
  rw [Bool.or_eq_false_iff]
  exact ⟨fun h => ⟨h.2.1, h.1, h.2.2⟩, fun h => ⟨h.2.1, h.1, h.2.2⟩⟩

/-- One `%`, printed twice, is read as a literal and a directive without a letter. -/
theorem percent_not_read : ¬ ∀ p : Pattern,
    (LogFormatter.new (printed p.items)).items = p.items.map PatternItem.item ∧
      (LogFormatter.new (printed p.items)).error = false := by
  intro h
  have hliteral := (h ⟨[.literal [37]], by simp [PatternItem.Valid], List.isChain_singleton _⟩).2
  revert hliteral
  decide

end ServerFrame.Log
