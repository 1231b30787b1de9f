/-
The machine in the URI of the request line. A URI with a scheme and a relative one are read side by side until it shows
which one it is; a relative part never gets as far as the colon of a scheme.
-/
import ServerFrame.Http.Feed
import ServerFrame.Http.Parts

namespace ServerFrame.Http

open Ragel

namespace Grammar

variable (relaxed : Bool)

/-! ## Where the machine is -/

def schemeChar : ByteSet := .alpha ||| .digit ||| .anyOf "+-."

/-- In the scheme, after its first letter. -/
def atScheme : Expr Action :=
  .seq (.seq (.seq (.star (.char schemeChar)) (.char (.byte 58))) (hierE relaxed)) (hierFragmentE relaxed)

/-- In the path. -/
def atPath (x : Expr Action) : Expr Action :=
  .seq (.leaving (embedding 13 .requestUri) (.seq (.leaving (embedding 10 .requestPath) x) (queryE relaxed)))
    (fragmentE relaxed)

/-- After the `?`. -/
def beforeQuery : Expr Action :=
  .seq (.leaving (embedding 13 .requestUri)
      (.seq (.leaving (embedding 11 .startQuery) .eps) (.leaving (embedding 12 .queryString) (wordE relaxed))))
    (fragmentE relaxed)

/-- In the query. -/
def atQuery (y : Expr Action) : Expr Action :=
  .seq (.leaving (embedding 13 .requestUri) (.leaving (embedding 12 .queryString) y)) (fragmentE relaxed)

/-- After the `#`. -/
def beforeFragment : Expr Action := .leaving (embedding 15 .fragment) (.entering (embedding 14 .mark) (wordE relaxed))

/-- In the fragment. -/
def atFragment (y : Expr Action) : Expr Action := .leaving (embedding 15 .fragment) y

/-! ## The language of a path -/

/-- A relative path after a character of its first segment. -/
def noSchemeE : Expr Action :=
  .seq (.star (oneOf [chars unreserved, pctEncoded, chars (subDelims relaxed), lit "@"] 0).1)
    (.star (cat [lit "/", segment relaxed] 0).1)

set_option maxRecDepth 100000 in
/-- What is read off the rules: they carry no actions, a path may be empty, it holds no `?`, no `#` and no blank and
begins no scheme, and a query holds no `#` and no blank. -/
theorem path_rules : (relativeE relaxed).plain = true ∧ (wordE relaxed).plain = true ∧
    (relativeE relaxed).final = true ∧
    ((relativeE relaxed).reads 63 = false ∧ (relativeE relaxed).reads 35 = false ∧
      (relativeE relaxed).reads 32 = false) ∧
    ((wordE relaxed).reads 35 = false ∧ (wordE relaxed).reads 32 = false) ∧ (noSchemeE relaxed).next 58 = [] := by
  cases relaxed <;> decide

set_option maxRecDepth 100000 in
/-- The first segment of a relative path, over the characters of a scheme. -/
theorem path_next_scheme : ∀ c,
    (ByteSet.alpha.has c = true → ∀ m ∈ (relativeE relaxed).next c, m.2 = noSchemeE relaxed) ∧
    (schemeChar.has c = true → ∀ m ∈ (noSchemeE relaxed).next c, m.2 = noSchemeE relaxed) := by
  refine forall_byte ?_
  cases relaxed <;> decide

theorem relativeE_plain : (relativeE relaxed).plain = true := (path_rules relaxed).1

theorem wordE_plain : (wordE relaxed).plain = true := (path_rules relaxed).2.1

theorem relativeE_final : (relativeE relaxed).final = true := (path_rules relaxed).2.2.1

theorem relativeE_reads : (relativeE relaxed).reads 63 = false ∧ (relativeE relaxed).reads 35 = false ∧
    (relativeE relaxed).reads 32 = false :=
  (path_rules relaxed).2.2.2.1

theorem wordE_reads : (wordE relaxed).reads 35 = false ∧ (wordE relaxed).reads 32 = false :=
  (path_rules relaxed).2.2.2.2.1

theorem noSchemeE_next_colon : (noSchemeE relaxed).next 58 = [] := (path_rules relaxed).2.2.2.2.2

theorem relativeE_next_alpha (c : UInt8) (hc : ByteSet.alpha.has c = true) :
    ∀ m ∈ (relativeE relaxed).next c, m.2 = noSchemeE relaxed :=
  (path_next_scheme relaxed c).1 hc

theorem noSchemeE_next (c : UInt8) (hc : schemeChar.has c = true) :
    ∀ m ∈ (noSchemeE relaxed).next c, m.2 = noSchemeE relaxed :=
  (path_next_scheme relaxed c).2 hc

/-- The word begins a scheme. -/
def Schematic : List UInt8 → Prop
  | [] => False
  | c :: w => ByteSet.alpha.has c = true ∧ ∀ d ∈ w, schemeChar.has d = true

/-- No path begins with a scheme and its colon. -/
theorem reach_colon {u : List UInt8} (hu : Schematic u) : ∀ x ∈ (relativeE relaxed).reach u, x.next 58 = [] := by
  have hin : ∀ w : List UInt8, (∀ d ∈ w, schemeChar.has d = true) →
      ∀ x ∈ (noSchemeE relaxed).reach w, x.next 58 = [] := by
    intro w hw x hx
    induction w with
    | nil =>
      rw [Expr.reach, List.mem_singleton] at hx
      exact hx ▸ noSchemeE_next_colon relaxed
    | cons d w ih =>
      obtain ⟨m, hm, hx⟩ := Expr.reach_cons.1 hx
      rw [noSchemeE_next relaxed d (hw d (List.mem_cons_self ..)) m hm] at hx
      exact ih (fun d hd => hw d (List.mem_cons_of_mem _ hd)) hx
  cases u with
  | nil => cases hu
  | cons c w =>
    obtain ⟨hc, hw⟩ := hu
    intro x hx
    obtain ⟨m, hm, hx⟩ := Expr.reach_cons.1 hx
    rw [relativeE_next_alpha relaxed c hc m hm] at hx
    exact hin w hw x hx

/-! ## Transitions -/

section Next

variable {relaxed} {c : UInt8} {x : Expr Action}

theorem queryE_next : (queryE relaxed).next c =
    if c = 63 then
      [({}, .seq (.leaving (embedding 11 .startQuery) .eps) (.leaving (embedding 12 .queryString) (wordE relaxed)))]
    else [] := by
  have hc : (ByteSet.byte 63).has c = decide (c = 63) := ByteSet.has_byte (by decide)
  simp only [queryE, Expr.next, hc, decide_eq_true_eq]
  split <;> simp [Expr.final, Expr.andThen, *]

theorem fragmentE_next : (fragmentE relaxed).next c = if c = 35 then [({}, beforeFragment relaxed)] else [] := by
  have hc : (ByteSet.byte 35).has c = decide (c = 35) := ByteSet.has_byte (by decide)
  simp only [fragmentE, Expr.next, hc, decide_eq_true_eq]
  split <;> simp [Expr.final, Expr.andThen, beforeFragment, *]

/-! ### In the path -/

theorem atPath_next (hq : c ≠ 63) (hf : c ≠ 35) :
    (atPath relaxed x).next c = (x.next c).map fun m => (m.1, atPath relaxed m.2) := by
  simp [atPath, Expr.next, queryE_next, fragmentE_next, hq, hf, Expr.andThen, Function.comp_def]

theorem atPath_next_query (hx : x.plain = true) (hn : x.next 63 = []) :
    (atPath relaxed x).next 63 = if x.final then [(embedding 10 .requestPath, beforeQuery relaxed)] else [] := by
  simp only [atPath, Expr.next, hn, queryE_next, fragmentE_next, Expr.outs, Expr.plain_outs hx, Expr.final]
  split <;> simp [Expr.andThen, beforeQuery]
  rfl

theorem atPath_next_fragment (hx : x.plain = true) (hn : x.next 35 = []) :
    (atPath relaxed x).next 35 =
      if x.final then [(⟨[(10, .requestPath), (13, .requestUri)], []⟩, beforeFragment relaxed)] else [] := by
  simp only [atPath, Expr.next, hn, queryE_next, fragmentE_next, Expr.outs, Expr.plain_outs hx, Expr.final]
  split <;> simp [Expr.final, queryE, *]
  rfl

theorem atPath_final : (atPath relaxed x).final = x.final := by
  simp [atPath, Expr.final, queryE, fragmentE]

theorem atPath_outs (hx : x.plain = true) :
    (atPath relaxed x).outs = ⟨[(10, .requestPath), (13, .requestUri)], []⟩ := by
  simp only [atPath, Expr.outs, Expr.plain_outs hx, queryE, fragmentE, Expr.final]
  rfl

theorem atScheme_next (hc : c ≠ 58) :
    (atScheme relaxed).next c = if schemeChar.has c then [({}, atScheme relaxed)] else [] := by
  have hcolon : (ByteSet.byte 58).has c = false := by
    rw [ByteSet.has_byte (by decide)]
    exact decide_eq_false hc
  simp only [atScheme, Expr.next, Expr.final, hcolon]
  split <;> simp [Expr.andThen]

/-! ### At the start -/

/-- A URI with a scheme begins with a letter. -/
theorem schemeE_next :
    (Expr.seq (.seq (.seq (scheme 0).1 (.char (.byte 58))) (hierE relaxed)) (hierFragmentE relaxed)).next c =
    if ByteSet.alpha.has c then [(({} : Label Action), atScheme relaxed)] else [] := by
  have hscheme : (scheme 0).1 = .seq (.char .alpha) (.star (.char schemeChar)) := rfl
  rw [hscheme]
  simp only [Expr.next, Expr.final]
  split <;> simp [Expr.andThen, atScheme]

theorem uriE_next (hq : c ≠ 63) (hf : c ≠ 35) : (uriE relaxed).next c =
    (if ByteSet.alpha.has c then [(({} : Label Action), atScheme relaxed)] else []) ++
      ((relativeE relaxed).next c).map fun m => (embedding 9 .mark ++ m.1, atPath relaxed m.2) := by
  rw [uriE_eq, Expr.next, schemeE_next]
  simp [Expr.next, queryE_next, fragmentE_next, hq, hf, Expr.andThen, Function.comp_def, atPath]

theorem uriE_next_query : (uriE relaxed).next 63 =
    [(embedding 9 .mark ++ embedding 10 .requestPath, beforeQuery relaxed)] := by
  have hs : ByteSet.alpha.has 63 = false := by decide
  have hn : (relativeE relaxed).next 63 = [] :=
    Expr.next_eq_nil (w := []) (relativeE_reads relaxed).1 (by simp [Expr.reach])
  rw [uriE_eq, Expr.next, schemeE_next, hs]
  simp only [Expr.next, hn, queryE_next, fragmentE_next, Expr.outs, Expr.plain_outs (relativeE_plain relaxed),
    Expr.final,
    relativeE_final]
  simp [Expr.andThen, beforeQuery]
  rfl

theorem uriE_next_fragment : (uriE relaxed).next 35 =
    [(⟨[(9, .mark), (10, .requestPath), (13, .requestUri)], []⟩, beforeFragment relaxed)] := by
  have hs : ByteSet.alpha.has 35 = false := by decide
  have hn : (relativeE relaxed).next 35 = [] :=
    Expr.next_eq_nil (w := []) (relativeE_reads relaxed).2.1 (by simp [Expr.reach])
  rw [uriE_eq, Expr.next, schemeE_next, hs]
  simp only [Expr.next, hn, queryE_next, fragmentE_next, Expr.outs, Expr.plain_outs (relativeE_plain relaxed),
    Expr.final,
    relativeE_final]
  simp [Expr.final, queryE]
  rfl

theorem uriE_final : (uriE relaxed).final = true := by
  rw [uriE_eq]
  simp [Expr.final, relativeE_final, queryE, fragmentE]

theorem uriE_outs : (uriE relaxed).outs = ⟨[(9, .mark), (10, .requestPath), (13, .requestUri)], []⟩ := by
  have hs : (scheme 0).1.final = false := rfl
  rw [uriE_eq]
  simp only [Expr.outs, Expr.plain_outs (relativeE_plain relaxed), Expr.final, relativeE_final, hs, queryE, fragmentE]
  rfl

/-! ### In the query and in the fragment -/

theorem beforeQuery_next (hc : c ≠ 35) : (beforeQuery relaxed).next c =
    ((wordE relaxed).next c).map fun m => (embedding 11 .startQuery ++ m.1, atQuery relaxed m.2) := by
  simp [beforeQuery, Expr.next, fragmentE_next, hc, Expr.andThen, Function.comp_def, atQuery, Expr.final, Expr.outs]
  exact fun _ _ _ => rfl

theorem atQuery_next (hc : c ≠ 35) :
    (atQuery relaxed x).next c = (x.next c).map fun m => (m.1, atQuery relaxed m.2) := by
  simp [atQuery, Expr.next, fragmentE_next, hc, Expr.andThen, Function.comp_def]

theorem atQuery_next_fragment (hx : x.plain = true) (hn : x.next 35 = []) :
    (atQuery relaxed x).next 35 =
      if x.final then [(⟨[(12, .queryString), (13, .requestUri)], []⟩, beforeFragment relaxed)] else [] := by
  simp only [atQuery, Expr.next, hn, fragmentE_next, Expr.outs, Expr.plain_outs hx, Expr.final]
  split <;> simp
  rfl

theorem atQuery_final : (atQuery relaxed x).final = x.final := by simp [atQuery, Expr.final, fragmentE]

theorem atQuery_outs (hx : x.plain = true) :
    (atQuery relaxed x).outs = ⟨[(12, .queryString), (13, .requestUri)], []⟩ := by
  simp only [atQuery, Expr.outs, Expr.plain_outs hx, fragmentE, Expr.final]
  rfl

theorem beforeFragment_next : (beforeFragment relaxed).next c =
    ((wordE relaxed).next c).map fun m => (embedding 14 .mark ++ m.1, atFragment m.2) := by
  simp [beforeFragment, Expr.next, Function.comp_def, atFragment]

theorem atFragment_next : (atFragment x).next c = (x.next c).map fun m => (m.1, atFragment m.2) := by
  simp [atFragment, Expr.next]

theorem atFragment_outs (hx : x.plain = true) : (atFragment x).outs = embedding 15 .fragment := by
  rw [atFragment, Expr.outs, Expr.plain_outs hx]
  rfl

end Next

/-! ## The states along a path -/

/-- After the first byte of a path. -/
def inPath (u : List UInt8) : Set (Expr Action) :=
  fun x => (∃ y ∈ (relativeE relaxed).reach u, x = atPath relaxed y) ∨ Schematic u ∧ x = atScheme relaxed

/-- After the bytes `u` of a path. -/
def pathStates (u : List UInt8) : Set (Expr Action) := if u = [] then {uriE relaxed} else inPath relaxed u

/-- A path that is empty has not been entered, and is so when it is left. -/
def pending (u : List UInt8) : List (Nat × Action) := if u = [] then [(9, .mark)] else []

section Steps

variable {relaxed} {d : Label Action} {rest : List (Expr Action)} {cs : State Action} {c : UInt8} {u : List UInt8}

theorem mem_inPath {x : Expr Action} : x ∈ inPath relaxed u ↔
    (∃ y ∈ (relativeE relaxed).reach u, x = atPath relaxed y) ∨ Schematic u ∧ x = atScheme relaxed := Iff.rfl

theorem spaceE_next (hc : c ≠ 32) : spaceE.next c = [] := by
  have h : (ByteSet.byte 32).has c = false := by
    rw [ByteSet.has_byte (by decide)]
    exact decide_eq_false hc
  simp [spaceE, Expr.next, h]

/-- The first byte of a path. -/
theorem path_first (h : State.Among d (spaceE :: rest) {uriE relaxed} cs) (hrest : rest.all Expr.final = false)
    (hq : c ≠ 63) (hf : c ≠ 35) (hs : c ≠ 32) (hne : (relativeE relaxed).next c ≠ []) :
    State.Among d (spaceE :: rest) (inPath relaxed [c]) (cs.step c) ∧ cs.acts c = [.mark] := by
  have hplain : ∀ m ∈ (relativeE relaxed).next c, m.1 = {} := fun m hm =>
    (Expr.plain_next (relativeE_plain relaxed) hm).1
  have hnext : ∀ m, m ∈ (uriE relaxed).next c ↔
      (ByteSet.alpha.has c = true ∧ m = (({} : Label Action), atScheme relaxed)) ∨
      ∃ n ∈ (relativeE relaxed).next c, m = (embedding 9 .mark, atPath relaxed n.2) := by
    intro m
    rw [uriE_next hq hf, List.mem_append, List.mem_map]
    refine or_congr (by split <;> simp [*]) (exists_congr fun n => and_congr_right fun hn => ?_)
    rw [hplain n hn, Label.append_nil, eq_comm]
  refine h.stay (l := [(9, .mark)]) rfl hrest (spaceE_next hs) (List.pairwise_singleton _ _) ?_ ?_ ?_
  · rintro e rfl m hm
    rcases (hnext m).1 hm with ⟨-, rfl⟩ | ⟨n, -, rfl⟩ <;> rfl
  · intro x
    simp only [Set.mem_singleton_iff, exists_eq_left, hnext, mem_inPath, Expr.reach, List.mem_flatMap,
      List.mem_singleton, Schematic, List.not_mem_nil, false_imp_iff, implies_true, and_true]
    constructor
    · rintro (⟨y, ⟨n, hn, rfl⟩, rfl⟩ | ⟨hc, rfl⟩)
      · exact ⟨_, .inr ⟨n, hn, rfl⟩, rfl⟩
      · exact ⟨_, .inl ⟨hc, rfl⟩, rfl⟩
    · rintro ⟨m, ⟨hc, rfl⟩ | ⟨n, hn, rfl⟩, rfl⟩
      · exact .inr ⟨hc, rfl⟩
      · exact .inl ⟨_, ⟨n, hn, rfl⟩, rfl⟩
  · intro x
    obtain ⟨n, hn⟩ := List.exists_mem_of_ne_nil _ hne
    simp only [Set.mem_singleton_iff, exists_eq_left, hnext, List.mem_singleton]
    constructor
    · rintro rfl
      exact ⟨_, .inr ⟨n, hn, rfl⟩, List.mem_singleton_self _⟩
    · rintro ⟨m, ⟨-, rfl⟩ | ⟨n, -, rfl⟩, hx⟩
      · cases hx
      · exact List.mem_singleton.1 hx

/-- The other bytes of a path. -/
theorem path_next (h : State.Among d (spaceE :: rest) (inPath relaxed u) cs) (hrest : rest.all Expr.final = false)
    (hu : u ≠ []) (hq : c ≠ 63) (hf : c ≠ 35) (hs : c ≠ 32) (hcolon : Schematic u → c ≠ 58) :
    State.Among d (spaceE :: rest) (inPath relaxed (u ++ [c])) (cs.step c) ∧ cs.acts c = [] := by
  have hplain : ∀ y ∈ (relativeE relaxed).reach u, ∀ m ∈ y.next c, m.1 = {} := fun y hy m hm =>
    (Expr.plain_next (Expr.plain_reach (relativeE_plain relaxed) hy) hm).1
  have hscheme : ∀ m, Schematic u → (m ∈ (atScheme relaxed).next c ↔
      schemeChar.has c = true ∧ m = (({} : Label Action), atScheme relaxed)) := by
    intro m hsu
    rw [atScheme_next (hcolon hsu)]
    split <;> simp [*]
  have hsnoc : Schematic (u ++ [c]) ↔ Schematic u ∧ schemeChar.has c = true := by
    cases u with
    | nil => exact absurd rfl hu
    | cons a u => simp [Schematic, or_imp, forall_and, and_assoc]
  have hlabel : ∀ e ∈ inPath relaxed u, ∀ m ∈ e.next c, m.1 = {} := by
    rintro e (⟨y, hy, rfl⟩ | ⟨hsu, rfl⟩) m hm
    · rw [atPath_next hq hf] at hm
      obtain ⟨n, hn, rfl⟩ := List.mem_map.1 hm
      exact hplain y hy n hn
    · rw [((hscheme m hsu).1 hm).2]
  refine h.stay (l := []) rfl hrest (spaceE_next hs) .nil (fun e he m hm => by rw [hlabel e he m hm]) ?_ ?_
  · intro x
    constructor
    · rintro (⟨z, hz, rfl⟩ | ⟨hsu, rfl⟩)
      · obtain ⟨y, hy, m, hm, rfl⟩ := Expr.reach_snoc.1 hz
        refine ⟨_, .inl ⟨y, hy, rfl⟩, (m.1, atPath relaxed m.2), ?_, rfl⟩
        rw [atPath_next hq hf]
        exact List.mem_map_of_mem hm
      · obtain ⟨hsu, hc⟩ := hsnoc.1 hsu
        exact ⟨_, .inr ⟨hsu, rfl⟩, _, (hscheme _ hsu).2 ⟨hc, rfl⟩, rfl⟩
    · rintro ⟨e, ⟨y, hy, rfl⟩ | ⟨hsu, rfl⟩, m, hm, rfl⟩
      · rw [atPath_next hq hf] at hm
        obtain ⟨n, hn, rfl⟩ := List.mem_map.1 hm
        exact .inl ⟨_, Expr.reach_snoc.2 ⟨y, hy, n, hn, rfl⟩, rfl⟩
      · obtain ⟨hc, rfl⟩ := (hscheme m hsu).1 hm
        exact .inr ⟨hsnoc.2 ⟨hsu, hc⟩, rfl⟩
  · intro x
    refine iff_of_false List.not_mem_nil ?_
    rintro ⟨e, he, m, hm, hx⟩
    rw [hlabel e he m hm] at hx
    cases hx

/-- A byte that ends a path and that all that is left of the path takes the same way, or not at all. -/
theorem path_turn (h : State.Among d (spaceE :: rest) (pathStates relaxed u) cs) (hrest : rest.all Expr.final = false)
    (hw : (relativeE relaxed).accepts u = true) (hs : c ≠ 32) {g : Expr Action} {l : List (Nat × Action)}
    (huri : (uriE relaxed).next c = [(⟨(9, .mark) :: l, []⟩, g)])
    (hpath : ∀ y ∈ (relativeE relaxed).reach u, (atPath relaxed y).next c = if y.final then [(⟨l, []⟩, g)] else [])
    (hscheme : (atScheme relaxed).next c = []) (hl : ((9, .mark) :: l).Pairwise fun x y => x.1 < y.1)
    (hnd : (((9, .mark) :: l).map Prod.snd).Nodup) :
    State.Among d (spaceE :: rest) {g} (cs.step c) ∧ cs.acts c = (pending u ++ l).map Prod.snd := by
  have hsort : (pending u ++ l).Pairwise fun x y => x.1 < y.1 := by
    unfold pending
    split
    · exact hl
    · exact (List.pairwise_cons.1 hl).2
  have hall : ∀ e ∈ pathStates relaxed u, ∀ m ∈ e.next c, m = (⟨pending u ++ l, []⟩, g) := by
    intro e he m hm
    unfold pathStates at he
    unfold pending
    split at he
    · rename_i hu
      subst he
      rw [huri, List.mem_singleton] at hm
      rw [if_pos hu]
      exact hm
    · rename_i hu
      rw [if_neg hu]
      rcases he with ⟨y, hy, rfl⟩ | ⟨-, rfl⟩
      · rw [hpath y hy] at hm
        split at hm
        · exact List.mem_singleton.1 hm
        · cases hm
      · rw [hscheme] at hm
        cases hm
  have hsome : ∃ e ∈ pathStates relaxed u, (⟨pending u ++ l, []⟩, g) ∈ e.next c := by
    unfold pathStates pending
    split
    · exact ⟨_, rfl, by simp [huri]⟩
    · obtain ⟨y, hy, hfin⟩ := List.any_eq_true.1 hw
      exact ⟨_, .inl ⟨y, hy, rfl⟩, by simp [hpath y hy, hfin]⟩
  have honce : ((pending u ++ l).map Prod.snd).Nodup := by
    unfold pending
    split
    · exact hnd
    · exact (List.nodup_cons.1 hnd).2
  rw [← State.eraseDups_eq_self honce]
  exact h.turn rfl hrest (spaceE_next hs) hall hsome rfl hsort

section PathEnd

variable (h : State.Among d (spaceE :: rest) (pathStates relaxed u) cs) (hrest : rest.all Expr.final = false)
  (hw : (relativeE relaxed).accepts u = true)
include h hrest hw

/-- The `?` after a path. -/
theorem path_query : State.Among d (spaceE :: rest) {beforeQuery relaxed} (cs.step 63) ∧
    cs.acts 63 = (pending u ++ [(10, Action.requestPath)]).map Prod.snd := by
  refine path_turn h hrest hw (by decide) uriE_next_query (fun y hy => ?_) (atScheme_next (by decide)) (by decide)
    (by decide)
  exact atPath_next_query (Expr.plain_reach (relativeE_plain relaxed) hy)
    (Expr.next_eq_nil (relativeE_reads relaxed).1 hy)

/-- The `#` after a path. -/
theorem path_fragment : State.Among d (spaceE :: rest) {beforeFragment relaxed} (cs.step 35) ∧
    cs.acts 35 = (pending u ++ [(10, Action.requestPath), (13, Action.requestUri)]).map Prod.snd := by
  refine path_turn h hrest hw (by decide) uriE_next_fragment (fun y hy => ?_) (atScheme_next (by decide)) (by decide)
    (by decide)
  exact atPath_next_fragment (Expr.plain_reach (relativeE_plain relaxed) hy)
    (Expr.next_eq_nil (relativeE_reads relaxed).2.1 hy)

/-- The blank after a path. -/
theorem path_space : State.Among d rest {Expr.eps} (cs.step 32) ∧
    cs.acts 32 = (pending u ++ [(10, Action.requestPath), (13, Action.requestUri)]).map Prod.snd := by
  have hnil : ∀ y ∈ (relativeE relaxed).reach u, y.next 32 = [] := fun y hy =>
    Expr.next_eq_nil (relativeE_reads relaxed).2.2 hy
  have hfinal : ∀ e ∈ pathStates relaxed u, e.next 32 = [] ∧
      (e.final = true → e.outs = ⟨pending u ++ [(10, .requestPath), (13, .requestUri)], []⟩) := by
    intro e he
    unfold pathStates at he
    unfold pending
    split at he
    · subst he
      have hempty : (relativeE relaxed).next 32 = [] :=
        Expr.next_eq_nil (w := []) (relativeE_reads relaxed).2.2 (by simp [Expr.reach])
      have halpha : ByteSet.alpha.has 32 = false := by decide
      rw [uriE_next (by decide) (by decide), hempty, halpha]
      exact ⟨rfl, fun _ => by simp [uriE_outs, *]⟩
    · rcases he with ⟨y, hy, rfl⟩ | ⟨-, rfl⟩
      · rw [atPath_next (by decide) (by decide), hnil y hy]
        exact ⟨rfl, fun _ => by simp [atPath_outs (Expr.plain_reach (relativeE_plain relaxed) hy), *]⟩
      · exact ⟨atScheme_next (by decide), fun hf => by simp [atScheme, Expr.final] at hf⟩
  have hsome : ∃ e ∈ pathStates relaxed u, e.final = true := by
    unfold pathStates
    split
    · exact ⟨_, rfl, uriE_final⟩
    · obtain ⟨y, hy, hfin⟩ := List.any_eq_true.1 hw
      exact ⟨_, .inl ⟨y, hy, rfl⟩, atPath_final.trans hfin⟩
  have honce : ((pending u ++ [(10, Action.requestPath), (13, Action.requestUri)]).map Prod.snd).Nodup := by
    unfold pending
    split <;> decide
  rw [← State.eraseDups_eq_self honce]
  refine h.leave rfl hrest (fun e he => (hfinal e he).1) (fun e he hf => (hfinal e he).2 hf) hsome ?_ rfl ?_
  · exact rfl
  · unfold pending
    split <;> decide

end PathEnd

/-! ### The query and the fragment -/

section Words

variable {F : Expr Action → Expr Action} {l : Label Action}

/-- The blank after a query or a fragment. -/
theorem word_space (h : State.Among d (spaceE :: rest) (Expr.around F (wordE relaxed) u) cs)
    (hrest : rest.all Expr.final = false) (hw : (wordE relaxed).accepts u = true)
    (hnext : ∀ y, (F y).next 32 = (y.next 32).map fun m => (m.1, F m.2)) (hfinal : ∀ y, (F y).final = y.final)
    (houts : ∀ y, y.plain = true → (F y).outs = l) (hp : l.priors = []) (hl : l.acts.Pairwise fun x y => x.1 < y.1)
    (hnd : (l.acts.map Prod.snd).Nodup) :
    State.Among d rest {Expr.eps} (cs.step 32) ∧ cs.acts 32 = l.acts.map Prod.snd := by
  rw [← State.eraseDups_eq_self hnd]
  refine h.leave rfl hrest ?_ ?_ ?_ rfl hp hl
  · rintro _ ⟨y, hy, rfl⟩
    rw [hnext, Expr.next_eq_nil (wordE_reads relaxed).2 hy]
    rfl
  · rintro _ ⟨y, hy, rfl⟩ -
    exact houts y (Expr.plain_reach (wordE_plain relaxed) hy)
  · obtain ⟨y, hy, hfin⟩ := List.any_eq_true.1 hw
    exact ⟨_, ⟨y, hy, rfl⟩, (hfinal y).trans hfin⟩

end Words

/-- The `#` after a query. -/
theorem query_fragment (h : State.Among d (spaceE :: rest) (Expr.around (atQuery relaxed) (wordE relaxed) u) cs)
    (hrest : rest.all Expr.final = false) (hw : (wordE relaxed).accepts u = true) :
    State.Among d (spaceE :: rest) {beforeFragment relaxed} (cs.step 35) ∧
      cs.acts 35 = [.queryString, .requestUri] := by
  have hnext : ∀ y ∈ (wordE relaxed).reach u, (atQuery relaxed y).next 35 =
      if y.final then [(⟨[(12, .queryString), (13, .requestUri)], []⟩, beforeFragment relaxed)] else [] := fun y hy =>
    atQuery_next_fragment (Expr.plain_reach (wordE_plain relaxed) hy) (Expr.next_eq_nil (wordE_reads relaxed).1 hy)
  have hall : ∀ e ∈ Expr.around (atQuery relaxed) (wordE relaxed) u, ∀ m ∈ e.next 35,
      m = (⟨[(12, .queryString), (13, .requestUri)], []⟩, beforeFragment relaxed) := by
    rintro _ ⟨y, hy, rfl⟩ m hm
    rw [hnext y hy] at hm
    split at hm
    · exact List.mem_singleton.1 hm
    · cases hm
  obtain ⟨y, hy, hfin⟩ := List.any_eq_true.1 hw
  exact h.turn rfl hrest (spaceE_next (by decide)) hall ⟨_, ⟨y, hy, rfl⟩, by simp [hnext y hy, hfin]⟩ rfl (by decide)

end Steps

end Grammar

end ServerFrame.Http
