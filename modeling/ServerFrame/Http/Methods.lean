/-
The three functions that `HTTP_METHOD_MAP` is to generate (`http.cc`): a method looked up by a whole string, which
does not get the table, by the bytes that a buffer begins with, and the name of a method.
-/
import ServerFrame.Http.Feed
import ServerFrame.Http.Dump
import Mathlib.Data.Bool.AllAny
import Mathlib.Data.List.Infix

namespace ServerFrame.Http

/-- `StringToHttpMethod(m)`. The line before `HTTP_METHOD_MAP(XX);` ends in a line continuation, so that this line is
part of the definition of `XX`, which nothing expands: no comparison is compiled, and what is left is the last line. -/
def stringToHttpMethod (_m : List UInt8) : HttpMethod := .invalidMethod

/-- The value of an `HttpMethod`. -/
def HttpMethod.num : HttpMethod → Nat
  | .delete => 0
  | .get => 1
  | .head => 2
  | .post => 3
  | .put => 4
  | .connect => 5
  | .options => 6
  | .trace => 7
  | .copy => 8
  | .lock => 9
  | .mkcol => 10
  | .move => 11
  | .propfind => 12
  | .proppatch => 13
  | .search => 14
  | .unlock => 15
  | .bind => 16
  | .rebind => 17
  | .unbind => 18
  | .acl => 19
  | .report => 20
  | .mkactivity => 21
  | .checkout => 22
  | .merge => 23
  | .msearch => 24
  | .notify => 25
  | .subscribe => 26
  | .unsubscribe => 27
  | .patch => 28
  | .purge => 29
  | .mkcalendar => 30
  | .link => 31
  | .unlink => 32
  | .source => 33
  | .invalidMethod => 34

/-! ## The table -/

section Table

/-- `HttpMethodToString` is the entry of `s_method_string` at the value of the method. -/
theorem httpMethodToString_eq (m : HttpMethod) :
    httpMethodToString m = ((httpMethodMap.map Prod.snd)[m.num]?).getD (bytes "<unknown>") := by
  cases m <;> rfl

set_option maxRecDepth 100000 in
theorem names : ∀ x ∈ httpMethodMap, httpMethodToString x.1 = x.2 ∧ x.1 ≠ .invalidMethod ∧ 0 ∉ x.2 := by
  decide

end Table

/-! ## Whole strings -/

section Strings

/-- The method of a string is the one of that name, where there is one, and else none. -/
structure Exact (s : List UInt8) : Prop where
  named : ∀ m, httpMethodToString m = s → stringToHttpMethod s = m
  unnamed : (∀ m, httpMethodToString m ≠ s) → stringToHttpMethod s = .invalidMethod

/-- A name is that of an entry of the table, or of no method. -/
theorem httpMethodToString_mem (m : HttpMethod) : (m, httpMethodToString m) ∈ httpMethodMap ∨ m = .invalidMethod := by
  cases m <;> decide

theorem exact_iff (s : List UInt8) : Exact s ↔ ∀ x ∈ httpMethodMap, x.2 ≠ s := by
  constructor
  · rintro ⟨hnamed, -⟩ x hx rfl
    exact (names x hx).2.1 (hnamed x.1 (names x hx).1).symm
  · intro h
    refine ⟨fun m hm => ?_, fun _ => rfl⟩
    rcases httpMethodToString_mem m with hmem | rfl
    · exact absurd hm (h _ hmem)
    · rfl

end Strings

/-! ## The beginning of a buffer -/

section Buffer

variable {m : Nat → UInt8} {t u : List UInt8} {p : Nat}

/-- A name is compared with the bytes of the buffer, and no more than these. -/
theorem strncmp_spells (h : 0 ∉ t) : strncmp t.length (cstr t) (fun i => m (p + i)) = true ↔ Spells m p t := by
  induction t generalizing p with
  | nil => exact iff_of_true rfl trivial
  | cons c t ih =>
    have hc : c ≠ 0 := fun hc => h (hc ▸ List.mem_cons_self)
    have hcs : (fun i => cstr (c :: t) (i + 1)) = cstr t := rfl
    have hm : (fun i => m (p + (i + 1))) = fun i => m (p + 1 + i) := funext fun i => by rw [Nat.add_right_comm]; rfl
    have hbeq : (c == 0) = false := beq_eq_false_iff_ne.2 hc
    rw [List.length_cons, strncmp, hcs, hm, Spells, ← ih fun h0 => h (List.mem_cons_of_mem _ h0)]
    show (c == m (p + 0) && (c == 0 || _)) = true ↔ _
    rw [hbeq, Bool.false_or, Bool.and_eq_true, beq_iff_eq, eq_comm]
    rfl

/-- Of two texts at one place, the shorter begins the longer. -/
theorem Spells.begins (ht : Spells m p t) (hu : Spells m p u) (hle : t.length ≤ u.length) : t <+: u := by
  induction t generalizing u p with
  | nil => exact List.nil_prefix
  | cons c t ih =>
    cases u with
    | nil => cases hle
    | cons d u =>
      rw [← ht.1, ← hu.1]
      exact (List.prefix_cons_inj _).2 (ih ht.2 hu.2 (Nat.le_of_succ_le_succ hle))

/-- A token of a request line, as the machine hands it to `on_request_method`: 1 to 20 upper-case letters or digits, and
a space after them. -/
structure RequestToken (m : Nat → UInt8) (t : List UInt8) : Prop where
  pos : 1 ≤ t.length
  le : t.length ≤ 20
  chars : ∀ c ∈ t, 65 ≤ c ∧ c ≤ 90 ∨ 48 ≤ c ∧ c ≤ 57
  spelled : Spells m 0 (t ++ [32])

/-- The bytes of the buffer and the token alone give the same method, and where no method has that name, the parser has
error 1000. -/
structure Agrees (m : Nat → UInt8) (t : List UInt8) : Prop where
  method : charsToHttpMethod m = stringToHttpMethod t
  error : (∀ m', httpMethodToString m' ≠ t) → ∀ (h : HttpRequestParser) (buffer : Nat → UInt8) (start : Nat),
    (∀ i, buffer (start + i) = m i) → (h.onRequestMethod buffer start).error = 1000

theorem agrees_iff_method : Agrees m t ↔ charsToHttpMethod m = .invalidMethod := by
  refine ⟨fun h => h.method, fun h => ⟨h, fun _ parser buffer start hbuffer => ?_⟩⟩
  have hm : charsToHttpMethod (fun i => buffer (start + i)) = .invalidMethod := by
    rw [funext hbuffer, h]
  rw [HttpRequestParser.onRequestMethod, hm]
  rfl

theorem RequestToken.nul (ht : RequestToken m t) : 0 ∉ t := by
  intro h
  have := ht.chars 0 h
  revert this
  decide

theorem RequestToken.blank (ht : RequestToken m t) : 32 ∉ t := by
  intro h
  have := ht.chars 32 h
  revert this
  decide

/-- The lookup of the buffer finds the first name that stands there. -/
theorem charsToHttpMethod_cases (m : Nat → UInt8) :
    (∃ x ∈ httpMethodMap, Spells m 0 x.2 ∧ charsToHttpMethod m = x.1) ∨
      (∀ x ∈ httpMethodMap, ¬ Spells m 0 x.2) ∧ charsToHttpMethod m = .invalidMethod := by
  have hspells : ∀ x ∈ httpMethodMap, (strncmp x.2.length (cstr x.2) m = true ↔ Spells m 0 x.2) := by
    intro x hx
    rw [← strncmp_spells (names x hx).2.2]
    simp only [Nat.zero_add]
  rcases hf : httpMethodMap.find? fun x => strncmp x.2.length (cstr x.2) m with _ | x
  · refine .inr ⟨fun x hx h => ?_, by rw [charsToHttpMethod, hf]⟩
    exact (List.find?_eq_none.1 hf) x hx ((hspells x hx).2 h)
  · have hx := List.mem_of_find?_eq_some hf
    have hname : strncmp x.2.length (cstr x.2) m = true :=
      List.find?_some (p := fun y : HttpMethod × List UInt8 => strncmp y.2.length (cstr y.2) m) hf
    exact .inl ⟨x, hx, (hspells x hx).1 hname, by rw [charsToHttpMethod, hf]⟩

theorem agrees_iff_names : Agrees m t ↔ ∀ x ∈ httpMethodMap, ¬ Spells m 0 x.2 := by
  rw [agrees_iff_method]
  rcases charsToHttpMethod_cases m with ⟨x, hx, hsx, hfound⟩ | ⟨hnone, hfound⟩
  · rw [hfound]
    exact iff_of_false (names x hx).2.1 fun h => h x hx hsx
  · exact iff_of_true hfound hnone

/-- The only name with a blank. -/
theorem names_blank : ∀ x ∈ httpMethodMap, 32 ∈ x.2 →
    x.2 = bytes "M" ++ [32] ++ bytes "- SEARCH" ∧ x.1 = .msearch := by
  decide

/-- The names that stand at a token and a space: they begin the token, or the token is the first part of the name with
a blank. -/
theorem spells_name_iff (ht : RequestToken m t) {x : HttpMethod × List UInt8} (hx : x ∈ httpMethodMap) :
    Spells m 0 x.2 ↔ x.2 <+: t ∨ x.1 = .msearch ∧ t = bytes "M" ∧ Spells m 2 (bytes "- SEARCH") := by
  have hself : Spells m 0 t := (spells_append.1 ht.spelled).1
  constructor
  · intro hsx
    rcases Nat.lt_or_ge t.length x.2.length with hlt | hle
    · -- the name goes past the space
      obtain ⟨u, hu⟩ := ht.spelled.begins hsx (by rw [List.length_append]; exact hlt)
      have hblank : 32 ∈ x.2 := by
        rw [← hu]
        simp
      obtain ⟨hname, hmethod⟩ := names_blank x hx hblank
      rw [hname] at hu hsx
      have ht' : t = bytes "M" := by
        have htake := congrArg (List.takeWhile (· != 32)) hu
        rw [List.append_assoc, List.takeWhile_append_of_pos] at htake
        · rw [List.singleton_append, List.takeWhile_cons_of_neg (by decide), List.append_nil] at htake
          exact htake
        · intro c hc
          refine bne_iff_ne.2 ?_
          rintro rfl
          exact ht.blank hc
      exact .inr ⟨hmethod, ht', (spells_append.1 hsx).2⟩
    · exact .inl (hsx.begins hself hle)
  · rintro (⟨u, hu⟩ | ⟨hmethod, rfl, hrest⟩)
    · rw [← hu] at hself
      exact (spells_append.1 hself).1
    · have hname : x.2 = bytes "M" ++ [32] ++ bytes "- SEARCH" := by
        rw [← (names x hx).1, hmethod]
        decide
      rw [hname]
      exact spells_append.2 ⟨ht.spelled, hrest⟩

theorem agrees_iff (ht : RequestToken m t) :
    Agrees m t ↔ (∀ x ∈ httpMethodMap, ¬ x.2 <+: t) ∧ ¬ (t = bytes "M" ∧ Spells m 2 (bytes "- SEARCH")) := by
  rw [agrees_iff_names]
  constructor
  · intro h
    refine ⟨fun x hx hbegins => h x hx ((spells_name_iff ht hx).2 (.inl hbegins)), fun hsearch => ?_⟩
    exact h (.msearch, bytes "M - SEARCH") (by decide) ((spells_name_iff ht (by decide)).2 (.inr ⟨rfl, hsearch⟩))
  · rintro ⟨hbegins, hsearch⟩ x hx hsx
    rcases (spells_name_iff ht hx).1 hsx with h | ⟨-, h⟩
    · exact hbegins x hx h
    · exact hsearch h

end Buffer

/-- The lookup of a whole string is exact exactly if the string is no method's name; that of a token in a buffer agrees
with it exactly if no name is the token or begins it and the token is not the `M` of `M - SEARCH`. -/
theorem methods_exact_iff {m : Nat → UInt8} {t : List UInt8} (ht : RequestToken m t) :
    (∀ s, Exact s ↔ ∀ x ∈ httpMethodMap, x.2 ≠ s) ∧
      (Agrees m t ↔ (∀ x ∈ httpMethodMap, ¬ x.2 <+: t) ∧ ¬ (t = bytes "M" ∧ Spells m 2 (bytes "- SEARCH"))) :=
  ⟨exact_iff, agrees_iff ht⟩

/-- `methods_exact_iff` for a token that is no method. -/
theorem methods_exact_iff_fetch : Agrees (cstr (bytes "FETCH ")) (bytes "FETCH") := by
  have hchars : ∀ c ∈ bytes "FETCH", 65 ≤ c ∧ c ≤ 90 ∨ 48 ≤ c ∧ c ≤ 57 :=
    List.all_iff_forall_prop.1 (by decide)
  refine (methods_exact_iff ⟨by decide, by decide, hchars, spells_of_getD fun i _ => ?_⟩).2.2
    ⟨by decide, fun h => absurd h.1 (by decide)⟩
  rw [Nat.zero_add]
  rfl

/-- `GET` is looked up in vain. -/
theorem get_not_exact : ¬ ((∀ s, Exact s) ∧ ∀ m t, RequestToken m t → Agrees m t) := by
  rintro ⟨h, -⟩
  have hget := (h (bytes "GET")).named .get (by decide)
  revert hget
  decide

end ServerFrame.Http
