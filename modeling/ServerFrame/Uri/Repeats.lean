/-
An action that a transition would run twice is run once, where it stands first. Along a URI only marks are repeated, and
a mark that is repeated is at its place already, but where a port is empty: what saves the port takes the mark away, and
the path is not marked again.
-/
import ServerFrame.Uri.Create
import ServerFrame.Uri.Scripts

namespace ServerFrame.Uri

open Ragel Ragel.Expr UriGrammar

variable {text : List UInt8} {s s' : Scan}

/-! ## What may be repeated -/

/-- The actions, each at its place. -/
def enact (text : List UInt8) (l : List (Nat × UriAction)) (s : Scan) : Except UriFault Scan :=
  l.foldlM (fun s y => act text y.1 s y.2) s

variable {l l' : List (Nat × UriAction)} {y : Nat × UriAction}

theorem enact_cons_of (h : act text y.1 s y.2 = .ok s') : enact text (y :: l) s = enact text l s' := by
  rw [enact, List.foldlM_cons, h]
  rfl

def IsMark (a : UriAction) : Prop := a = .marku ∨ a = .markh

theorem act_mark {p : Nat} {a : UriAction} (h : IsMark a) : act text p s a = .ok { s with mark := some p } := by
  rcases h with rfl | rfl <;> rfl

/-- Only marks are repeated, with nothing but hosts saved in between. -/
structure Steady (l : List (Nat × UriAction)) : Prop where
  mark : ∀ y, [y, y].Sublist l → IsMark y.2
  between : ∀ x y, [y, x, y].Sublist l → x = y ∨ x.2 = .saveHost

theorem Steady.sublist (h : Steady l) (hl : l'.Sublist l) : Steady l' where
  mark y hy := h.mark y (hy.trans hl)
  between x y hx := h.between x y (hx.trans hl)

/-- While the mark stays where it is, marking that place again changes nothing. -/
theorem enact_filter (hy : IsMark y.2) (hl : ∀ x, [x, y].Sublist l → x = y ∨ x.2 = .saveHost)
    (hs : s.mark = some y.1) : enact text (l.filter fun x => !x == y) s = enact text l s := by
  induction l generalizing s with
  | nil => rfl
  | cons z l ih =>
    have hrest : ∀ x, [x, y].Sublist l → x = y ∨ x.2 = .saveHost := fun x hx => hl x (hx.cons z)
    by_cases hz : z = y
    · have hact : act text z.1 s z.2 = .ok s := by
        rw [hz, act_mark hy, ← hs]
      rw [List.filter_cons_of_neg (by simpa using hz), enact_cons_of hact, ih hrest hs]
    · rw [List.filter_cons_of_pos (by simpa using hz)]
      by_cases hmem : y ∈ l
      · -- a host is saved, and the mark is still there
        have hz : z.2 = .saveHost :=
          (hl z (.cons_cons z (List.singleton_sublist.2 hmem))).resolve_left hz
        obtain ⟨s', hact, hs'⟩ : ∃ s', act text z.1 s z.2 = .ok s' ∧ s'.mark = some y.1 := by
          obtain ⟨u, m⟩ := s
          subst hs
          rw [hz]
          exact ⟨_, rfl, rfl⟩
        rw [enact_cons_of hact, enact_cons_of hact, ih hrest hs']
      · have hself : l.filter (fun x => !x == y) = l := by
          rw [List.filter_eq_self]
          intro x hx
          simpa using fun h : x = y => hmem (h ▸ hx)
        rw [hself]

/-- What is left out when an action is done once would have changed nothing. -/
theorem enact_eraseDups : ∀ {l : List (Nat × UriAction)} {s : Scan}, Steady l →
    enact text l.eraseDups s = enact text l s
  | [], _, _ => rfl
  | y :: l, s, h => by
    have hrest : Steady (l.filter fun x => !x == y) :=
      h.sublist (List.filter_sublist.trans (List.sublist_cons_self y l))
    rw [List.eraseDups_cons, enact, List.foldlM_cons, enact, List.foldlM_cons]
    cases hact : act text y.1 s y.2 with
    | error e => rfl
    | ok s' =>
      change enact text (l.filter fun x => !x == y).eraseDups s' = enact text l s'
      rw [enact_eraseDups hrest]
      by_cases hmem : y ∈ l
      · have hmark := h.mark y (.cons_cons y (List.singleton_sublist.2 hmem))
        rw [act_mark hmark] at hact
        cases hact
        exact enact_filter hmark (fun x hx => h.between x y (hx.cons_cons y)) rfl
      · rw [List.filter_eq_self.2 fun x hx => by simpa using fun h : x = y => hmem (h ▸ hx)]
termination_by l => l.length
decreasing_by exact Nat.lt_succ_of_le (List.length_filter_le ..)

/-- The events of a script, without their numbers. -/
def unnumbered (l : List (Nat × Nat × UriAction)) : List (Nat × UriAction) := l.map fun y => (y.1, y.2.2)

theorem steady_of_sorted {l : List (Nat × Nat × UriAction)} (hs : l.Pairwise Earlier)
    (h : ∀ a ∈ l, ∀ c ∈ l, a.1 = c.1 → a.2.2 = c.2.2 → a.2.1 < c.2.1 → IsMark a.2.2 ∧
      ∀ b ∈ l, b.1 = a.1 → a.2.1 < b.2.1 → b.2.1 < c.2.1 → b.2.2 = a.2.2 ∨ b.2.2 = .saveHost) :
    Steady (unnumbered l) where
  mark y hy := by
    obtain ⟨w, hw, heq⟩ := List.sublist_map_iff.1 hy
    match w, heq with
    | [], heq | [_], heq | _ :: _ :: _ :: _, heq => simp at heq
    | [a, c], heq =>
      simp only [List.map_cons, List.map_nil, List.cons.injEq, and_true] at heq
      obtain ⟨rfl, hc⟩ := heq
      obtain ⟨hplace, hact⟩ := Prod.mk.inj hc
      have hlt : a.2.1 < c.2.1 := by
        rcases List.pairwise_pair.1 (hs.sublist hw) with hlt | ⟨-, hlt⟩
        · omega
        · exact hlt
      exact (h a (hw.subset (by simp)) c (hw.subset (by simp)) hplace hact hlt).1
  between x y hx := by
    obtain ⟨w, hw, heq⟩ := List.sublist_map_iff.1 hx
    match w, heq with
    | [], heq | [_], heq | [_, _], heq | _ :: _ :: _ :: _ :: _, heq => simp at heq
    | [a, b, c], heq =>
      simp only [List.map_cons, List.map_nil, List.cons.injEq, and_true] at heq
      obtain ⟨rfl, rfl, hc⟩ := heq
      obtain ⟨hplace, hact⟩ := Prod.mk.inj hc
      have hsort := hs.sublist hw
      simp only [List.pairwise_cons, List.mem_cons, List.not_mem_nil, or_false, forall_eq_or_imp, forall_eq,
        Earlier] at hsort
      obtain ⟨⟨hab, -⟩, hbc, -⟩ := hsort
      have hb : b.1 = a.1 := by omega
      refine ((h a (hw.subset (by simp)) c (hw.subset (by simp)) hplace hact (by omega)).2 b (hw.subset (by simp))
        hb (by omega) (by omega)).imp_left fun h => ?_
      rw [h, hb]

/-! ## Where the actions of a URI stand -/

/-- The action of each embedding. -/
def actionOf : Nat → UriAction
  | 0 => .marku
  | 1 => .saveScheme
  | 2 => .markh
  | 3 => .saveUserinfo
  | 4 => .markh
  | 5 => .saveHost
  | 6 => .markh
  | 7 => .savePort
  | 8 => .markh
  | 9 => .savePath
  | 10 => .marku
  | 11 => .saveQuery
  | 12 => .marku
  | _ => .saveFragment

theorem actionOf_eq {m n : Nat} (hm : m < n) (hn : n < 14) (h : actionOf m = actionOf n) :
    actionOf m = .marku ∧ (m = 0 ∨ m = 10) ∧ (n = 10 ∨ n = 12) ∨
      actionOf m = .markh ∧ (m = 2 ∨ m = 4 ∨ m = 6) ∧ (n = 4 ∨ n = 6 ∨ n = 8) := by
  have hall : ∀ n ∈ List.range 14, ∀ m ∈ List.range n, actionOf m = actionOf n →
      actionOf m = .marku ∧ (m = 0 ∨ m = 10) ∧ (n = 10 ∨ n = 12) ∨
        actionOf m = .markh ∧ (m = 2 ∨ m = 4 ∨ m = 6) ∧ (n = 4 ∨ n = 6 ∨ n = 8) := by decide
  exact hall n (List.mem_range.2 hn) m (List.mem_range.2 hm) h

section Authority

variable {userinfo port : Option (List UInt8)} {h v : List UInt8} {y : Nat × Nat × UriAction}

/-- An event of the authority. -/
structure InAuthority (userinfo : Option (List UInt8)) (h : List UInt8) (port : Option (List UInt8))
    (y : Nat × Nat × UriAction) : Prop where
  number : 2 ≤ y.2.1 ∧ y.2.1 < 8
  action : y.2.2 = actionOf y.2.1
  atSign : y.2.1 = 3 → ∃ v, userinfo = some v ∧ y.1 = v.length
  apart : 4 ≤ y.2.1 → ∀ v ∈ userinfo, y.1 ≠ v.length
  last : y.2.1 = 7 → port.isSome ∧ y.1 = (authorityText userinfo h port).length
  before : y.2.1 < 7 → ∀ w ∈ port, w ≠ [] → y.1 < (authorityText userinfo h port).length

theorem mem_hostScript (hy : y ∈ hostScript h port) : 4 ≤ y.2.1 ∧ y.2.1 < 8 ∧ y.2.2 = actionOf y.2.1 ∧
    (y.2.1 = 7 → port.isSome ∧ y.1 = (h ++ optText 58 port).length) ∧
    (y.2.1 < 7 → ∀ w ∈ port, w ≠ [] → y.1 < (h ++ optText 58 port).length) := by
  have hpos : ∀ {w : List UInt8}, w ≠ [] → 0 < w.length := List.length_pos_iff.2
  cases port with
  | none =>
    simp only [hostScript, fieldScript, optScript, shift_nil, List.append_nil, List.mem_cons, List.not_mem_nil,
      or_false] at hy
    rcases hy with rfl | rfl <;> simp [actionOf]
  | some w =>
    simp only [hostScript, fieldScript, optScript, shift_cons, shift_nil, List.cons_append, List.nil_append,
      List.mem_cons, List.not_mem_nil, or_false] at hy
    simp only [Option.mem_some_iff, forall_eq', List.length_append, optText, List.length_cons]
    have hlen : w ≠ [] → 0 < w.length := hpos
    rcases hy with rfl | rfl | rfl | rfl <;> simp [actionOf] <;> omega

theorem mem_attempts_number (hv : userinfoE.accepts v = true) (hy : y ∈ attempts v) :
    y.1 < v.length ∧ 4 ≤ y.2.1 ∧ y.2.1 < 7 ∧ y.2.2 = actionOf y.2.1 := by
  refine ⟨(attempts_bounds hv hy).1, ?_⟩
  obtain ⟨p, c, q, -, -, hx⟩ := (mem_attempts hv).1 hy
  rcases carries_hostPort.1 hx with ⟨-, -, h⟩ | ⟨-, -, h | ⟨-, h⟩⟩ | ⟨-, -, -, -, h⟩ <;> rw [h] <;> decide

theorem length_authorityText :
    (authorityText (some v) h port).length = v.length + 1 + (h ++ optText 58 port).length := by
  rw [authorityText, userinfoText, List.length_append, List.length_append]
  rfl

theorem inAuthority (hu : ∀ v ∈ userinfo, userinfoE.accepts v = true) (hy : y ∈ authorityScript userinfo h port) :
    InAuthority userinfo h port y := by
  rcases List.mem_cons.1 hy with rfl | hy
  · refine ⟨⟨le_rfl, show 2 < 8 by decide⟩, rfl, fun h => absurd h (by decide), fun h => absurd h (by decide),
      fun h => absurd h (by decide), ?_⟩
    rintro - w rfl hw
    have hpos : 0 < w.length := List.length_pos_iff.2 hw
    simp only [authorityText, List.length_append, optText, List.length_cons]
    omega
  cases userinfo with
  | none =>
    obtain ⟨hlo, hhi, hact, hport, hbefore⟩ := mem_hostScript hy
    exact ⟨⟨by omega, hhi⟩, hact, fun h => by omega, fun _ _ h => absurd h (Option.not_mem_none _), hport, hbefore⟩
  | some v =>
    rcases List.mem_append.1 hy with hy | hy
    · obtain ⟨hplace, hlo, hhi, hact⟩ := mem_attempts_number (hu v rfl) hy
      refine ⟨⟨by omega, by omega⟩, hact, fun h => by omega, ?_, fun h => by omega, fun _ w _ _ => ?_⟩
      · rintro - w ⟨⟩
        exact hplace.ne
      · rw [length_authorityText]
        omega
    rcases List.mem_cons.1 hy with rfl | hy
    · refine ⟨⟨show 2 ≤ 3 by decide, show 3 < 8 by decide⟩, rfl, fun _ => ⟨v, rfl, rfl⟩,
        fun h => absurd h (show ¬ 4 ≤ 3 by decide), fun h => absurd h (show ¬ 3 = 7 by decide),
        fun _ w _ _ => ?_⟩
      rw [length_authorityText]
      exact (Nat.lt_succ_self _).trans_le (Nat.le_add_right _ _)
    · rw [shift_shift] at hy
      obtain ⟨j, hj, hy⟩ := mem_shift.1 (show (y.1, y.2) ∈ _ from hy)
      obtain ⟨hlo, hhi, hact, hport, hbefore⟩ := mem_hostScript hy
      refine ⟨⟨?_, hhi⟩, hact, fun h => ?_, ?_, fun h => ⟨(hport h).1, ?_⟩, fun h w hw hne => ?_⟩
      · exact le_trans (by decide) hlo
      · rw [h] at hlo
        exact absurd hlo (by decide)
      · rintro - w ⟨⟩
        omega
      · rw [length_authorityText, hj, ← (hport h).2]
      · rw [length_authorityText, hj]
        exact Nat.add_lt_add_left (hbefore h w hw hne) _

end Authority

/-! ## The script of a URI, done once -/

section Components

variable (k : Components)

/-- The script of a path: behind an empty port it is not marked. -/
def pathScript : List (Nat × Nat × UriAction) :=
  (if k.port = some [] then [] else [(0, 8, .markh)]) ++ [(k.path.length, 9, .savePath)]

/-- The script, less a mark that is not made again. -/
def once : List (Nat × Nat × UriAction) :=
  fieldScript 0 .marku .saveScheme k.scheme ++
    shift k.scheme.length (shift 1 (shift 1 (shift 1
      (authorityScript k.userinfo k.host k.port ++ shift k.authority.length (pathScript k))))) ++
    shift (k.scheme ++ 58 :: k.hier).length (optScript 10 .marku .saveQuery k.query) ++
    shift ((k.scheme ++ 58 :: k.hier) ++ optText 63 k.query).length (optScript 12 .marku .saveFragment k.fragment)

theorem eraseDups_append_cons {l : List (Nat × Nat × UriAction)} {p m n : Nat} {a : UriAction}
    (h : (p, m, a) ∈ l) (l' : List (Nat × Nat × UriAction)) :
    (unnumbered (l ++ (p, n, a) :: l')).eraseDups = (unnumbered (l ++ l')).eraseDups := by
  have hmem : (p, a) ∈ unnumbered l := List.mem_map.2 ⟨_, h, rfl⟩
  have hrest : (unnumbered ((p, n, a) :: l')).removeAll (unnumbered l) = (unnumbered l').removeAll (unnumbered l) := by
    rw [unnumbered, List.map_cons, List.removeAll, List.filter_cons_of_neg (by simpa using hmem)]
    rfl
  rw [unnumbered, unnumbered, List.map_append, List.map_append, List.eraseDups_append, List.eraseDups_append]
  exact congrArg (_ ++ List.eraseDups ·) hrest

/-- Behind an empty port the mark is made for the port already. -/
theorem mem_authorityScript_port (hport : k.port = some []) :
    (k.authority.length, 6, UriAction.markh) ∈ authorityScript k.userinfo k.host k.port := by
  have hhost : ((k.host ++ optText 58 k.port).length, 6, UriAction.markh) ∈ hostScript k.host k.port := by
    rw [hport]
    simp [hostScript, fieldScript, optScript, optText]
  refine List.mem_cons_of_mem _ ?_
  rw [Components.authority]
  cases k.userinfo with
  | none => exact hhost
  | some v =>
    refine List.mem_append_right _ (List.mem_cons_of_mem _ ?_)
    rw [shift_shift, length_authorityText]
    exact mem_shift.2 ⟨_, rfl, hhost⟩

theorem eraseDups_script : (unnumbered k.script).eraseDups = (unnumbered (once k)).eraseDups := by
  by_cases hport : k.port = some []
  · have hmark : (k.scheme.length + (1 + (1 + (1 + k.authority.length))), 6, UriAction.markh) ∈
        shift (k.scheme.length + (1 + (1 + 1))) (authorityScript k.userinfo k.host k.port) :=
      mem_shift.2 ⟨_, by omega, mem_authorityScript_port k hport⟩
    have hdrop := eraseDups_append_cons (n := 8)
      (List.mem_append_right (fieldScript 0 .marku .saveScheme k.scheme) hmark)
    simp only [Components.script, once, pathScript, if_pos hport, fieldScript, shift_append, shift_shift, shift_cons,
      shift_nil, List.append_assoc, List.nil_append, List.cons_append, Nat.add_zero] at hdrop ⊢
    exact hdrop _
  · rw [Components.script, once, pathScript, if_neg hport]
    rfl

/-! ## Where its events stand -/

/-- An event of the text, with the authority from `b` on. -/
structure InText (b q : Nat) (y : Nat × Nat × UriAction) : Prop where
  number : y.2.1 < 14
  action : y.2.2 = actionOf y.2.1
  scheme : y.2.1 = 0 → y.1 = 0
  atSign : y.2.1 = 3 → ∃ v, k.userinfo = some v ∧ y.1 = b + v.length
  apart : 4 ≤ y.2.1 → y.2.1 ≤ 8 → ∀ v ∈ k.userinfo, y.1 ≠ b + v.length
  last : y.2.1 = 7 → k.port.isSome ∧ y.1 = b + k.authority.length
  before : 2 ≤ y.2.1 → y.2.1 < 7 → ∀ w ∈ k.port, w ≠ [] → y.1 < b + k.authority.length
  path : y.2.1 = 8 → k.port ≠ some []
  query : y.2.1 = 10 → y.1 = q + 1 ∧ k.query.isSome
  fragment : y.2.1 = 12 → q < y.1 ∧ (k.query.isSome → q + 1 < y.1)

variable {b q : Nat} {y : Nat × Nat × UriAction}

theorem InAuthority.inText (h : InAuthority k.userinfo k.host k.port y) : InText k b q (b + y.1, y.2) where
  number := h.number.2.trans (by decide)
  action := h.action
  scheme h0 := absurd (h0 ▸ h.number.1) (by decide)
  atSign h3 := by
    obtain ⟨v, hv, hplace⟩ := h.atSign h3
    exact ⟨v, hv, congrArg (b + ·) hplace⟩
  apart h4 _ v hv heq := h.apart h4 v hv (Nat.add_left_cancel heq)
  last h7 := ⟨(h.last h7).1, congrArg (b + ·) (h.last h7).2⟩
  before _ h7 w hw hne := Nat.add_lt_add_left (h.before h7 w hw hne) b
  path h8 := absurd (h8 ▸ h.number.2) (by decide)
  query h10 := absurd (h10 ▸ h.number.2) (by decide)
  fragment h12 := absurd (h12 ▸ h.number.2) (by decide)

theorem inText_scheme (h : y ∈ fieldScript 0 .marku .saveScheme k.scheme) : InText k b q y := by
  simp only [fieldScript, List.mem_cons, List.not_mem_nil, or_false] at h
  rcases h with rfl | rfl <;> constructor <;> simp [actionOf]

theorem inText_path (h : y ∈ pathScript k) : InText k b q (b + k.authority.length + y.1, y.2) := by
  have hlen : ∀ v ∈ k.userinfo, v.length < k.authority.length := by
    intro v hv
    rw [Components.authority, Option.mem_def.1 hv, length_authorityText]
    omega
  rw [pathScript] at h
  split at h
  · simp only [List.nil_append, List.mem_singleton] at h
    subst h
    constructor <;> simp [actionOf]
  · rename_i hport
    simp only [List.cons_append, List.nil_append, List.mem_cons, List.not_mem_nil, or_false] at h
    rcases h with rfl | rfl <;> constructor <;> simp [actionOf, hport]
    intro v hv
    exact (hlen v hv).ne'

theorem inText_query (h : y ∈ optScript 10 .marku .saveQuery k.query) : InText k b q (q + y.1, y.2) := by
  cases hquery : k.query with
  | none =>
    rw [hquery] at h
    cases h
  | some w =>
    simp only [hquery, optScript, fieldScript, shift_cons, shift_nil, List.mem_cons, List.not_mem_nil, or_false] at h
    rcases h with rfl | rfl <;> constructor <;> simp [actionOf, hquery]

theorem inText_fragment (h : y ∈ optScript 12 .marku .saveFragment k.fragment) :
    InText k b q (q + (optText 63 k.query).length + y.1, y.2) := by
  cases hfragment : k.fragment with
  | none =>
    rw [hfragment] at h
    cases h
  | some w =>
    simp only [hfragment, optScript, fieldScript, shift_cons, shift_nil, List.mem_cons, List.not_mem_nil, or_false] at h
    have hlen : k.query.isSome → 0 < (optText 63 k.query).length := fun hquery => by
      obtain ⟨v, hv⟩ := Option.isSome_iff_exists.1 hquery
      rw [hv]
      exact Nat.succ_pos _
    rcases h with rfl | rfl
    · refine ⟨show 12 < 14 by decide, rfl, nofun, nofun, fun _ h => ?_, nofun, fun _ h => ?_, nofun, nofun,
        fun _ => ⟨?_, fun hquery => ?_⟩⟩
      · exact absurd h (show ¬ 12 ≤ 8 by decide)
      · exact absurd h (show ¬ 12 < 7 by decide)
      · simp only
        omega
      · have := hlen hquery
        simp only
        omega
    · constructor <;> simp [actionOf]

theorem inText_once (h : y ∈ once k) :
    InText k (k.scheme.length + 3) (k.scheme ++ 58 :: k.hier).length y := by
  simp only [once, List.mem_append] at h
  rcases h with ((h | h) | h) | h
  · exact inText_scheme k h
  · rw [shift_shift, shift_shift, shift_shift] at h
    obtain ⟨j, hj, h⟩ := mem_shift.1 (show (y.1, y.2) ∈ _ from h)
    have hy : y = (k.scheme.length + 3 + j, y.2) := Prod.ext hj rfl
    rcases List.mem_append.1 h with h | h
    · rw [hy]
      exact (inAuthority k.ofUserinfo h).inText k
    · obtain ⟨i, hi, h⟩ := mem_shift.1 h
      rw [hy, hi, ← Nat.add_assoc]
      exact inText_path k h
  · obtain ⟨j, hj, h⟩ := mem_shift.1 (show (y.1, y.2) ∈ _ from h)
    rw [show y = (_, y.2) from Prod.ext hj rfl]
    exact inText_query k h
  · obtain ⟨j, hj, h⟩ := mem_shift.1 (show (y.1, y.2) ∈ _ from h)
    rw [List.length_append] at hj
    rw [show y = (_, y.2) from Prod.ext hj rfl]
    exact inText_fragment k h

theorem once_sublist : (once k).Sublist k.script := by
  have hpath : (pathScript k).Sublist (fieldScript 8 .markh .savePath k.path) := by
    rw [pathScript]
    split
    · exact List.sublist_cons_self ..
    · exact List.Sublist.refl _
  have hshift : ∀ {n : Nat} {l l' : List (Nat × Nat × UriAction)}, l.Sublist l' → (shift n l).Sublist (shift n l') :=
    fun h => h.map _
  have hauthority := (hshift (n := k.authority.length) hpath).append_left (authorityScript k.userinfo k.host k.port)
  exact (((hshift (hshift (hshift (hshift hauthority)))).append_left _).append_right _).append_right _

/-- Only marks are repeated, where the mark is already. -/
theorem steady_once : Steady (unnumbered (once k)) := by
  refine steady_of_sorted (k.script_main.sorted.sublist (once_sublist k)) fun a ha c hc hplace hact hlt => ?_
  have ha := inText_once k ha
  have hc := inText_once k hc
  rw [ha.action, hc.action] at hact
  rcases actionOf_eq hlt hc.number hact with ⟨-, hm, hn⟩ | ⟨hmark, hm, hn⟩
  · -- no two parts that are marked by `marku` begin at one place
    exfalso
    rcases hm with h0 | h10
    · have := ha.scheme h0
      rcases hn with h10 | h12
      · have := hc.query h10
        omega
      · have := hc.fragment h12
        omega
    · have h10 := ha.query h10
      have h12 := hc.fragment (hn.resolve_left (by omega))
      have := h12.2 h10.2
      omega
  · refine ⟨.inr (ha.action.trans hmark), fun b hb hplace' hab hbc => ?_⟩
    have hb := inText_once k hb
    have h3 : b.2.1 ≠ 3 := by
      intro h3
      obtain ⟨v, hv, hat⟩ := hb.atSign h3
      exact hc.apart (by omega) (by omega) v hv (by omega)
    have h7 : b.2.1 ≠ 7 := by
      intro h7
      obtain ⟨hsome, hat⟩ := hb.last h7
      obtain ⟨w, hw⟩ := Option.isSome_iff_exists.1 hsome
      have hne : w ≠ [] := fun hnil => hc.path (by omega) (hnil ▸ hw)
      have := ha.before (by omega) (by omega) w hw hne
      omega
    have hnum : b.2.1 = 4 ∨ b.2.1 = 5 ∨ b.2.1 = 6 := by omega
    rw [ha.action, hb.action, hmark]
    rcases hnum with h | h | h <;> rw [h] <;> simp [actionOf]

/-- What the machine does along the text, every action of a transition once. -/
theorem enact_script {s : Scan} :
    enact text (unnumbered k.script).eraseDups s = enact text (unnumbered (once k)) s := by
  rw [eraseDups_script, enact_eraseDups (steady_once k)]

end Components

end ServerFrame.Uri
