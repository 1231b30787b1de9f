/-
`Uri::dump` (`uri.rl`) and the getters that fill in what a URI leaves out, and what `Create` makes of a URI that was
printed.
-/
import ServerFrame.Uri.Extract
import ServerFrame.Lib.Numerals

namespace ServerFrame.Uri

open Ragel Ragel.Expr CLib UriGrammar

/-! ## The getters -/

/-- The port that a scheme stands for: 80 for `http` and `ws`, 443 for `https` and `wss`. -/
def schemePort (scheme : List UInt8) : Option Int :=
  if scheme = [104, 116, 116, 112] ∨ scheme = [119, 115] then some 80
  else if scheme = [104, 116, 116, 112, 115] ∨ scheme = [119, 115, 115] then some 443
  else none

section Getters

variable (u : Uri)

def isDefaultPort : Bool :=
  if u.port = 0 then true
  else
    match schemePort u.scheme with
    | some port => u.port = port
    | none => false

def getPath : List UInt8 := if u.path = [] then [47] else u.path

def getPort : Int :=
  if u.port ≠ 0 then u.port
  else
    match schemePort u.scheme with
    | some port => port
    | none => u.port

end Getters

/-- `std::to_string(value)`. -/
def toString (value : Int) : List UInt8 :=
  if value < 0 then 45 :: numeral 10 value.natAbs else numeral 10 value.toNat

/-- `Uri::dump(os)`. -/
def dump (u : Uri) : List UInt8 :=
  u.scheme ++ [58, 47, 47] ++ u.userinfo ++ (if u.userinfo = [] then [] else [64]) ++ u.host ++
    (if u.isDefaultPort then [] else 58 :: toString u.port) ++ u.getPath ++ (if u.query = [] then [] else [63]) ++
    u.query ++ (if u.fragment = [] then [] else [35]) ++ u.fragment

/-! ## The text as one of the grammar -/

/-- The URIs whose parts are of the grammar. -/
structure Printable (u : Uri) : Prop where
  scheme : OfRule schemeText u.scheme
  userinfo : OfRule UriGrammar.userinfo u.userinfo
  host : OfRule UriGrammar.host u.host
  port : 0 ≤ u.port ∧ u.port < 10 ^ 5
  path : OfRule UriGrammar.path u.path ∧ (u.path = [] ∨ u.path.head? = some 47)
  query : OfRule tail u.query
  fragment : OfRule tail u.fragment

/-- A part that is not there when it is empty. -/
def part (w : List UInt8) : Option (List UInt8) := if w = [] then none else some w

theorem getD_part (w : List UInt8) : (part w).getD [] = w := by
  unfold part
  split
  · rename_i h
    exact h.symm
  · rfl

theorem mem_part {w v : List UInt8} (h : v ∈ part w) : v = w := by
  unfold part at h
  split at h
  · cases h
  · exact (Option.some.inj h).symm

variable {u : Uri}

/-! ## The port -/

theorem portE_eq : portE = .star (.char ByteSet.digit) := rfl

theorem has_digit {c : UInt8} (h : digitValue c < 10) : ByteSet.digit.has c = true := by
  revert c
  apply forall_byte
  decide +kernel

theorem accepts_digits : ∀ {w : List UInt8}, (∀ c ∈ w, digitValue c < 10) → portE.accepts w = true
  | [], _ => rfl
  | c :: w, h => by
    have hc : (Expr.char ByteSet.digit : Expr UriAction).accepts [c] = true :=
      accepts_char.2 ⟨c, rfl, has_digit (h c List.mem_cons_self)⟩
    have hw : portE.accepts w = true := accepts_digits fun d hd => h d (List.mem_cons_of_mem _ hd)
    rw [portE_eq] at hw ⊢
    exact accepts_star_append hc (List.cons_ne_nil c []) hw

theorem toString_of_nonneg {value : Int} (h : 0 ≤ value) : toString value = numeral 10 value.toNat :=
  if_neg (not_lt.2 h)

theorem ofPort_toString {value : Int} (h : 0 ≤ value ∧ value < 10 ^ 5) :
    OfRule UriGrammar.port (toString value) ∧ (toString value).length ≤ 5 := by
  rw [toString_of_nonneg h.1]
  exact ⟨accepts_digits fun c hc => digitValue_of_mem_numeral (by decide) (by decide) hc,
    length_numeral_le (by decide) (by decide) (by omega)⟩

/-! ## The components -/

/-- The components that are printed. -/
def Printable.components (h : u.Printable) : Components where
  scheme := u.scheme
  userinfo := part u.userinfo
  host := u.host
  port := if u.isDefaultPort then none else some (toString u.port)
  path := u.getPath
  query := part u.query
  fragment := part u.fragment
  ofScheme := h.scheme
  ofUserinfo w hw := mem_part hw ▸ h.userinfo
  ofHost := h.host
  ofPort w hw := by
    split at hw
    · cases hw
    · exact Option.some.inj hw ▸ ofPort_toString h.port
  ofPath := by
    unfold getPath
    split
    · decide
    · rename_i hne
      exact ⟨h.path.1, .inr (h.path.2.resolve_left hne)⟩
  ofQuery w hw := mem_part hw ▸ h.query
  ofFragment w hw := mem_part hw ▸ h.fragment

theorem optText_part (c : UInt8) (w : List UInt8) : optText c (part w) = (if w = [] then [] else [c]) ++ w := by
  unfold part
  split
  · rename_i h
    rw [h]
    rfl
  · rfl

theorem Printable.text_components (h : u.Printable) : h.components.text = u.dump := by
  have hport : optText 58 h.components.port = if u.isDefaultPort then [] else 58 :: toString u.port := by
    unfold components
    split <;> rfl
  have huserinfo : userinfoText h.components.userinfo = u.userinfo ++ if u.userinfo = [] then [] else [64] := by
    show userinfoText (part u.userinfo) = _
    unfold part
    split
    · rename_i hnil
      rw [hnil]
      rfl
    · rfl
  rw [Components.text, Components.hier, Components.authority, authorityText, hport, huserinfo]
  show (u.scheme ++ 58 :: 47 :: 47 :: (_ ++ (u.host ++ _) ++ u.getPath)) ++ optText 63 (part u.query) ++
    optText 35 (part u.fragment) = u.dump
  rw [optText_part, optText_part, dump]
  simp only [List.append_assoc, List.cons_append, List.nil_append]

/-! ## What is read back -/

/-- What of the URI is read back, with this userinfo: a port that goes without saying is left out, and a path is
filled in. -/
def reread (u : Uri) (userinfo : List UInt8) : Uri :=
  { u with
    userinfo
    port := if u.isDefaultPort then 0 else u.port
    path := u.getPath }

theorem kept_part (w : List UInt8) : kept (part w) = w.drop (lost w) := by
  unfold kept part
  split
  · rename_i hnil
    rw [hnil]
    rfl
  · rfl

/-- No empty port is printed, so the path is read back. -/
theorem keptPath_components (h : u.Printable) : keptPath h.components = u.getPath := by
  refine if_neg fun hport => ?_
  unfold Printable.components at hport
  dsimp only at hport
  split at hport
  · cases hport
  · rw [toString_of_nonneg h.port.1] at hport
    exact numeral_ne_nil (Option.some.inj hport)

/-- What `Create` makes of a URI that was printed. -/
theorem create_dump (h : u.Printable) :
    create u.dump = .ok (some (u.reread (u.userinfo.drop (lost u.userinfo)))) := by
  have hport : (value 10 (h.components.port.getD []) : Int) = if u.isDefaultPort then 0 else u.port := by
    have hnonneg := h.port.1
    unfold Printable.components
    dsimp only
    split
    · rfl
    · rw [Option.getD_some, toString_of_nonneg hnonneg, value_numeral (by decide) (by decide)]
      omega
  have hcreate := create_text h.components
  rw [h.text_components] at hcreate
  rw [hcreate, stored, hport, keptPath_components h]
  show Except.ok (some _) = _
  rw [show h.components.userinfo = part u.userinfo from rfl, kept_part, show h.components.query = part u.query from rfl,
    show h.components.fragment = part u.fragment from rfl, getD_part, getD_part]
  rfl

section Reread

variable (u) (v : List UInt8)

theorem getPath_reread : (u.reread v).getPath = u.getPath := by
  have hne : u.getPath ≠ [] := by
    unfold getPath
    split
    · exact List.cons_ne_nil _ _
    · assumption
  exact if_neg hne

theorem isDefaultPort_iff {u : Uri} : u.isDefaultPort = true ↔ u.port = 0 ∨ schemePort u.scheme = some u.port := by
  unfold isDefaultPort
  split
  · exact iff_of_true rfl (.inl ‹_›)
  · split
    · rename_i hne _ port hport
      rw [decide_eq_true_eq, hport, Option.some_inj]
      exact ⟨fun h => .inr h.symm, fun h => (h.resolve_left hne).symm⟩
    · rename_i hne _ hport
      rw [hport]
      exact iff_of_false Bool.false_ne_true fun h => h.elim hne fun h => by cases h

theorem isDefaultPort_reread : (u.reread v).isDefaultPort = u.isDefaultPort := by
  by_cases h : u.isDefaultPort = true
  · rw [h, isDefaultPort_iff]
    exact .inl (if_pos h)
  · have hport : (u.reread v).port = u.port := if_neg h
    unfold isDefaultPort
    rw [hport]
    rfl

theorem getPort_reread : (u.reread v).getPort = u.getPort := by
  by_cases h : u.isDefaultPort = true
  · have hport : (u.reread v).port = 0 := if_pos h
    have hscheme : (u.reread v).scheme = u.scheme := rfl
    unfold getPort
    rw [hport, hscheme, if_neg (fun h => h rfl)]
    rcases isDefaultPort_iff.1 h with h0 | hsome
    · rw [h0, if_neg (fun h => h rfl)]
    · rw [hsome]
      dsimp only
      split
      · rfl
      · rfl
  · have hport : (u.reread v).port = u.port := if_neg h
    unfold getPort
    rw [hport]
    rfl

/-- The userinfo stands between what does not depend on it. -/
theorem dump_userinfo (u : Uri) : ∃ pre post, ∀ v,
    ({ u with userinfo := v } : Uri).dump = pre ++ (v ++ (if v = [] then [] else [64]) ++ post) := by
  refine ⟨u.scheme ++ [58, 47, 47], u.host ++ (if u.isDefaultPort then [] else 58 :: toString u.port) ++ u.getPath ++
    (if u.query = [] then [] else [63]) ++ u.query ++ (if u.fragment = [] then [] else [35]) ++ u.fragment,
    fun v => ?_⟩
  simp only [dump, List.append_assoc]
  rfl

theorem dump_reread : (u.reread v).dump = ({ u with userinfo := v } : Uri).dump := by
  have hport : (if (u.reread v).isDefaultPort then [] else 58 :: toString (u.reread v).port) =
      if u.isDefaultPort then [] else 58 :: toString u.port := by
    rw [isDefaultPort_reread]
    unfold reread
    dsimp only
    split <;> rfl
  unfold dump
  rw [hport, getPath_reread]
  rfl

end Reread

/-- With less of its userinfo a URI is printed the same only if nothing of it is missing. -/
theorem dump_drop_iff (u : Uri) (n : Nat) :
    ({ u with userinfo := u.userinfo.drop n } : Uri).dump = u.dump ↔ u.userinfo.drop n = u.userinfo := by
  obtain ⟨pre, post, h⟩ := dump_userinfo u
  have hu : u.dump = pre ++ (u.userinfo ++ (if u.userinfo = [] then [] else [64]) ++ post) := h u.userinfo
  constructor
  · intro heq
    rw [h, hu, List.append_cancel_left_eq] at heq
    have hlen := congrArg List.length (List.append_cancel_right heq)
    rw [List.length_append, List.length_append] at hlen
    have hsuffix : u.userinfo.drop n <:+ u.userinfo := List.drop_suffix ..
    refine hsuffix.eq_of_length ?_
    have hle := hsuffix.length_le
    by_cases hnil : u.userinfo = []
    · rw [hnil, List.drop_nil]
    · rw [if_neg hnil] at hlen
      split at hlen
      · rename_i hdrop
        rw [hdrop] at hlen ⊢
        simp only [List.length_nil, List.length_singleton] at hlen
        omega
      · simpa using hlen
  · intro heq
    rw [heq]

/-- A URI that is printed and read again has the getters' values that it had, the userinfo but for what is lost of it;
and it is printed again the same exactly if no digit follows the first colon of the userinfo. -/
theorem create_dump_same (h : u.Printable) : ∃ u', create u.dump = .ok (some u') ∧
    u'.scheme = u.scheme ∧ u'.host = u.host ∧ u'.getPort = u.getPort ∧ u'.isDefaultPort = u.isDefaultPort ∧
    u'.getPath = u.getPath ∧ u'.query = u.query ∧ u'.fragment = u.fragment ∧
    u'.userinfo = u.userinfo.drop (lost u.userinfo) ∧
    (u'.dump = u.dump ↔ ∀ r d s, u.userinfo = r ++ 58 :: d :: s → 58 ∉ r → ¬ (48 ≤ d ∧ d ≤ 57)) := by
  refine ⟨_, create_dump h, rfl, rfl, getPort_reread u _, isDefaultPort_reread u _, getPath_reread u _, rfl, rfl, rfl,
    ?_⟩
  have hkept := kept_eq_iff h.components
  rw [show h.components.userinfo = part u.userinfo from rfl, getD_part] at hkept
  rw [dump_reread, dump_drop_iff, ← kept_part, hkept]
  have hpart : ∀ r d s, part u.userinfo = some (r ++ 58 :: d :: s) ↔ u.userinfo = r ++ 58 :: d :: s := by
    intro r d s
    unfold part
    split
    · rename_i hnil
      rw [hnil]
      exact iff_of_false (fun h => by cases h) fun h => by simp at h
    · exact Option.some_inj
  exact forall_congr' fun r => forall_congr' fun d => forall_congr' fun s => imp_congr_left (hpart r d s)

/-- `http://user:pw@host:80?q#f`. -/
def printed : Uri where
  scheme := [104, 116, 116, 112]
  userinfo := [117, 115, 101, 114, 58, 112, 119]
  host := [104, 111, 115, 116]
  port := 80
  query := [113]
  fragment := [102]

theorem create_dump_same_printed : ∃ u', create printed.dump = .ok (some u') ∧
    u'.scheme = printed.scheme ∧ u'.host = printed.host ∧ u'.getPort = printed.getPort ∧
    u'.isDefaultPort = printed.isDefaultPort ∧ u'.getPath = printed.getPath ∧ u'.query = printed.query ∧
    u'.fragment = printed.fragment ∧ u'.userinfo = printed.userinfo.drop (lost printed.userinfo) ∧
    (u'.dump = printed.dump ↔
      ∀ r d s, printed.userinfo = r ++ 58 :: d :: s → 58 ∉ r → ¬ (48 ≤ d ∧ d ≤ 57)) :=
  create_dump_same ⟨by decide, by decide, by decide, by decide, by decide, by decide, by decide⟩

end ServerFrame.Uri
