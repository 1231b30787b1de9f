/-
The parser on a request line: each part of it is in the request once the machine has left it.
-/
import ServerFrame.Http.Uri

namespace ServerFrame.Http

open Ragel Grammar

/-- The parser with `mark` at `p`. -/
def HttpRequestParser.marked (h : HttpRequestParser) (p : Nat) : HttpRequestParser :=
  { h with parser := { h.parser with mark := p } }

section Line

variable {relaxed : Bool} {buffer : Nat → UInt8} {d : Label Action} {rest : List (Expr Action)} {cs : State Action}
  {p : Nat} {h : HttpRequestParser}

/-- The rest of a word, in a context. -/
theorem feeds_word {e : Expr Action} {F : Expr Action → Expr Action} {w u : List UInt8}
    (hcs : State.Among d (spaceE :: rest) (Expr.around F e u) cs) (hrest : rest.all Expr.final = false)
    (he : e.plain = true) (hw : e.accepts (u ++ w) = true) (hc : ∀ c ∈ w, c ≠ 32)
    (hF : ∀ c ∈ w, ∀ y, (F y).next c = (y.next c).map fun m => (m.1, F m.2)) (hp : Spells buffer p w) :
    ∃ cs', Feeds buffer p w.length cs h cs' h ∧ State.Among d (spaceE :: rest) (Expr.around F e (u ++ w)) cs' := by
  induction w generalizing u p cs with
  | nil => exact ⟨cs, .none, by rwa [List.append_nil]⟩
  | cons c w ih =>
    obtain ⟨hstep, hacts⟩ := hcs.inside rfl hrest (spaceE_next (hc c (List.mem_cons_self ..))) he
      (hF c (List.mem_cons_self ..))
    rw [List.append_cons] at hw ⊢
    obtain ⟨cs', hfeeds, hcs'⟩ := ih hstep hw (fun d hd => hc d (List.mem_cons_of_mem _ hd))
      (fun d hd => hF d (List.mem_cons_of_mem _ hd)) hp.2
    refine ⟨cs', ?_, hcs'⟩
    have hfirst : Feeds buffer p 1 cs h (cs.step c) h :=
      .silent hp.1 rfl (hstep.ne_nil (Expr.around_nonempty hw)) hacts
    rw [List.length_cons, Nat.add_comm]
    exact hfirst.trans hfeeds

/-- A word that is not empty, at whose first byte `x` is performed. -/
theorem feeds_entering {e g : Expr Action} {F : Expr Action → Expr Action} {x : Nat × Action} {w : List UInt8}
    {k : HttpRequestParser} (hcs : State.Among d (spaceE :: rest) {g} cs) (hrest : rest.all Expr.final = false)
    (he : e.plain = true) (hw : e.accepts w = true) (hne : w ≠ []) (hc : ∀ c ∈ w, c ≠ 32)
    (hg : ∀ c ∈ w, g.next c = (e.next c).map fun m => (⟨[x], []⟩ ++ m.1, F m.2))
    (hF : ∀ c ∈ w, ∀ y, (F y).next c = (y.next c).map fun m => (m.1, F m.2)) (hp : Spells buffer p w)
    (hx : x.2 ≠ .done) (hact : h.act buffer p x.2 = .ok k) :
    ∃ cs', Feeds buffer p w.length cs h cs' k ∧ State.Among d (spaceE :: rest) (Expr.around F e w) cs' := by
  match w, hne with
  | c :: w, _ =>
    obtain ⟨m, hm, -⟩ := Expr.accepts_cons.1 hw
    obtain ⟨hstep, hacts⟩ := hcs.enter rfl hrest (spaceE_next (hc c (List.mem_cons_self ..))) he
      (List.ne_nil_of_mem hm) (hg c (List.mem_cons_self ..))
    obtain ⟨cs', hfeeds, hcs'⟩ := feeds_word (h := k) hstep hrest he hw
      (fun d hd => hc d (List.mem_cons_of_mem _ hd)) (fun d hd => hF d (List.mem_cons_of_mem _ hd)) hp.2
    refine ⟨cs', ?_, hcs'⟩
    have hfirst : Feeds buffer p 1 cs h (cs.step c) k := by
      refine .byte hp.1 rfl (hstep.ne_nil (Expr.around_nonempty (v := w) hw)) hacts (by simpa using Ne.symm hx) ?_
      simp [perform, hact]
    rw [List.length_cons, Nat.add_comm]
    exact hfirst.trans hfeeds

/-! ## The tokens -/

section Tokens

variable {w : List UInt8} {fpc : Nat} (hw : w.length < 2 ^ 63)
include hw

theorem len_string {start : Nat} (hp : Spells buffer start w) (hfpc : fpc = start + w.length) :
    mkString buffer start (len start fpc) = .ok w :=
  hp.mkString_eq (by rw [hfpc, len_of_le (Nat.le_add_right ..)]; omega) hw

theorem act_fragment {start : Nat} (hp : Spells buffer start w) (hs : h.parser.mark = start)
    (hfpc : fpc = start + w.length) :
    h.act buffer fpc .fragment = .ok { h with data := { h.data with fragment := w } } := by
  rw [HttpRequestParser.act, HttpRequestParser.onRequestFragment, hs, len_string hw hp hfpc]
  rfl

theorem act_requestPath {start : Nat} (hp : Spells buffer start w) (hs : h.parser.mark = start)
    (hfpc : fpc = start + w.length) :
    h.act buffer fpc .requestPath = .ok { h with data := { h.data with path := w } } := by
  rw [HttpRequestParser.act, HttpRequestParser.onRequestPath, hs, len_string hw hp hfpc]
  rfl

theorem act_queryString {start : Nat} (hp : Spells buffer start w) (hs : h.parser.queryStart = start)
    (hfpc : fpc = start + w.length) :
    h.act buffer fpc .queryString = .ok { h with data := { h.data with query := w } } := by
  rw [HttpRequestParser.act, HttpRequestParser.onRequestQuery, hs, len_string hw hp hfpc]
  rfl

end Tokens

/-! ## The fragment -/

theorem word_ne {w : List UInt8} (hw : (wordE relaxed).accepts w = true) : ∀ c ∈ w, c ≠ 35 ∧ c ≠ 32 := by
  intro c hc
  have hreads := Expr.reads_of_accepts hw c hc
  constructor
  · rintro rfl
    rw [(wordE_reads relaxed).1] at hreads
    cases hreads
  · rintro rfl
    rw [(wordE_reads relaxed).2] at hreads
    cases hreads

/-- A fragment and the blank after it. -/
theorem feeds_fragment {f : List UInt8} (hcs : State.Among d (spaceE :: rest) {beforeFragment relaxed} cs)
    (hrest : rest.all Expr.final = false) (hf : (wordE relaxed).accepts f = true) (hne : f ≠ [])
    (hp : Spells buffer p (f ++ [32])) (hlen : f.length < 2 ^ 63) :
    ∃ h', Feeds buffer p (f.length + 1) cs h [.within d rest .eps] h' ∧ h'.data = { h.data with fragment := f } ∧
      h'.error = h.error := by
  obtain ⟨hpf, hps, -⟩ := spells_append.1 hp
  obtain ⟨cs1, hfeeds, hcs1⟩ := feeds_entering (x := (14, .mark)) (h := h) hcs hrest (wordE_plain relaxed) hf hne
    (fun c hc => (word_ne hf c hc).2) (fun c _ => beforeFragment_next) (fun c _ y => atFragment_next) hpf
      (by decide) rfl
  obtain ⟨hcs', hacts⟩ := word_space hcs1 hrest hf (fun y => atFragment_next) (fun y => rfl)
    (fun y hy => atFragment_outs hy) rfl (List.pairwise_singleton _ _) (List.nodup_singleton _)
  have hact : perform buffer (h.marked p) [(p + f.length, .fragment)] =
      .ok { h.marked p with data := { h.data with fragment := f } } := by
    rw [perform, act_fragment (h := h.marked p) hlen hpf rfl rfl]
    rfl
  have hlast : Feeds buffer (p + f.length) 1 cs1 (h.marked p) [.within d rest .eps]
      { h.marked p with data := { h.data with fragment := f } } :=
    .byte hps hcs'.eq_singleton (by simp) hacts (by decide) hact
  exact ⟨_, Feeds.trans hfeeds hlast, rfl, rfl⟩

/-! ## The query -/

/-- A fragment as it is printed, and the blank after it. -/
def fragmentText (f : List UInt8) : List UInt8 := (if f = [] then [] else 35 :: f) ++ [32]

/-- A query and what follows it. -/
theorem feeds_query {q f : List UInt8} (hcs : State.Among d (spaceE :: rest) {beforeQuery relaxed} cs)
    (hrest : rest.all Expr.final = false) (hq : (wordE relaxed).accepts q = true) (hne : q ≠ [])
    (hf : (wordE relaxed).accepts f = true) (hp : Spells buffer p (q ++ fragmentText f)) (hqlen : q.length < 2 ^ 63)
    (hflen : f.length < 2 ^ 63) :
    ∃ h', Feeds buffer p (q.length + (fragmentText f).length) cs h [.within d rest .eps] h' ∧
      h'.data = { h.data with query := q, fragment := if f = [] then h.data.fragment else f } ∧ h'.error = h.error := by
  obtain ⟨hpq, hpf⟩ := spells_append.1 hp
  let hq' : HttpRequestParser := { h with parser := { h.parser with queryStart := p } }
  obtain ⟨cs1, hfeeds, hcs1⟩ := feeds_entering (x := (11, .startQuery)) (h := h) (k := hq') hcs hrest
    (wordE_plain relaxed) hq hne (fun c hc => (word_ne hq c hc).2) (fun c hc => beforeQuery_next (word_ne hq c hc).1)
    (fun c hc y => atQuery_next (word_ne hq c hc).1) hpq (by decide) rfl
  have hact : perform buffer hq' [(p + q.length, .queryString), (p + q.length, .requestUri)] =
      .ok { hq' with data := { h.data with query := q } } := by
    rw [perform, act_queryString (h := hq') hqlen hpq rfl rfl]
    rfl
  by_cases hfe : f = []
  · subst hfe
    obtain ⟨hcs', hacts⟩ := word_space hcs1 hrest hq (fun y => atQuery_next (by decide)) (fun y => atQuery_final)
      (fun y hy => atQuery_outs hy) rfl (by decide) (by decide)
    have hlast : Feeds buffer (p + q.length) 1 cs1 hq' [.within d rest .eps]
        { hq' with data := { h.data with query := q } } :=
      .byte hpf.1 hcs'.eq_singleton (by simp) hacts (by decide) hact
    exact ⟨_, hfeeds.trans hlast, rfl, rfl⟩
  · obtain ⟨hcs', hacts⟩ := query_fragment hcs1 hrest hq
    rw [fragmentText, if_neg hfe, List.cons_append] at hpf
    have hlast : Feeds buffer (p + q.length) 1 cs1 hq' (cs1.step 35) { hq' with data := { h.data with query := q } } :=
      .byte hpf.1 rfl (hcs'.ne_nil ⟨_, rfl⟩) hacts (by decide) hact
    obtain ⟨h'', hrun, hdata, herr⟩ := feeds_fragment (h := { hq' with data := { h.data with query := q } }) hcs' hrest
      hf hfe hpf.2 hflen
    refine ⟨h'', ?_, by rw [hdata, if_neg hfe], herr⟩
    have hlen : (fragmentText f).length = 1 + (f.length + 1) := by
      rw [fragmentText, if_neg hfe]
      simp
      omega
    rw [hlen]
    exact hfeeds.trans (hlast.trans hrun)

/-! ## The path -/

theorem relative_ne {w : List UInt8} (hw : (relativeE relaxed).accepts w = true) :
    ∀ c ∈ w, c ≠ 63 ∧ c ≠ 35 ∧ c ≠ 32 := by
  intro c hc
  have hreads := Expr.reads_of_accepts hw c hc
  obtain ⟨h1, h2, h3⟩ := relativeE_reads relaxed
  refine ⟨?_, ?_, ?_⟩ <;> rintro rfl <;> simp_all

/-- The rest of a path. -/
theorem feeds_inPath {w u : List UInt8} (hcs : State.Among d (spaceE :: rest) (inPath relaxed u) cs)
    (hrest : rest.all Expr.final = false) (hu : u ≠ []) (hw : (relativeE relaxed).accepts (u ++ w) = true)
    (hp : Spells buffer p w) :
    ∃ cs', Feeds buffer p w.length cs h cs' h ∧ State.Among d (spaceE :: rest) (inPath relaxed (u ++ w)) cs' := by
  induction w generalizing u p cs with
  | nil => exact ⟨cs, .none, by rwa [List.append_nil]⟩
  | cons c w ih =>
    obtain ⟨hq, hf, hs⟩ := relative_ne hw c (by simp)
    -- a path that has begun like a scheme does not come to the colon
    have hcolon : Schematic u → c ≠ 58 := by
      rintro hsu rfl
      obtain ⟨y, hy, hacc⟩ := Expr.accepts_append.1 hw
      obtain ⟨m, hm, -⟩ := Expr.accepts_cons.1 hacc
      rw [reach_colon relaxed hsu y hy] at hm
      cases hm
    obtain ⟨hstep, hacts⟩ := path_next hcs hrest hu hq hf hs hcolon
    rw [List.append_cons] at hw ⊢
    obtain ⟨cs', hfeeds, hcs'⟩ := ih hstep (by simp) hw hp.2
    refine ⟨cs', ?_, hcs'⟩
    obtain ⟨y, hy, -⟩ := Expr.accepts_append.1 hw
    have hfirst : Feeds buffer p 1 cs h (cs.step c) h :=
      .silent hp.1 rfl (hstep.ne_nil ⟨_, .inl ⟨y, hy, rfl⟩⟩) hacts
    rw [List.length_cons, Nat.add_comm]
    exact hfirst.trans hfeeds

/-- A path. -/
theorem feeds_path {w : List UInt8} (hcs : State.Among d (spaceE :: rest) {uriE relaxed} cs)
    (hrest : rest.all Expr.final = false) (hw : (relativeE relaxed).accepts w = true) (hp : Spells buffer p w) :
    ∃ cs', Feeds buffer p w.length cs h cs' (if w = [] then h else h.marked p) ∧
      State.Among d (spaceE :: rest) (pathStates relaxed w) cs' := by
  cases w with
  | nil => exact ⟨cs, .none, hcs⟩
  | cons c w =>
    obtain ⟨hq, hf, hs⟩ := relative_ne hw c (by simp)
    obtain ⟨m, hm, -⟩ := Expr.accepts_cons.1 hw
    obtain ⟨hstep, hacts⟩ := path_first hcs hrest hq hf hs (List.ne_nil_of_mem hm)
    obtain ⟨cs', hfeeds, hcs'⟩ := feeds_inPath (w := w) (h := h.marked p) hstep hrest (by simp) hw hp.2
    refine ⟨cs', ?_, hcs'⟩
    obtain ⟨y, hy, -⟩ := Expr.accepts_append (u := [c]).1 hw
    have hfirst : Feeds buffer p 1 cs h (cs.step c) (h.marked p) :=
      .byte hp.1 rfl (hstep.ne_nil ⟨_, .inl ⟨y, hy, rfl⟩⟩) hacts (by decide) rfl
    rw [List.length_cons, Nat.add_comm]
    exact hfirst.trans hfeeds

/-- The path is in the request whether or not it was entered before its end. -/
theorem perform_path {w : List UInt8} {l : List (Nat × Action)} (hp : Spells buffer p w) (hlen : w.length < 2 ^ 63) :
    perform buffer (if w = [] then h else h.marked p)
        (((pending w ++ (10, .requestPath) :: l).map Prod.snd).map (Prod.mk (p + w.length))) =
      perform buffer { h.marked p with data := { h.data with path := w } }
        ((l.map Prod.snd).map (Prod.mk (p + w.length))) := by
  have hact := act_requestPath (h := h.marked p) hlen hp rfl rfl
  unfold pending
  by_cases hw : w = []
  · subst hw
    have hmark : h.act buffer (p + 0) .mark = .ok (h.marked p) := rfl
    rw [if_pos rfl, if_pos rfl, List.singleton_append, List.map_cons, List.map_cons, List.map_cons, List.map_cons,
      List.length_nil, perform, hmark]
    rw [List.length_nil] at hact
    simp only
    rw [perform, hact]
    rfl
  · rw [if_neg hw, if_neg hw, List.nil_append, List.map_cons, List.map_cons, perform, hact]
    rfl

/-! ## The URI -/

/-- A query, as it is printed, and what follows it. -/
def queryText (q f : List UInt8) : List UInt8 := (if q = [] then [] else 63 :: q) ++ fragmentText f

/-- A URI and the blank after it. -/
theorem feeds_uri {w q f : List UInt8} (hcs : State.Among d (spaceE :: rest) {uriE relaxed} cs)
    (hrest : rest.all Expr.final = false) (hw : (relativeE relaxed).accepts w = true)
    (hq : (wordE relaxed).accepts q = true) (hf : (wordE relaxed).accepts f = true)
    (hp : Spells buffer p (w ++ queryText q f)) (hwlen : w.length < 2 ^ 63) (hqlen : q.length < 2 ^ 63)
    (hflen : f.length < 2 ^ 63) :
    ∃ h', Feeds buffer p (w.length + (queryText q f).length) cs h [.within d rest .eps] h' ∧
      h'.data = { h.data with
        path := w
        query := if q = [] then h.data.query else q
        fragment := if f = [] then h.data.fragment else f } ∧
      h'.error = h.error := by
  obtain ⟨hpw, hpt⟩ := spells_append.1 hp
  obtain ⟨cs1, hpath, hcs1⟩ := feeds_path (h := h) hcs hrest hw hpw
  let h1 : HttpRequestParser := { h.marked p with data := { h.data with path := w } }
  have huri : perform buffer (if w = [] then h else h.marked p)
      (((pending w ++ [(10, Action.requestPath), (13, .requestUri)]).map Prod.snd).map
        (Prod.mk (p + w.length))) = .ok h1 := by
    rw [perform_path hpw hwlen]
    rfl
  have hdone : ∀ l : List (Nat × Action), (∀ x ∈ l, x.2 ≠ .done) → .done ∉ (pending w ++ l).map Prod.snd := by
    intro l hl hmem
    obtain ⟨x, hx, hxd⟩ := List.mem_map.1 hmem
    rcases List.mem_append.1 hx with hx | hx
    · unfold pending at hx
      split at hx
      · rw [List.mem_singleton] at hx
        subst hx
        cases hxd
      · cases hx
    · exact hl x hx hxd
  by_cases hqe : q = []
  · subst hqe
    rw [queryText, if_pos rfl, List.nil_append] at hpt ⊢
    by_cases hfe : f = []
    · subst hfe
      obtain ⟨hcs', hacts⟩ := path_space hcs1 hrest hw
      have hlast : Feeds buffer (p + w.length) 1 cs1 (if w = [] then h else h.marked p) [.within d rest .eps] h1 :=
        .byte hpt.1 hcs'.eq_singleton (by simp) hacts (hdone _ (by decide)) huri
      exact ⟨h1, hpath.trans hlast, rfl, rfl⟩
    · rw [fragmentText, if_neg hfe, List.cons_append] at hpt ⊢
      obtain ⟨hcs', hacts⟩ := path_fragment hcs1 hrest hw
      have hlast : Feeds buffer (p + w.length) 1 cs1 (if w = [] then h else h.marked p) (cs1.step 35) h1 :=
        .byte hpt.1 rfl (hcs'.ne_nil ⟨_, rfl⟩) hacts (hdone _ (by decide)) huri
      obtain ⟨h'', hrun, hdata, herr⟩ := feeds_fragment (h := h1) hcs' hrest hf hfe hpt.2 hflen
      have hlen : (35 :: (f ++ [32])).length = 1 + (f.length + 1) := by
        simp
        omega
      rw [hlen, if_neg hfe]
      exact ⟨h'', hpath.trans (hlast.trans hrun), hdata, herr⟩
  · rw [queryText, if_neg hqe, List.cons_append] at hpt ⊢
    obtain ⟨hcs', hacts⟩ := path_query hcs1 hrest hw
    have hpart : perform buffer (if w = [] then h else h.marked p)
        (((pending w ++ [(10, Action.requestPath)]).map Prod.snd).map (Prod.mk (p + w.length))) = .ok h1 := by
      rw [perform_path hpw hwlen]
      rfl
    have hlast : Feeds buffer (p + w.length) 1 cs1 (if w = [] then h else h.marked p) (cs1.step 63) h1 :=
      .byte hpt.1 rfl (hcs'.ne_nil ⟨_, rfl⟩) hacts (hdone _ (by decide)) hpart
    obtain ⟨h'', hrun, hdata, herr⟩ := feeds_query (h := h1) hcs' hrest hq hqe hf hpt.2 hqlen hflen
    have hlen : (63 :: (q ++ fragmentText f)).length = 1 + (q.length + (fragmentText f).length) := by
      simp
      omega
    rw [hlen, if_neg hqe]
    exact ⟨h'', hpath.trans (hlast.trans hrun), hdata, herr⟩

end Line

/-! ## The method -/

section Method

variable {relaxed : Bool} {buffer : Nat → UInt8} {p : Nat} {h : HttpRequestParser} {c : UInt8}

/-- The embedding at the end of the machine. -/
def closing : Label Action := embedding 32 .done

def methodChar : ByteSet := .upper ||| .digit

/-- In the method, with at most `n` more characters to come. -/
def atMethod (n : Nat) : Expr Action := .leaving (embedding 1 .requestMethod) (upTo (.char methodChar) n)

theorem methodE_eq : methodE = .leaving (embedding 1 .requestMethod) (.entering (embedding 0 .mark)
    (.seq (.char methodChar) (upTo (.char methodChar) 19))) := rfl

set_option maxRecDepth 100000 in
theorem socketE_next : ∀ c, methodChar.has c = true → (socketE relaxed).next c = [] := by
  refine forall_byte ?_
  cases relaxed <;> decide

theorem methodChar_ne (hc : methodChar.has c = true) : c ≠ 32 := by
  rintro rfl
  revert hc
  decide

theorem methodE_next (hc : methodChar.has c = true) : methodE.next c = [(embedding 0 .mark, atMethod 19)] := by
  simp [methodE_eq, Expr.next, hc, Expr.final, Expr.andThen, atMethod]
  rfl

theorem atMethod_next (hc : methodChar.has c = true) (n : Nat) :
    (atMethod (n + 1)).next c = [({}, atMethod n)] := by
  simp [atMethod, upTo, Expr.next, hc, Expr.final, Expr.andThen]

theorem atMethod_next_space (n : Nat) : (atMethod n).next 32 = [] := by
  have hc : methodChar.has 32 = false := by decide
  cases n <;> simp [atMethod, upTo, Expr.next, hc, Expr.final]

theorem atMethod_final (n : Nat) : (atMethod n).final = true := by
  cases n <;> simp [atMethod, upTo, Expr.final]

theorem atMethod_outs (n : Nat) : (atMethod n).outs = embedding 1 .requestMethod := by
  have hplain : (upTo (.char methodChar) n : Expr Action).plain = true := by
    induction n with
    | zero => rfl
    | succ n ih => simpa [upTo, Expr.plain] using ih
  rw [atMethod, Expr.outs, Expr.plain_outs hplain]
  rfl

/-- The first character of the method. -/
theorem method_first (relaxed : Bool) (hc : methodChar.has c = true) :
    State.Among closing (spaceE :: uriE relaxed :: afterUri) {atMethod 19} ((main relaxed).start.step c) ∧
      (main relaxed).start.acts c = [.mark] := by
  have hbegin : State.Among closing (spaceE :: uriE relaxed :: afterUri) {methodE}
      [Expr.within closing (spaceE :: uriE relaxed :: afterUri) methodE] := fun x => by simp
  have hmoves : (main relaxed).start.moves c =
      State.moves c [Expr.within closing (spaceE :: uriE relaxed :: afterUri) methodE] := by
    have hnext : ((main relaxed).start.flatMap (Expr.next c)) =
        [Expr.within closing (spaceE :: uriE relaxed :: afterUri) methodE].flatMap (Expr.next c) := by
      rw [main_start]
      simp [Expr.within, Expr.next, socketE_next c hc, closing]
    simp only [State.moves, hnext]
  have hfirst := hbegin.turn (c := c) (l := embedding 0 .mark) (g := atMethod 19) rfl
    (by simp [afterUri, spaceE, Expr.final]) (spaceE_next (methodChar_ne hc))
    (by rintro _ rfl m hm; simpa [methodE_next hc] using hm) ⟨_, rfl, by simp [methodE_next hc]⟩ rfl
    (List.pairwise_singleton _ _)
  rw [State.step, State.acts, hmoves]
  exact hfirst

/-- The other characters of the method. -/
theorem feeds_atMethod {w : List UInt8} {n : Nat} {cs : State Action}
    (hcs : State.Among closing (spaceE :: uriE relaxed :: afterUri) {atMethod (w.length + n)} cs)
    (hw : ∀ c ∈ w, methodChar.has c = true) (hp : Spells buffer p w) :
    ∃ cs', Feeds buffer p w.length cs h cs' h ∧
      State.Among closing (spaceE :: uriE relaxed :: afterUri) {atMethod n} cs' := by
  induction w generalizing p cs with
  | nil => exact ⟨cs, .none, by simpa using hcs⟩
  | cons c w ih =>
    have hc := hw c (List.mem_cons_self ..)
    have hnext : (atMethod ((c :: w).length + n)).next c = [({}, atMethod (w.length + n))] := by
      rw [List.length_cons, Nat.add_right_comm]
      exact atMethod_next hc _
    obtain ⟨hstep, hacts⟩ := hcs.turn (c := c) (l := {}) (g := atMethod (w.length + n)) rfl
      (by simp [afterUri, spaceE, Expr.final]) (spaceE_next (methodChar_ne hc))
      (by rintro _ rfl m hm; rw [hnext] at hm; exact List.mem_singleton.1 hm)
      ⟨_, rfl, by rw [hnext]; exact List.mem_singleton_self _⟩ rfl .nil
    obtain ⟨cs', hfeeds, hcs'⟩ := ih hstep (fun d hd => hw d (List.mem_cons_of_mem _ hd)) hp.2
    refine ⟨cs', ?_, hcs'⟩
    have hfirst : Feeds buffer p 1 cs h (cs.step c) h := .silent hp.1 rfl (hstep.ne_nil ⟨_, rfl⟩) hacts
    rw [List.length_cons, Nat.add_comm]
    exact hfirst.trans hfeeds

/-- A method and the blank after it. -/
theorem feeds_method (relaxed : Bool) {w : List UInt8} (hne : w ≠ []) (hlen : w.length ≤ 20)
    (hw : ∀ c ∈ w, methodChar.has c = true) (hp : Spells buffer p (w ++ [32])) :
    ∃ cs', Feeds buffer p (w.length + 1) (main relaxed).start h cs' ((h.marked p).onRequestMethod buffer p) ∧
      State.Among closing afterUri {uriE relaxed} cs' := by
  obtain ⟨hpw, hps, -⟩ := spells_append.1 hp
  match w, hne with
  | c :: w, _ =>
    obtain ⟨hstep, hacts⟩ := method_first relaxed (hw c (List.mem_cons_self ..))
    have hroom : w.length + (19 - w.length) = 19 := by
      rw [List.length_cons] at hlen
      omega
    have hfirst : Feeds buffer p 1 (main relaxed).start h ((main relaxed).start.step c) (h.marked p) :=
      .byte hpw.1 rfl (hstep.ne_nil ⟨_, rfl⟩) hacts (by decide) rfl
    rw [← hroom] at hstep
    obtain ⟨cs1, hfeeds, hcs1⟩ := feeds_atMethod (h := h.marked p) hstep
      (fun d hd => hw d (List.mem_cons_of_mem _ hd)) hpw.2
    have hopen : (uriE relaxed :: afterUri).all Expr.final = false := by simp [afterUri, spaceE, Expr.final]
    obtain ⟨hcs', hacts'⟩ := hcs1.leave (c := 32) (o := embedding 1 .requestMethod) (g := .eps) rfl
      hopen
      (by rintro _ rfl; exact atMethod_next_space _) (by rintro _ rfl -; exact atMethod_outs _)
      ⟨_, rfl, atMethod_final _⟩ rfl rfl (List.pairwise_singleton _ _)
    have hlast : Feeds buffer (p + (c :: w).length) 1 cs1 (h.marked p) (cs1.step 32)
        ((h.marked p).onRequestMethod buffer p) :=
      .byte hps rfl (hcs'.ne_nil ⟨_, rfl⟩) hacts' (by decide) rfl
    refine ⟨_, ?_, hcs'.used⟩
    rw [List.length_cons, Nat.add_comm w.length 1] at hlast ⊢
    exact (hfirst.trans hfeeds).trans hlast

end Method

/-! ## The version -/

section Version

variable {buffer : Nat → UInt8} {p : Nat} {h : HttpRequestParser}

/-- After the URI. -/
def versionState : State Action := [.within closing [versionE, crlfE, .star headerE, crlfE] .eps]

/-- At the beginning of a header line, or of the line that ends the headers. -/
def headerState : State Action := [.within closing [crlfE] (.star headerE)]

set_option maxRecDepth 100000 in
theorem version_steps : ∀ w ∈ [bytes "TTP/1.0", bytes "TTP/1.1"], ((quiet (versionState.step 72) w).any fun v =>
    v.acts 13 = [.httpVersion] ∧ v.step 13 ≠ [] ∧ quiet (v.step 13) [10] = some headerState) = true := by
  decide

theorem onRequestVersion_eq {w : List UInt8} (hw : w = bytes "HTTP/1.0" ∨ w = bytes "HTTP/1.1")
    (hp : Spells buffer p w) : h.onRequestVersion buffer p w.length =
      { h with data := { h.data with version := if w = bytes "HTTP/1.0" then 0x10 else 0x11 } } := by
  have htext : ∀ t, strncmp w.length (fun i => buffer (p + i)) t = strncmp w.length (cstr w) t := fun t =>
    strncmp_congr fun i hi => hp.getD hi
  unfold HttpRequestParser.onRequestVersion
  simp only [htext]
  rcases hw with rfl | rfl
  · rw [if_neg (by decide), if_pos (by decide)]
    rfl
  · rw [if_pos (by decide)]
    rfl

set_option maxRecDepth 100000 in
/-- A version number and the line break after it. -/
theorem feeds_version {w : List UInt8} (hw : w = bytes "HTTP/1.0" ∨ w = bytes "HTTP/1.1")
    (hp : Spells buffer p (w ++ [13, 10])) :
    Feeds buffer p (w.length + 2) versionState h headerState
      { h.marked p with data := { h.data with version := if w = bytes "HTTP/1.0" then 0x10 else 0x11 } } := by
  obtain ⟨t, rfl, ht⟩ : ∃ t, w = 72 :: t ∧ t ∈ [bytes "TTP/1.0", bytes "TTP/1.1"] := by
    rcases hw with rfl | rfl
    · exact ⟨_, rfl, by decide⟩
    · exact ⟨_, rfl, by decide⟩
  obtain ⟨hpw, hpr, hpl⟩ := spells_append.1 hp
  obtain ⟨v, hv, hend⟩ := (Option.any_eq_true ..).1 (version_steps t ht)
  obtain ⟨hacts, hne, hlast⟩ := of_decide_eq_true hend
  have henter : versionState.step 72 ≠ [] ∧ versionState.acts 72 = [.mark] := by decide
  have hfirst : Feeds buffer p 1 versionState h (versionState.step 72) (h.marked p) :=
    .byte hpw.1 rfl henter.1 henter.2 (by decide) rfl
  have hreturn : Feeds buffer (p + (72 :: t).length) 1 v (h.marked p) (v.step 13)
      ((h.marked p).onRequestVersion buffer p (72 :: t).length) :=
    .byte hpr rfl hne hacts (by decide) (by simp [perform, HttpRequestParser.act, HttpRequestParser.marked, len])
  have hline : Feeds buffer (p + (72 :: t).length + 1) 1 (v.step 13)
    ((h.marked p).onRequestVersion buffer p (72 :: t).length)
      headerState ((h.marked p).onRequestVersion buffer p (72 :: t).length) := .quiet hlast hpl
  rw [onRequestVersion_eq hw hpw] at hreturn hline
  have htail : Feeds buffer (p + 1) t.length (versionState.step 72) (h.marked p) v (h.marked p) := .quiet hv hpw.2
  have hword : Feeds buffer p (72 :: t).length versionState h v (h.marked p) := by
    rw [List.length_cons, Nat.add_comm]
    exact hfirst.trans htail
  exact hword.trans (hreturn.trans hline)

end Version

end ServerFrame.Http
