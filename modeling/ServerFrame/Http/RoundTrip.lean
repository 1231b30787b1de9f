/-
What a session makes of a request that was printed by `dump` and comes with one read, and for which requests that is the
request itself.
-/
import ServerFrame.Http.HeaderLines
import ServerFrame.Http.Headers
import ServerFrame.Http.OneRead

namespace ServerFrame.Http

open Ragel Grammar

/-! ## The text of a request -/

namespace HttpRequest

def versionText (r : HttpRequest) : List UInt8 := if r.version = 0x10 then bytes "HTTP/1.0" else bytes "HTTP/1.1"

def requestLine (r : HttpRequest) : List UInt8 :=
  httpMethodToString r.method ++ [32] ++ (r.path ++ queryText r.query r.fragment) ++ (r.versionText ++ [13, 10])

/-- The headers in the order in which they are printed. -/
def allHeaders (r : HttpRequest) : MapType :=
  (bytes "connection", r.connection) :: (r.headers ++
    if r.body = [] then [] else [(bytes "content-length", decimal r.body.length)])

end HttpRequest

def headersText (xs : MapType) : List UInt8 := xs.flatMap fun x => HttpRequest.dumpHeader x.1 x.2

theorem headersText_append (xs ys : MapType) : headersText (xs ++ ys) = headersText xs ++ headersText ys :=
  List.flatMap_append

section Text

variable {relaxed : Bool} {r : HttpRequest}

theorem dump_eq (hr : r.Sendable relaxed) :
    r.dump = r.requestLine ++ (headersText r.allHeaders ++ ([13, 10] ++ r.body)) := by
  have hskip : (r.headers.flatMap fun i => if !r.websocket && strcasecmp i.1 (bytes "connection") then []
      else HttpRequest.dumpHeader i.1 i.2) = headersText r.headers := by
    rw [headersText, List.flatMap_def, List.flatMap_def]
    congr 1
    refine List.map_congr_left fun x hx => ?_
    rw [(hr.names x hx).2.2.1]
    simp
  have hversion : ∀ t, bytes " HTTP/" ++ (decimal (r.version >>> 4).toNat ++ (bytes "." ++
      (decimal (r.version &&& 0x0f).toNat ++ t))) = 32 :: (r.versionText ++ t) := by
    intro t
    have hprefix : bytes " HTTP/" ++ decimal (r.version >>> 4).toNat ++ bytes "." ++
        decimal (r.version &&& 0x0f).toNat = 32 :: r.versionText := by
      unfold HttpRequest.versionText
      rcases hr.version with h | h <;> rw [h] <;> decide
    rw [← List.cons_append, ← hprefix]
    simp only [List.append_assoc]
  have hblank : bytes " " = [32] := rfl
  have hquery : bytes "?" = [63] := rfl
  have hfragment : bytes "#" = [35] := rfl
  have hline : bytes "\r\n" = [13, 10] := rfl
  unfold HttpRequest.dump HttpRequest.requestLine HttpRequest.allHeaders queryText fragmentText
  rw [hskip]
  simp only [hr.websocket, hblank, hquery, hfragment, hline, List.append_assoc, Bool.not_false, if_true, hversion]
  by_cases hq : r.query = [] <;> by_cases hf : r.fragment = [] <;> by_cases hb : r.body = [] <;>
    simp [hq, hf, hb, headersText]

end Text

/-! ## The request line -/

set_option maxRecDepth 100000 in
/-- The names of the methods but `M - SEARCH` are words of the grammar, and are recognised with the blank after them. -/
theorem method_names : ∀ x ∈ httpMethodMap, x.1 ≠ .msearch → httpMethodToString x.1 = x.2 ∧ x.2 ≠ [] ∧ x.2.length ≤ 20 ∧
    (∀ c ∈ x.2, methodChar.has c = true) ∧ lookedAt (cstr (x.2 ++ [32])) ≤ x.2.length + 1 ∧
    charsToHttpMethod (cstr (x.2 ++ [32])) = x.1 := by
  intro x hx hne
  have hchars : ∀ x ∈ httpMethodMap, x.1 ≠ .msearch → x.2.all methodChar.has = true := by decide
  have hmatch : ∀ x ∈ httpMethodMap, x.1 ≠ .msearch → httpMethodToString x.1 = x.2 ∧ x.2 ≠ [] ∧ x.2.length ≤ 20 ∧
      lookedAt (cstr (x.2 ++ [32])) ≤ x.2.length + 1 ∧ charsToHttpMethod (cstr (x.2 ++ [32])) = x.1 := by
    decide
  obtain ⟨hname, hnil, hlen, hlooked, hread⟩ := hmatch x hx hne
  exact ⟨hname, hnil, hlen, List.all_eq_true.1 (hchars x hx hne), hlooked, hread⟩

theorem mem_httpMethodMap {m : HttpMethod} (h : m ≠ .invalidMethod) : ∃ x ∈ httpMethodMap, x.1 = m := by
  revert h
  cases m <;> decide

section RequestLine

variable {relaxed : Bool} {r : HttpRequest} {buffer : Nat → UInt8} {h : HttpRequestParser}

theorem onRequestMethod_eq {m : HttpMethod} {p : Nat} (hm : m ≠ .invalidMethod) (hs : m ≠ .msearch)
    (hp : Spells buffer p (httpMethodToString m ++ [32])) :
    h.onRequestMethod buffer p = { h with data := { h.data with method := m } } := by
  obtain ⟨x, hx, rfl⟩ := mem_httpMethodMap hm
  obtain ⟨hname, -, -, -, hlooked, hchars⟩ := method_names x hx hs
  rw [hname] at hp
  have hfound : charsToHttpMethod (fun i => buffer (p + i)) = x.1 := by
    rw [← hchars]
    refine (charsToHttpMethod_congr fun i hi => ?_).symm
    rw [hp.getD (by simp; omega)]
    rfl
  unfold HttpRequestParser.onRequestMethod
  simp only [hfound, if_neg hm]

/-- The request line. -/
theorem feeds_requestLine (hr : r.Sendable relaxed) (hs : r.method ≠ .msearch)
    (hp : Spells buffer 0 r.requestLine) (hlen : r.requestLine.length < 2 ^ 63) :
    ∃ h', Feeds buffer 0 r.requestLine.length (main relaxed).start h headerState h' ∧
      h'.data = { h.data with
        method := r.method
        path := r.path
        query := if r.query = [] then h.data.query else r.query
        fragment := if r.fragment = [] then h.data.fragment else r.fragment
        version := r.version } ∧
      h'.error = h.error := by
  obtain ⟨x, hx, hxm⟩ := mem_httpMethodMap hr.method
  obtain ⟨hname, hne, hshort, hchars, -, -⟩ := method_names x hx (hxm ▸ hs)
  rw [hxm] at hname
  unfold HttpRequest.requestLine at hp hlen ⊢
  obtain ⟨hp, hpversion⟩ := spells_append.1 hp
  obtain ⟨hpmethod, hpuri⟩ := spells_append.1 hp
  simp only [List.length_append] at hlen
  obtain ⟨cs1, hfeeds1, hcs1⟩ := feeds_method relaxed (h := h) (w := httpMethodToString r.method)
    (hname ▸ hne) (hname ▸ hshort) (hname ▸ hchars) hpmethod
  rw [onRequestMethod_eq hr.method hs hpmethod] at hfeeds1
  have hq : (wordE relaxed).accepts r.query = true := by
    rw [← hr.query, Grammar.query]
    exact Expr.accepts_leaving.symm
  have hf : (wordE relaxed).accepts r.fragment = true := by
    rw [← hr.fragment, Grammar.fragment]
    exact (Expr.accepts_leaving.trans Expr.accepts_entering).symm
  have hn1 : (httpMethodToString r.method ++ [32]).length = (httpMethodToString r.method).length + 1 := by simp
  have hqlen : r.query.length ≤ (queryText r.query r.fragment).length := by
    unfold queryText
    split <;> simp [*]
    omega
  have hflen : r.fragment.length ≤ (queryText r.query r.fragment).length := by
    unfold queryText fragmentText
    split <;> split <;> simp [*] <;> omega
  have hlen2 : (r.path ++ queryText r.query r.fragment).length = r.path.length + (queryText r.query
    r.fragment).length :=
    List.length_append
  rw [List.length_append] at hpversion
  rw [hn1] at hpuri
  obtain ⟨h2, hfeeds2, hdata2, herr2⟩ := feeds_uri hcs1 (by decide) hr.path hq hf hpuri (by omega) (by omega) (by omega)
    (h := { h.marked 0 with data := { h.data with method := r.method } })
  have hversion : r.versionText = bytes "HTTP/1.0" ∨ r.versionText = bytes "HTTP/1.1" := by
    unfold HttpRequest.versionText
    split <;> simp
  have hnumber : (if r.versionText = bytes "HTTP/1.0" then 0x10 else 0x11) = r.version := by
    unfold HttpRequest.versionText
    rcases hr.version with h | h <;> rw [h] <;> decide
  rw [hn1, hlen2] at hpversion
  have hfeeds3 := feeds_version (h := h2) hversion hpversion
  rw [hnumber] at hfeeds3
  have hn3 : (r.versionText ++ [13, 10]).length = r.versionText.length + 2 := by simp
  rw [List.length_append, List.length_append, hn1, hlen2, hn3]
  refine ⟨_, (hfeeds1.trans hfeeds2).trans hfeeds3, ?_, herr2⟩
  rw [hdata2]

end RequestLine

/-! ## The headers -/

section Headers

variable {relaxed : Bool} {r : HttpRequest}

/-- The names that are printed differ in more than case. -/
theorem allHeaders_pairwise (hr : r.Sendable relaxed) :
    r.allHeaders.Pairwise fun x y => folded x.1 ≠ folded y.1 := by
  have hne : folded (bytes "connection") ≠ folded (bytes "content-length") := by decide
  have hnames : ∀ x ∈ r.headers, folded x.1 ≠ folded (bytes "connection") ∧ folded x.1 ≠ folded
      (bytes "content-length") := by
    intro x hx
    obtain ⟨-, -, h1, h2⟩ := hr.names x hx
    exact ⟨of_decide_eq_false h1, of_decide_eq_false h2⟩
  unfold HttpRequest.allHeaders
  rw [List.pairwise_cons, List.pairwise_append]
  refine ⟨?_, SortedMap.pairwise_fold_ne folds hr.ordered, ?_, ?_⟩
  · intro x hx
    rcases List.mem_append.1 hx with hx | hx
    · exact (hnames x hx).1.symm
    · split at hx
      · cases hx
      · rw [List.mem_singleton.1 hx]
        exact hne
  · split
    · exact .nil
    · exact List.pairwise_singleton _ _
  · intro x hx y hy
    split at hy
    · cases hy
    · rw [List.mem_singleton.1 hy]
      exact (hnames x hx).2

/-- What is assigned of some of the headers. -/
theorem assigned_spec (hr : r.Sendable relaxed) (xs : MapType) {ys : MapType} (hxs : r.allHeaders = xs ++ ys) :
    MapType.Sorted (xs.foldl (fun m x => m.assign x.1 x.2) []) ∧
      ∀ y, y ∈ xs.foldl (fun (m : MapType) x => m.assign x.1 x.2) [] ↔ y ∈ xs := by
  have hpair := allHeaders_pairwise hr
  rw [hxs, List.pairwise_append] at hpair
  obtain ⟨hsorted, hmem⟩ := MapType.foldl_assign_spec (m := []) .nil (fun x _ y hy => by cases hy) hpair.1
  exact ⟨hsorted, fun y => by rw [hmem]; simp⟩

/-- The headers that are sent are those that are printed. -/
theorem sentHeaders_spec (hr : r.Sendable relaxed) :
    MapType.Sorted r.sentHeaders ∧ ∀ y, y ∈ r.sentHeaders ↔ y ∈ r.allHeaders := by
  let added : MapType := (bytes "connection", r.connection) ::
    if r.body = [] then [] else [(bytes "content-length", decimal r.body.length)]
  have hsent : r.sentHeaders = added.foldl (fun m x => m.assign x.1 x.2) r.headers := by
    simp only [HttpRequest.sentHeaders, added]
    split <;> rfl
  have hpair := allHeaders_pairwise hr
  have hperm : r.allHeaders.Perm (r.headers ++ added) := List.perm_middle.symm
  rw [hperm.pairwise_iff fun hab => hab.symm, List.pairwise_append] at hpair
  obtain ⟨hsorted, hmem⟩ := MapType.foldl_assign_spec hr.ordered
    (fun x hx y hy => hpair.2.2 y hy x hx) hpair.2.1
  rw [hsent]
  refine ⟨hsorted, fun y => ?_⟩
  rw [hmem, hperm.mem_iff, List.mem_append]

theorem assigned_eq (hr : r.Sendable relaxed) :
    r.allHeaders.foldl (fun (m : MapType) x => m.assign x.1 x.2) [] = r.sentHeaders := by
  obtain ⟨h1, h2⟩ := assigned_spec hr r.allHeaders (List.append_nil _).symm
  obtain ⟨h3, h4⟩ := sentHeaders_spec hr
  exact h1.ext h3 fun x => (h2 x).trans (h4 x).symm

end Headers

/-! ## The reception -/

section Reception

variable {env : Env} {r : HttpRequest}

theorem spells_store (memory : Nat → UInt8) (stream : List UInt8) : Spells (store memory 0 stream) 0 stream :=
  spells_of_getD fun i hi => by rw [Nat.zero_add, store_zero hi]

/-- Up to a header the parser has taken those before it. -/
theorem feeds_allHeaders {relaxed : Bool} {buffer : Nat → UInt8} {h : HttpRequestParser} {text : List UInt8}
    (hr : r.Sendable relaxed) (htext : r.dump = text) (hbig : text.length < 2 ^ 63) (hs : r.method ≠ .msearch)
    {xs ys : MapType} (hxs : r.allHeaders = xs ++ ys) (hrec : ∀ x ∈ xs, Receivable x) (hp : Spells buffer 0 text)
    (hh : h.data = {}) :
    ∃ h', Feeds buffer 0 (r.requestLine.length + (headersText xs).length) (main relaxed).start h headerState h' ∧
      h'.data = { r with
        close := true, body := [], headers := xs.foldl (fun (m : MapType) x => m.assign x.1 x.2) [] } ∧
      h'.error = h.error := by
  have hdump := dump_eq hr
  rw [htext, hxs, headersText_append, List.append_assoc] at hdump
  have hlen := congrArg List.length hdump
  simp only [List.length_append] at hlen
  rw [hdump] at hp
  obtain ⟨hpline, hprest⟩ := spells_append.1 hp
  obtain ⟨h1, hfeeds1, hdata1, herr1⟩ := feeds_requestLine (h := h) hr hs hpline (by omega)
  obtain ⟨h2, hfeeds2, hdata2, herr2⟩ := feeds_headers (h := h1) hrec (spells_append.1 hprest).1
    (by unfold headersText at hlen; omega)
  refine ⟨h2, hfeeds1.trans hfeeds2, ?_, herr2.trans herr1⟩
  have hempty : ∀ w : List UInt8, (if w = [] then [] else w) = w := fun w => by split <;> simp [*]
  have hq := hempty r.query
  have hf := hempty r.fragment
  have hw := hr.websocket
  rw [hdata2, HttpRequest.foldl_setHeader, hdata1, hh]
  simp only [hq, hf, hw]

/-- A request whose headers are all taken, as the session returns it. -/
theorem received_of_receivable (hr : r.Sendable env.object.parser.uriRelaxed) (hbig : r.dump.length < 2 ^ 31)
    (hs : r.method ≠ .msearch) (hrec : ∀ x ∈ r.allHeaders, Receivable x) :
    received env r.dump = .ok (if env.object.error = 0 then
      withBody env.cast { r with close := true, body := [], headers := r.sentHeaders } r.body else none) := by
  have hsplit : r.dump = (r.requestLine ++ headersText r.allHeaders ++ [13, 10]) ++ r.body := by
    rw [dump_eq hr]
    simp only [List.append_assoc]
  rw [received]
  revert hbig hsplit
  generalize htext : r.dump = text
  intro hbig hsplit
  have hp := spells_store env.memory text
  revert hp
  generalize store env.memory 0 text = buffer
  intro hp
  obtain ⟨h1, hfeeds, hdata, herr⟩ := feeds_allHeaders (h := env.parser) hr htext (by omega) hs
    (List.append_nil r.allHeaders).symm hrec hp rfl
  have hlen := congrArg List.length hsplit
  simp only [List.length_append, List.length_cons, List.length_nil] at hlen
  rw [hsplit] at hp
  have hbreak := (spells_append.1 (spells_append.1 hp).1).2
  rw [List.length_append] at hbreak
  obtain ⟨h2, cs, hrun, hfin, hdata', herr'⟩ := exec_lineBreak (h := h1) hbreak r.body.length
  have hexec := hfeeds.exec_eq (show text.length = _ + (2 + r.body.length) by omega) hrun
  have hrest : text.drop (0 + (r.requestLine.length + (headersText r.allHeaders).length) + 2) = r.body := by
    rw [hsplit]
    exact List.drop_left' (by simp; omega)
  have herror : h2.error = env.object.error := herr'.trans herr
  rw [assigned_eq hr] at hdata
  rw [hexec]
  simp only [Except.map, hrest, herror, hdata', hdata, hfin, and_true]

/-- The body comes back whole. -/
theorem withBody_sent {relaxed : Bool} (hr : r.Sendable relaxed) (hbig : r.body.length < 2 ^ 63)
    (hcast : env.cast (decimal r.body.length) = some (UInt64.ofNat r.body.length)) :
    withBody env.cast { r with close := true, body := [], headers := r.sentHeaders } r.body =
      some { r with close := true, headers := r.sentHeaders } := by
  obtain ⟨hsorted, hmem⟩ := sentHeaders_spec hr
  unfold withBody HttpRequest.getHeaderAs
  by_cases hb : r.body = []
  · have hfresh : MapType.Fresh (bytes "content-length") r.sentHeaders := by
      intro y hy
      have hy' := (hmem y).1 hy
      rw [HttpRequest.allHeaders, if_pos hb, List.append_nil] at hy'
      rcases List.mem_cons.1 hy' with rfl | hy'
      · exact (by decide : folded (bytes "connection") ≠ folded (bytes "content-length"))
      · exact of_decide_eq_false (hr.names y hy').2.2.2
    simp only [MapType.find_fresh hsorted hfresh]
    rw [if_neg (by decide), hb]
  · have hin : (bytes "content-length", decimal r.body.length) ∈ r.sentHeaders := by
      rw [hmem, HttpRequest.allHeaders, if_neg hb]
      simp
    have hlen : 0 < r.body.length := List.length_pos_iff.2 hb
    have hsize : r.body.length < 2 ^ 64 := by omega
    have hnat : (UInt64.ofNat r.body.length).toNat = r.body.length := UInt64.toNat_ofNat_of_lt' hsize
    simp only [MapType.find_mem hsorted hin, hcast, Option.getD_some, hnat]
    rw [if_pos ⟨hlen, hbig⟩, if_pos (le_refl _), List.take_length]

end Reception

/-! ## What a session cannot give back -/

section Losses

variable {env : Env}

theorem withBody_eq_some {cast : List UInt8 → Option UInt64} {data q : HttpRequest} {rest : List UInt8}
    (h : withBody cast data rest = some q) : q.close = data.close ∧ q.headers = data.headers := by
  unfold withBody at h
  simp only at h
  split at h
  · split at h
    · cases h
      exact ⟨rfl, rfl⟩
    · cases h
  · cases h
    exact ⟨rfl, rfl⟩

/-- A session returns a request only if the error field of its parser happened to be zero, and then one that is to be
closed. -/
theorem received_eq_some {stream : List UInt8} {q : HttpRequest} (h : received env stream = .ok (some q)) :
    env.object.error = 0 ∧ q.close = true := by
  rw [received, exec_eq_perform] at h
  cases hperform : perform (store env.memory 0 stream) env.parser
      (events (store env.memory 0 stream) stream.length 0 (main env.object.parser.uriRelaxed).start) with
  | error f =>
    rw [hperform] at h
    cases h
  | ok h1 =>
    rw [hperform] at h
    simp only [Except.map, Except.ok.injEq] at h
    split at h
    · rename_i hok
      refine ⟨?_, ?_⟩
      · by_contra herr
        exact (perform_frame hperform).2.2 herr hok.1
      · rw [(withBody_eq_some h).1, (perform_message hperform).2]
        rfl
    · cases h

/-- A machine that stops inside the stream has not found a request. -/
theorem received_of_stuck {stream : List UInt8} {h : HttpRequestParser} {p : Nat}
    (hrun : HttpRequestParser.exec (store env.memory 0 stream) stream.length 0
      (main env.object.parser.uriRelaxed).start env.parser = .ok (h, [], p)) : received env stream = .ok none := by
  rw [received, hrun]
  simp [Except.map, State.final]

theorem exec_stuck {buffer : Nat → UInt8} {p m : Nat} {c : UInt8} {cs : State Action} {h : HttpRequestParser}
    (hp : buffer p = c) (hs : cs.step c = []) : HttpRequestParser.exec buffer (m + 1) p cs h = .ok (h, [], p) := by
  rw [HttpRequestParser.exec, hp, hs]
  rfl

variable {r : HttpRequest}

set_option maxRecDepth 100000 in
/-- The blanks of `M - SEARCH` end the method and begin a path, after which no version comes. -/
theorem exec_msearch (relaxed : Bool) {buffer : Nat → UInt8} {h : HttpRequestParser} {n : Nat}
    (hp : Spells buffer 0 (bytes "M - S")) :
    ∃ h' p, HttpRequestParser.exec buffer (5 + n) 0 (main relaxed).start h = .ok (h', [], p) := by
  have hword : (wordE relaxed).accepts [] = true := by cases relaxed <;> decide
  have hpath : (relativeE relaxed).accepts [45] = true := by cases relaxed <;> decide
  have hs : versionState.step 83 = [] := by decide
  have hopen : List.all [versionE, crlfE, .star headerE, crlfE] Expr.final = false := by decide
  have hpm : Spells buffer 0 ([77] ++ [32]) := ⟨hp.1, hp.2.1, trivial⟩
  have hpu : Spells buffer 2 ([45] ++ queryText [] []) := ⟨hp.2.2.1, hp.2.2.2.1, trivial⟩
  obtain ⟨cs, hfeeds, hcs⟩ := feeds_method relaxed (h := h) (w := [77]) (by decide) (by decide) (by decide) hpm
  obtain ⟨h2, hfeeds', -, -⟩ := feeds_uri (h := (h.marked 0).onRequestMethod buffer 0) hcs hopen hpath hword hword hpu
    (by decide) (by decide) (by decide)
  have hstuck := exec_stuck (m := n) (h := h2) hp.2.2.2.2.1 hs
  exact ⟨h2, 4, (Feeds.trans hfeeds hfeeds').exec_eq (m := n + 1) (by simp [queryText, fragmentText]; omega) hstuck⟩

theorem received_msearch (hr : r.Sendable env.object.parser.uriRelaxed) (hm : r.method = .msearch) :
    received env r.dump = .ok none := by
  obtain ⟨rest, hdump⟩ : ∃ rest, r.dump = bytes "M - S" ++ rest := by
    have hname : httpMethodToString .msearch = bytes "M - S" ++ bytes "EARCH" := by decide
    rw [dump_eq hr, HttpRequest.requestLine, hm, hname]
    simp only [List.append_assoc]
    exact ⟨_, rfl⟩
  have hp := spells_store env.memory (bytes "M - S" ++ rest)
  obtain ⟨h, p, hrun⟩ := exec_msearch env.object.parser.uriRelaxed (h := env.parser) (n := rest.length)
    (spells_append.1 hp).1
  have hlen : (bytes "M - S" ++ rest).length = 5 + rest.length := List.length_append
  rw [hdump]
  rw [← hlen] at hrun
  exact received_of_stuck hrun

/-! ### A header that is not taken -/

set_option maxRecDepth 100000 in
theorem decimal_char {n : Nat} : ∀ c ∈ decimal n, valueChar c = true ∧ c ≠ 32 ∧ c ≠ 9 := by
  have hdigit : ∀ c : UInt8, 48 ≤ c.toNat → c.toNat ≤ 57 → valueChar c = true ∧ c ≠ 32 ∧ c ≠ 9 := by
    apply forall_byte
    decide
  exact fun c hc => hdigit c (decimal_digits n c hc).1 (decimal_digits n c hc).2

set_option maxRecDepth 100000 in
/-- The headers that the printer adds are taken. -/
theorem receivable_added (r : HttpRequest) : Receivable (bytes "connection", r.connection) ∧
    Receivable (bytes "content-length", decimal r.body.length) := by
  have hhead : ∀ c, (decimal r.body.length).head? = some c → c ≠ 32 ∧ c ≠ 9 := fun c hc =>
    (decimal_char c (List.mem_of_mem_head? hc)).2
  constructor
  · unfold HttpRequest.connection
    split
    · exact ⟨by decide, by decide, by decide, by decide, by decide, by decide⟩
    · exact ⟨by decide, by decide, by decide, by decide, by decide, by decide⟩
  · have hname : bytes "content-length" ≠ [] ∧ (∀ c ∈ bytes "content-length", token.has c = true) ∧
        Plausible (bytes "content-length") := by
      decide
    exact ⟨hname.1, hname.2.1, hname.2.2, fun c hc => (decimal_char c hc).1, fun h => (hhead _ h).1 rfl,
      fun h => (hhead _ h).2 rfl⟩

/-- What there is to say about a header that can be sent. -/
theorem receivable_iff {relaxed : Bool} (hr : r.Sendable relaxed) {x : List UInt8 × List UInt8} (hx : x ∈ r.headers) :
    Receivable x ↔ Plausible x.1 ∧ 0 ∉ x.2 ∧ 127 ∉ x.2 := by
  obtain ⟨hne, htok, -, -⟩ := hr.names x hx
  obtain ⟨hcr, hlf, hblank, htab⟩ := hr.values x hx
  constructor
  · intro h
    exact ⟨h.begins, fun h0 => absurd (h.value 0 h0) (by decide), fun h1 => absurd (h.value 127 h1) (by decide)⟩
  · rintro ⟨hplaus, h0, h127⟩
    refine ⟨hne, htok, hplaus, fun c hc => ?_, hblank, htab⟩
    have hne0 : c ≠ 0 := fun h => h0 (h ▸ hc)
    have hne127 : c ≠ 127 := fun h => h127 (h ▸ hc)
    have hne13 : c ≠ 13 := fun h => hcr (h ▸ hc)
    have hne10 : c ≠ 10 := fun h => hlf (h ▸ hc)
    simp [valueChar, hne0, hne127, hne13, hne10]

theorem receivable_allHeaders {relaxed : Bool} (hr : r.Sendable relaxed) : (∀ x ∈ r.allHeaders, Receivable x) ↔
    ∀ x ∈ r.headers, Plausible x.1 ∧ 0 ∉ x.2 ∧ 127 ∉ x.2 := by
  obtain ⟨h1, h2⟩ := receivable_added r
  unfold HttpRequest.allHeaders
  constructor
  · intro h x hx
    exact (receivable_iff hr hx).1 (h x (by simp [hx]))
  · intro h x hx
    rcases List.mem_cons.1 hx with rfl | hx
    · exact h1
    · rcases List.mem_append.1 hx with hx | hx
      · exact (receivable_iff hr hx).2 (h x hx)
      · split at hx
        · cases hx
        · rw [List.mem_singleton.1 hx]
          exact h2

/-- The first member that fails. -/
theorem exists_first {α : Type} {P : α → Prop} {l : List α} (h : ¬ ∀ x ∈ l, P x) :
    ∃ pre x post, l = pre ++ x :: post ∧ (∀ y ∈ pre, P y) ∧ ¬ P x := by
  classical
  have hfind : (l.find? fun x => decide (¬ P x)).isSome = true := by
    rw [List.find?_isSome]
    push Not at h
    simpa using h
  obtain ⟨x, hx⟩ := Option.isSome_iff_exists.1 hfind
  obtain ⟨hbad, pre, post, hl, hpre⟩ := List.find?_eq_some_iff_append.1 hx
  exact ⟨pre, x, post, hl, fun y hy => by simpa using hpre y hy, by simpa using hbad⟩

section Exec

variable {buffer : Nat → UInt8} {p n : Nat} {h : HttpRequestParser}

/-- A name that begins with a line break ends the headers. -/
theorem exec_stopped_name {key : List UInt8} (hplaus : ¬ Plausible key) (hp : Spells buffer p key)
    (hn : key.length ≤ n) :
    ∃ h' cs q, HttpRequestParser.exec buffer n p headerState h = .ok (h', cs, q) ∧ h'.data = h.data := by
  rw [Plausible, not_and_or, not_not, not_not] at hplaus
  rcases hplaus with hlf | hbreak
  · obtain ⟨key, rfl⟩ := List.head?_eq_some_iff.1 hlf
    obtain ⟨m, rfl⟩ : ∃ m, n = m + 1 := ⟨n - 1, by simp at hn; omega⟩
    obtain ⟨h', cs, hrun, -, hdata, -⟩ := exec_lineFeed (h := h) hp.1 m
    exact ⟨h', cs, _, hrun, hdata⟩
  · obtain ⟨key, rfl⟩ : ∃ t, key = [13, 10] ++ t := ⟨key.drop 2, by rw [← hbreak, List.take_append_drop]⟩
    obtain ⟨m, rfl⟩ : ∃ m, n = 2 + m := ⟨n - 2, by simp at hn; omega⟩
    obtain ⟨h', cs, hrun, -, hdata, -⟩ := exec_lineBreak (h := h) (spells_append.1 hp).1 m
    exact ⟨h', cs, _, hrun, hdata⟩

/-- A byte 0 or 127 stops the machine. -/
theorem exec_badValue {key val : List UInt8} (hne : key ≠ []) (htok : ∀ c ∈ key, token.has c = true)
    (hplaus : Plausible key) (hcr : 13 ∉ val) (hlf : 10 ∉ val) (hblank : val.head? ≠ some 32)
    (htab : val.head? ≠ some 9)
    (hbad : ¬ ∀ c ∈ val, valueChar c = true) (hp : Spells buffer p (HttpRequest.dumpHeader key val))
    (hn : (HttpRequest.dumpHeader key val).length ≤ n) :
    ∃ h' q, HttpRequestParser.exec buffer n p headerState h = .ok (h', [], q) := by
  obtain ⟨pre, b, post, rfl, hpre, hb⟩ := exists_first hbad
  have htext : HttpRequest.dumpHeader key
      (pre ++ b :: post) = (key ++ [58, 32]) ++ (pre ++ (b :: (post ++ [13, 10]))) := by
    simp [HttpRequest.dumpHeader, bytes]
  rw [htext] at hp hn
  obtain ⟨hpk, hpv⟩ := spells_append.1 hp
  obtain ⟨hpp, hpb, -⟩ := spells_append.1 hpv
  have hhead : ∀ c, pre.head? = some c → (pre ++ b :: post).head? = some c := by
    intro c hc
    rw [List.head?_append, hc]
    rfl
  have hcolon := feeds_colon (h := h) hne htok hplaus hpk
  have hlen : p + (key ++ [58, 32]).length = p + (key.length + 2) := by simp
  rw [hlen] at hpp hpb
  obtain ⟨s, hs, hvalue, -⟩ := feeds_valueBytes (h := (h.named p key.length).marked (p + key.length + 1)) hpre
    (fun hc => hblank (hhead _ hc)) (fun hc => htab (hhead _ hc)) hpp
  have hstuck : s.step b = [] := by
    have hb13 : b ≠ 13 := fun h => hcr (by simp [h])
    have hb10 : b ≠ 10 := fun h => hlf (by simp [h])
    have hends : b = 0 ∨ b = 127 := by
      by_contra hno
      rw [not_or] at hno
      exact hb (by simp [valueChar, hno.1, hno.2, hb13, hb10])
    rcases hends with rfl | rfl
    · exact (value_ends s hs).2.1
    · exact (value_ends s hs).2.2
  obtain ⟨m, hm⟩ : ∃ m, n = (key.length + 2 + pre.length) + (m + 1) := by
    simp only [List.length_append, List.length_cons, List.length_nil] at hn
    exact ⟨n - (key.length + 2 + pre.length) - 1, by omega⟩
  rw [Nat.add_assoc p] at hpb
  exact ⟨_, _, (hcolon.trans hvalue).exec_eq hm (exec_stuck hpb hstuck)⟩

end Exec

/-- A header that is not taken does not come back. -/
theorem received_lost (hr : r.Sendable env.object.parser.uriRelaxed) (hbig : r.dump.length < 2 ^ 31)
    (hs : r.method ≠ .msearch) (hbad : ¬ ∀ x ∈ r.allHeaders, Receivable x) {q : HttpRequest}
    (hq : received env r.dump = .ok (some q)) : q.headers ≠ r.sentHeaders := by
  obtain ⟨pre, x, post, hall, hpre, hx⟩ := exists_first hbad
  have hmem : x ∈ r.headers := by
    have hin : x ∈ r.allHeaders := by simp [hall]
    obtain ⟨h1, h2⟩ := receivable_added r
    rcases List.mem_cons.1 hin with rfl | hin
    · exact absurd h1 hx
    · rcases List.mem_append.1 hin with hin | hin
      · exact hin
      · split at hin
        · cases hin
        · rw [List.mem_singleton.1 hin] at hx
          exact absurd h2 hx
  have hsplit : r.dump = (r.requestLine ++ headersText pre) ++ (HttpRequest.dumpHeader x.1 x.2 ++
      (headersText post ++ ([13, 10] ++ r.body))) := by
    rw [dump_eq hr, hall, headersText_append]
    simp only [headersText, List.flatMap_cons, List.append_assoc]
  rw [received] at hq
  revert hbig hsplit hq
  generalize htext : r.dump = text
  intro hbig hq hsplit
  have hp := spells_store env.memory text
  revert hp hq
  generalize store env.memory 0 text = buffer
  intro hq hp
  obtain ⟨h1, hfeeds, hdata, -⟩ := feeds_allHeaders (h := env.parser) hr htext (by omega) hs hall hpre hp rfl
  have hlen := congrArg List.length hsplit
  simp only [List.length_append] at hlen
  rw [hsplit] at hp
  have hpx := (spells_append.1 hp).2
  rw [List.length_append] at hpx
  have hpx := (spells_append.1 hpx).1
  have hkey : x.1.length ≤ (HttpRequest.dumpHeader x.1 x.2).length := by
    simp only [HttpRequest.dumpHeader, List.length_append]
    omega
  obtain ⟨rest, hrest⟩ : ∃ m, text.length = (r.requestLine.length + (headersText pre).length) + m ∧
      (HttpRequest.dumpHeader x.1 x.2).length ≤ m := ⟨_, hlen.trans rfl, by omega⟩
  by_cases hplaus : Plausible x.1
  · -- its value stops the machine
    obtain ⟨hne, htok, -, -⟩ := hr.names x hmem
    obtain ⟨hcr, hlf, hblank, htab⟩ := hr.values x hmem
    have hvalue : ¬ ∀ c ∈ x.2, valueChar c = true := fun hv => hx ⟨hne, htok, hplaus, hv, hblank, htab⟩
    obtain ⟨h2, p, hrun⟩ := exec_badValue (h := h1) hne htok hplaus hcr hlf hblank htab hvalue hpx hrest.2
    rw [hfeeds.exec_eq hrest.1 hrun] at hq
    simp [Except.map, State.final] at hq
  · -- its name ends the headers
    have hpk : Spells buffer (0 + (r.requestLine.length + (headersText pre).length)) x.1 := by
      rw [HttpRequest.dumpHeader, List.append_assoc, List.append_assoc] at hpx
      exact (spells_append.1 hpx).1
    obtain ⟨h2, cs, p, hrun, hdata2⟩ := exec_stopped_name (h := h1) hplaus hpk (hkey.trans hrest.2)
    rw [hfeeds.exec_eq hrest.1 hrun] at hq
    simp only [Except.map, Except.ok.injEq] at hq
    split at hq
    · intro hheaders
      rw [(withBody_eq_some hq).2, hdata2, hdata] at hheaders
      have hsent : x ∈ r.sentHeaders := by
        rw [(sentHeaders_spec hr).2, hall]
        simp
      rw [← hheaders] at hsent
      exact hx (hpre x (((assigned_spec hr pre hall).2 x).1 hsent))
    · cases hq

end Losses

/-! ## The result -/

/-- A request that is sent comes back exactly if the error field of the receiver's parser happens to be zero, the
connection is to be closed, the method is not `M - SEARCH`, no header has a name that begins with a line break or a
value with a byte that the grammar calls a control character. -/
theorem roundTrips_iff {env : Env} {r : HttpRequest} (hsize : env.bufferSize < 2 ^ 31)
    (hcast : env.cast (decimal r.body.length) = some (UInt64.ofNat r.body.length))
    (hfit : r.dump.length ≤ env.bufferSize) (hr : r.Sendable env.object.parser.uriRelaxed) :
    r.RoundTrips env ↔ env.object.error = 0 ∧ r.close = true ∧ r.method ≠ .msearch ∧
      ∀ x ∈ r.headers, Plausible x.1 ∧ 0 ∉ x.2 ∧ 127 ∉ x.2 := by
  have hne : r.dump ≠ [] := by
    rw [dump_eq hr]
    simp
  have hreceived := recvRequest_eq hne hfit hsize
  have hiff : r.RoundTrips env ↔ ∃ q, received env r.dump = .ok (some q) ∧ r.Kept q := by
    rw [← hreceived, HttpRequest.RoundTrips]
    rcases HttpSession.recvRequest env { input := [r.dump] } with f | ⟨o, s⟩
    · simp [Except.map]
    · simp [Except.map]
  rw [hiff]
  constructor
  · rintro ⟨q, hq, hkept⟩
    obtain ⟨herr, hclose⟩ := received_eq_some hq
    have hs : r.method ≠ .msearch := by
      intro hs
      rw [received_msearch hr hs] at hq
      cases hq
    refine ⟨herr, hkept.close.symm.trans hclose, hs, ?_⟩
    rw [← receivable_allHeaders hr]
    by_contra hbad
    exact received_lost hr (by omega) hs hbad hq hkept.headers
  · rintro ⟨herr, hclose, hs, hheaders⟩
    rw [← receivable_allHeaders hr] at hheaders
    have hbody : r.body.length ≤ r.dump.length := by
      rw [dump_eq hr]
      simp only [List.length_append]
      omega
    rw [received_of_receivable hr (by omega) hs hheaders, if_pos herr, withBody_sent hr (by omega) hcast]
    exact ⟨_, rfl, rfl, rfl, rfl, rfl, rfl, rfl, hclose.symm, rfl⟩

section Examples

set_option maxRecDepth 100000

/-- A request with everything that is sent. -/
def posted : HttpRequest :=
  { method := .post
    path := bytes "/a"
    query := bytes "x=1"
    fragment := bytes "top"
    body := bytes "hi"
    headers := [(bytes "Host", bytes "b"), (bytes "X-Mark", [])] }

theorem sendable_posted : posted.Sendable false :=
  { method := by decide
    version := by decide
    websocket := rfl
    path := by decide
    query := by decide
    fragment := by decide
    ordered := by unfold OrderedSet.Ordered; decide
    names := by decide
    values := by decide }

theorem roundTrips_iff_posted : posted.Sendable false ∧ posted.RoundTrips zeroed := by
  refine ⟨sendable_posted, (roundTrips_iff (by decide) (by decide) (by decide) sendable_posted).2 ⟨rfl, rfl, ?_, ?_⟩⟩
  · decide
  · decide

/-- A request that asks to keep the connection. -/
def keptAlive : HttpRequest := { close := false }

theorem sendable_keptAlive : keptAlive.Sendable false :=
  { method := by decide
    version := by decide
    websocket := rfl
    path := by decide
    query := by decide
    fragment := by decide
    ordered := .nil
    names := by decide
    values := by decide }

/-- The receiver keeps the `connection` line and does not read it. -/
theorem keep_alive_lost : keptAlive.Sendable false ∧ keptAlive.dump.length ≤ zeroed.bufferSize ∧
    HttpSession.recvRequest zeroed { input := [keptAlive.dump] } =
      .ok (some { headers := [(bytes "connection", bytes "keep-alive")] }, { input := [] }) ∧
    ¬ keptAlive.RoundTrips zeroed := by
  have hrun : HttpSession.recvRequest zeroed { input := [keptAlive.dump] } =
      .ok (some { headers := [(bytes "connection", bytes "keep-alive")] }, { input := [] }) := by
    decide
  refine ⟨sendable_keptAlive, by decide, hrun, ?_⟩
  rintro ⟨q, s, hq, hkept⟩
  rw [hrun] at hq
  cases hq
  exact absurd hkept.close (by decide)

end Examples

end ServerFrame.Http
