/-
The three maps of a request (`http.h`, `http.cc`): headers, parameters and cookies. They are kept by the same
functions, so the results are told once, for any of them: what is read of a name after a run of calls is decided by
the last call on that name in any case, and the spelling under which `dump` prints it by the first.
-/
import ServerFrame.Http.Headers

namespace ServerFrame.Http

open SortedMap

namespace MapType

/-- Assigning again the same changes nothing. -/
theorem assign_assign (key val : List UInt8) (m : MapType) : (m.assign key val).assign key val = m.assign key val := by
  have hbefore : ∀ y ∈ OrderedSet.before CaseInsensitiveLess Prod.fst key m, CaseInsensitiveLess y.1 key := fun y hy =>
    OrderedSet.lt_of_mem_before hy
  obtain ⟨x, xs, hassign, hge, hle⟩ : ∃ x xs, m.assign key val =
      OrderedSet.before CaseInsensitiveLess Prod.fst key m ++ (x, val) :: xs ∧
        ¬ CaseInsensitiveLess x key ∧ ¬ CaseInsensitiveLess key x := by
    have hirrefl : ¬ CaseInsensitiveLess key key := Std.Irrefl.irrefl key
    unfold assign
    cases hl : OrderedSet.lowerBound CaseInsensitiveLess Prod.fst key m with
    | nil => exact ⟨key, [], rfl, hirrefl, hirrefl⟩
    | cons x xs =>
      dsimp only
      split
      · exact ⟨key, x :: xs, rfl, hirrefl, hirrefl⟩
      · rename_i hlt
        exact ⟨x.1, xs, rfl, OrderedSet.not_lt_of_lowerBound hl, hlt⟩
  rw [hassign]
  generalize OrderedSet.before CaseInsensitiveLess Prod.fst key m = pre at hbefore
  have htake : OrderedSet.before CaseInsensitiveLess Prod.fst key (pre ++ (x, val) :: xs) = pre := by
    unfold OrderedSet.before
    rw [List.takeWhile_append_of_pos (by simpa using hbefore), List.takeWhile_cons_of_neg (by simpa using hge),
      List.append_nil]
  have hdrop : OrderedSet.lowerBound CaseInsensitiveLess Prod.fst key (pre ++ (x, val) :: xs) = (x, val) :: xs := by
    unfold OrderedSet.lowerBound
    rw [List.dropWhile_append_of_pos (by simpa using hbefore), List.dropWhile_cons_of_neg (by simpa using hge)]
  rw [assign, htake, hdrop]
  simp only [if_neg hle]

/-- Entries assigned in sequence. -/
def assignAll (m xs : MapType) : MapType := xs.foldl (fun m x => m.assign x.1 x.2) m

theorem find_assign {m : MapType} (hm : Sorted m) (key key' val : List UInt8) :
    (m.assign key val).find key' = if folded key' = folded key then some val else m.find key' := by
  have hassign : (m.assign key val).entry key' = SortedMap.entry CaseInsensitiveLess key'
      (SortedMap.assign CaseInsensitiveLess key val m) :=
    congrArg (SortedMap.entry CaseInsensitiveLess key') (assign_eq key val m)
  rw [find_eq, hassign, entry_assign folds hm]
  split
  · rfl
  · exact (find_eq key' m).symm

/-- Of entries assigned in sequence a lookup finds the last one with the name, in any case. -/
theorem find_assignAll {m : MapType} (hm : Sorted m) (xs : MapType) (key : List UInt8) :
    (m.assignAll xs).find key =
      ((xs.filter fun x => folded x.1 = folded key).getLast?.map Prod.snd).or (m.find key) := by
  induction xs generalizing m with
  | nil => rfl
  | cons x xs ih =>
    have hsorted : Sorted (m.assign x.1 x.2) := by
      rw [assign_eq]
      exact sorted_assign folds hm
    have hfirst : (m.assignAll (x :: xs)).find key = ((m.assign x.1 x.2).assignAll xs).find key := rfl
    rw [hfirst, ih hsorted, find_assign hm]
    by_cases hkey : folded x.1 = folded key
    · rw [if_pos hkey.symm, List.filter_cons_of_pos (by simpa using hkey), List.getLast?_cons]
      cases (xs.filter fun x => folded x.1 = folded key).getLast? <;> rfl
    · rw [if_neg (Ne.symm hkey), List.filter_cons_of_neg (by simpa using hkey)]

end MapType

/-- A `std::map<std::string, std::string, CaseInsensitiveLess>`. -/
structure StoredMap where
  entries : MapType
  sorted : MapType.Sorted entries

namespace StoredMap

def empty : StoredMap := ⟨[], List.Pairwise.nil⟩

variable (m : StoredMap) (key val d : List UInt8)

def assign : StoredMap := ⟨m.entries.assign key val, by rw [MapType.assign_eq]; exact sorted_assign folds m.sorted⟩

def erase : StoredMap := ⟨m.entries.erase key, sorted_erase folds m.sorted⟩

/-- `*find(key)`. -/
def entry : Option (List UInt8 × List UInt8) := m.entries.entry key

variable {T : Type} (cast : List UInt8 → Option T) (def' : T)

/-- `checkGetAs(m, key, val, def)` with the value it leaves in `val`, `cast` being `boost::lexical_cast<T>`, `none`
where that throws. -/
def checkGetAs : Bool × T :=
  match m.entries.find key with
  | none => (false, def')
  | some val =>
    match cast val with
    | some v => (true, v)
    | none => (false, def')

/-- `getAs(m, key, def)`. -/
def getAs : T :=
  match m.entries.find key with
  | none => def'
  | some val => (cast val).getD def'

/-- What both read of the entry. -/
theorem checkGetAs_eq : m.checkGetAs key cast def' =
    (((m.entry key).bind fun x => cast x.2).isSome, ((m.entry key).bind fun x => cast x.2).getD def') := by
  unfold checkGetAs entry
  rw [MapType.find_eq]
  rcases m.entries.entry key with _ | x
  · rfl
  · simp only [Option.map_some, Option.bind_some]
    cases cast x.2 <;> rfl

/-- The two agree on the value. -/
theorem checkGetAs_snd : (m.checkGetAs key cast def').2 = m.getAs key cast def' := by
  unfold checkGetAs getAs
  cases m.entries.find key with
  | none => rfl
  | some val =>
    dsimp only
    cases cast val <;> rfl

theorem getAs_eq : m.getAs key cast def' = ((m.entry key).bind fun x => cast x.2).getD def' := by
  rw [← checkGetAs_snd, checkGetAs_eq]

end StoredMap

/-! ## The functions of the request -/

/-- Which of the maps. -/
inductive Which
  | headers | params | cookies
deriving DecidableEq

/-- `m_headers`, `m_params` and `m_cookies`. -/
structure RequestMaps where
  headers : StoredMap := .empty
  params : StoredMap := .empty
  cookies : StoredMap := .empty

namespace RequestMaps

def map (r : RequestMaps) : Which → StoredMap
  | .headers => r.headers
  | .params => r.params
  | .cookies => r.cookies

def put (r : RequestMaps) (m : StoredMap) : Which → RequestMaps
  | .headers => { r with headers := m }
  | .params => { r with params := m }
  | .cookies => { r with cookies := m }

variable (w : Which) (r : RequestMaps) (key val d : List UInt8)

def set : RequestMaps := r.put ((r.map w).assign key val) w

def del : RequestMaps := r.put ((r.map w).erase key) w

def get : List UInt8 := ((r.map w).entries.find key).getD d

/-- The result and what `*val` holds afterwards, which held `val`. -/
def has : Bool × List UInt8 :=
  match (r.map w).entries.find key with
  | none => (false, val)
  | some v => (true, v)

def setHeader : RequestMaps := set .headers r key val
def setParam : RequestMaps := set .params r key val
def setCookie : RequestMaps := set .cookies r key val
def delHeader : RequestMaps := del .headers r key
def delParam : RequestMaps := del .params r key
def delCookie : RequestMaps := del .cookies r key
def getHeader : List UInt8 := get .headers r key d
def getParam : List UInt8 := get .params r key d
def getCookie : List UInt8 := get .cookies r key d
def hasHeader : Bool × List UInt8 := has .headers r key val
def hasParam : Bool × List UInt8 := has .params r key val
def hasCookie : Bool × List UInt8 := has .cookies r key val

section Typed

variable {T : Type} (cast : List UInt8 → Option T) (def' : T)

/-- `checkGetHeaderAs` and the like: the result and what they leave in `val`. -/
def checkGetMapAs : Bool × T := (r.map w).checkGetAs key cast def'

/-- `getHeaderAs` and the like. -/
def getMapAs : T := (r.map w).getAs key cast def'

def checkGetHeaderAs : Bool × T := checkGetMapAs .headers r key cast def'
def checkGetParamAs : Bool × T := checkGetMapAs .params r key cast def'
def checkGetCookieAs : Bool × T := checkGetMapAs .cookies r key cast def'
def getHeaderAs : T := getMapAs .headers r key cast def'
def getParamAs : T := getMapAs .params r key cast def'
def getCookieAs : T := getMapAs .cookies r key cast def'

end Typed

/-- A call that changes one of the maps. -/
inductive Call
  | set (w : Which) (key val : List UInt8)
  | del (w : Which) (key : List UInt8)
  | setAll (w : Which) (m : StoredMap)

/-- `setHeader`, `delHeader`, `setHeaders` and the like. -/
def call (r : RequestMaps) : Call → RequestMaps
  | .set .headers key val => setHeader r key val
  | .set .params key val => setParam r key val
  | .set .cookies key val => setCookie r key val
  | .del .headers key => delHeader r key
  | .del .params key => delParam r key
  | .del .cookies key => delCookie r key
  | .setAll w m => r.put m w

/-- The maps after a sequence of calls. -/
def calls (r : RequestMaps) (cs : List Call) : RequestMaps := cs.foldl call r

/-- The call is about the name in this map. -/
def Call.Touches (w : Which) (key : List UInt8) : Call → Prop
  | .set w' key' _ => w' = w ∧ folded key' = folded key
  | .del w' key' => w' = w ∧ folded key' = folded key
  | .setAll w' _ => w' = w

@[simp] theorem map_put_self (m : StoredMap) : (r.put m w).map w = m := by cases w <;> rfl

@[simp] theorem map_put_ne {w' : Which} (h : w ≠ w') (m : StoredMap) : (r.put m w).map w' = r.map w' := by
  cases w <;> cases w' <;> first | rfl | exact absurd rfl h

theorem call_set : r.call (.set w key val) = set w r key val := by cases w <;> rfl

theorem call_del : r.call (.del w key) = del w r key := by cases w <;> rfl

/-! ## One call -/

variable {w r key val} {key' : List UInt8} {w' : Which}

theorem entry_set : ((set w r key val).map w').entry key' =
    if w = w' ∧ folded key' = folded key then some (spelling CaseInsensitiveLess key (r.map w).entries, val)
    else (r.map w').entry key' := by
  unfold set
  by_cases hw : w = w'
  · subst hw
    rw [map_put_self]
    have hassign : ((r.map w).assign key val).entry key' = SortedMap.entry CaseInsensitiveLess key'
        (SortedMap.assign CaseInsensitiveLess key val (r.map w).entries) :=
      congrArg (SortedMap.entry CaseInsensitiveLess key') (MapType.assign_eq ..)
    rw [hassign, entry_assign folds (r.map w).sorted]
    simp only [true_and]
    rfl
  · rw [map_put_ne _ _ hw, if_neg fun h => hw h.1]

theorem entry_del : ((del w r key).map w').entry key' =
    if w = w' ∧ folded key' = folded key then none else (r.map w').entry key' := by
  unfold del
  by_cases hw : w = w'
  · subst hw
    rw [map_put_self]
    simp only [true_and]
    exact entry_erase folds (r.map w).sorted
  · rw [map_put_ne _ _ hw, if_neg fun h => hw h.1]

/-- A call that is not about the name leaves what is read of it. -/
theorem entry_call {c : Call} (h : ¬ c.Touches w key) : ((r.call c).map w).entry key = (r.map w).entry key := by
  cases c with
  | set w' key' val =>
    rw [call_set, entry_set, if_neg]
    exact fun hc => h ⟨hc.1, hc.2.symm⟩
  | del w' key' =>
    rw [call_del, entry_del, if_neg]
    exact fun hc => h ⟨hc.1, hc.2.symm⟩
  | setAll w' m => exact congrArg (StoredMap.entry · key) (map_put_ne w' r h m)

/-! ## A run of calls -/

theorem get_eq (r : RequestMaps) (w : Which) (key d : List UInt8) :
    get w r key d = (((r.map w).entry key).map Prod.snd).getD d := by
  unfold get
  rw [MapType.find_eq]
  rfl

theorem has_eq (r : RequestMaps) (w : Which) (key val : List UInt8) :
    has w r key val = (((r.map w).entry key).isSome, (((r.map w).entry key).map Prod.snd).getD val) := by
  unfold has
  rw [MapType.find_eq]
  change (match ((r.map w).entry key).map Prod.snd with | none => _ | some v => _) = _
  cases (r.map w).entry key <;> rfl

/-- Calls that do not delete the name or replace its map leave it the entry's spelling. -/
def Call.Keeps (w : Which) (key : List UInt8) : Call → Prop
  | .set .. => True
  | c => ¬ c.Touches w key

/-- The value a call leaves under a name that held `v`. -/
def Call.value (w : Which) (key v : List UInt8) : Call → List UInt8
  | .set w' key' val => if w' = w ∧ folded key' = folded key then val else v
  | _ => v

/-- The value the last of the calls on a name leaves where `v` was before. -/
def lastValue (w : Which) (key v : List UInt8) (cs : List Call) : List UInt8 :=
  cs.foldl (fun v c => c.value w key v) v

theorem entry_kept {c : Call} (hc : c.Keeps w key) {k v : List UInt8} (h : (r.map w).entry key = some (k, v)) :
    ((r.call c).map w).entry key = some (k, c.value w key v) := by
  cases c with
  | set w' key' val =>
    rw [call_set, entry_set, Call.value]
    by_cases hw : w' = w ∧ folded key' = folded key
    · rw [if_pos ⟨hw.1, hw.2.symm⟩, if_pos hw]
      obtain ⟨rfl, hw⟩ := hw
      have hsame : SortedMap.entry CaseInsensitiveLess key' (r.map w').entries = some (k, v) := by
        rw [← h]
        exact entry_congr folds (r.map w').sorted hw
      rw [spelling, hsame]
    · rw [if_neg fun hc => hw ⟨hc.1, hc.2.symm⟩, if_neg hw]
      exact h
  | del w' key' =>
    rw [entry_call hc]
    exact h
  | setAll w' m =>
    rw [entry_call hc]
    exact h

theorem entry_kept_calls {cs : List Call} (hcs : ∀ c ∈ cs, c.Keeps w key) {k v : List UInt8}
    (h : (r.map w).entry key = some (k, v)) :
    ((r.calls cs).map w).entry key = some (k, lastValue w key v cs) := by
  induction cs generalizing r v with
  | nil => exact h
  | cons c cs ih =>
    exact ih (fun c hc => hcs c (List.mem_cons_of_mem _ hc)) (entry_kept (hcs c (List.mem_cons_self ..)) h)

open History in
/-- The value is that of the last set on the name, in any case, and the first one's where no other came. -/
theorem lastValue_spec (w : Which) (key v : List UInt8) (cs : List Call) :
    (∀ n k v', LastAt (Call.Touches w key) cs n (.set w k v') → lastValue w key v cs = v') ∧
      ((∀ c ∈ cs, ¬ c.Touches w key) → lastValue w key v cs = v) := by
  have hkeep : ∀ (v : List UInt8) (c : Call), ¬ c.Touches w key → c.value w key v = v := fun v c hc => by
    cases c with
    | set w' key' val => exact if_neg hc
    | del w' key' => rfl
    | setAll w' m => rfl
  refine ⟨fun n k v' h => ?_, fun h => ?_⟩
  · exact h.read_foldl (fun v => v) hkeep (fun v => if_pos ⟨rfl, h.1.2⟩) v
  · exact read_foldl (fun v => v) hkeep h v

open History in
/-- What the getters read of a name after a run of calls is what the last call on it, in any case, has left: the value
of a set, nothing after a deletion, what a replaced map has; and without such a call what was there before. -/
theorem read_calls {T : Type} (cast : List UInt8 → Option T) (def' : T) (r : RequestMaps) (cs : List Call) (w : Which)
    (key d : List UInt8) :
    (∀ n k v, LastAt (Call.Touches w key) cs n (.set w k v) →
      get w (r.calls cs) key d = v ∧ has w (r.calls cs) key d = (true, v) ∧
      getMapAs w (r.calls cs) key cast def' = (cast v).getD def' ∧
      checkGetMapAs w (r.calls cs) key cast def' = ((cast v).isSome, (cast v).getD def')) ∧
    (∀ n k, LastAt (Call.Touches w key) cs n (.del w k) →
      get w (r.calls cs) key d = d ∧ has w (r.calls cs) key d = (false, d) ∧
      getMapAs w (r.calls cs) key cast def' = def' ∧
      checkGetMapAs w (r.calls cs) key cast def' = (false, def')) ∧
    (∀ n m, LastAt (Call.Touches w key) cs n (.setAll w m) →
      get w (r.calls cs) key d = (m.entries.find key).getD d ∧
      (has w (r.calls cs) key d).1 = (m.entries.find key).isSome ∧
      getMapAs w (r.calls cs) key cast def' = m.getAs key cast def' ∧
      checkGetMapAs w (r.calls cs) key cast def' = m.checkGetAs key cast def') ∧
    ((∀ c ∈ cs, ¬ c.Touches w key) →
      get w (r.calls cs) key d = get w r key d ∧ has w (r.calls cs) key d = has w r key d ∧
      getMapAs w (r.calls cs) key cast def' = getMapAs w r key cast def' ∧
      checkGetMapAs w (r.calls cs) key cast def' = checkGetMapAs w r key cast def') := by
  simp only [get_eq, has_eq, getMapAs, checkGetMapAs, StoredMap.getAs_eq, StoredMap.checkGetAs_eq]
  have hkeep : ∀ (s : RequestMaps) (c : Call), ¬ c.Touches w key →
      ((s.call c).map w).entry key = (s.map w).entry key := fun s c hc => entry_call hc
  refine ⟨fun n k v h => ?_, fun n k h => ?_, fun n m h => ?_, fun h => ?_⟩
  · obtain ⟨k', hread⟩ : ∃ k', ((r.calls cs).map w).entry key = some (k', v) := by
      have hvalue : (((r.calls cs).map w).entry key).map Prod.snd = some v :=
        h.read_foldl (fun s : RequestMaps => ((s.map w).entry key).map Prod.snd)
          (fun s c hc => congrArg _ (hkeep s c hc)) (fun s => by
            simp only [call_set]
            rw [entry_set, if_pos ⟨rfl, h.1.2.symm⟩]
            rfl) r
      obtain ⟨x, hx, rfl⟩ := Option.map_eq_some_iff.1 hvalue
      exact ⟨x.1, hx⟩
    rw [hread]
    exact ⟨rfl, rfl, rfl, rfl⟩
  · have hread : ((r.calls cs).map w).entry key = none :=
      h.read_foldl (fun s : RequestMaps => (s.map w).entry key) hkeep (fun s => by
        simp only [call_del]
        rw [entry_del, if_pos ⟨rfl, h.1.2.symm⟩]) r
    rw [hread]
    exact ⟨rfl, rfl, rfl, rfl⟩
  · have hread : ((r.calls cs).map w).entry key = m.entry key :=
      h.read_foldl (fun s : RequestMaps => (s.map w).entry key) hkeep (fun s =>
        congrArg (StoredMap.entry · key) (map_put_self w s m)) r
    rw [hread, MapType.find_eq, Option.isSome_map]
    exact ⟨rfl, rfl, rfl, rfl⟩
  · have hread : ((r.calls cs).map w).entry key = (r.map w).entry key :=
      read_foldl (fun s : RequestMaps => (s.map w).entry key) hkeep h r
    rw [hread]
    exact ⟨rfl, rfl, rfl, rfl⟩

/-- The spelling of a name in the map, under which `dump` prints it, is that of the set that brought it in; later sets
change the value only, to that of the last one, until it is deleted or the map replaced. -/
theorem spelling_calls {r : RequestMaps} {w : Which} {key k v : List UInt8} {before after : List Call}
    (hkey : folded k = folded key) (hnew : (has w (r.calls before) key []).1 = false)
    (hafter : ∀ c ∈ after, c.Keeps w key) :
    (k, lastValue w key v after) ∈ ((r.calls (before ++ .set w k v :: after)).map w).entries ∧
      (∀ x ∈ ((r.calls (before ++ .set w k v :: after)).map w).entries, folded x.1 = folded key →
        x = (k, lastValue w key v after)) ∧
      (∀ n k' v', History.LastAt (Call.Touches w key) after n (.set w k' v') → lastValue w key v after = v') ∧
      ((∀ c ∈ after, ¬ c.Touches w key) → lastValue w key v after = v) := by
  have hnone : ((r.calls before).map w).entry key = none := by
    rw [has_eq] at hnew
    exact Option.isSome_eq_false_iff.1 hnew |> Option.isNone_iff_eq_none.1
  have hset : (((r.calls before).call (.set w k v)).map w).entry key = some (k, v) := by
    rw [call_set, entry_set, if_pos ⟨rfl, hkey.symm⟩, spelling]
    have hsame : SortedMap.entry CaseInsensitiveLess k ((r.calls before).map w).entries = none := by
      rw [← hnone]
      exact entry_congr folds ((r.calls before).map w).sorted hkey
    rw [hsame]
  have hlast : ((r.calls (before ++ .set w k v :: after)).map w).entry key = some (k, lastValue w key v after) := by
    have hcalls : r.calls (before ++ .set w k v :: after) = ((r.calls before).call (.set w k v)).calls after := by
      unfold calls
      rw [List.foldl_append, List.foldl_cons]
    rw [hcalls]
    exact entry_kept_calls hafter hset
  refine ⟨((entry_eq_some folds (StoredMap.sorted _)).1 hlast).1, fun x hx hfold => ?_, lastValue_spec w key v after⟩
  have hentry := (entry_eq_some folds (StoredMap.sorted _)).2 ⟨hx, hfold⟩
  exact Option.some.inj (hentry.symm.trans hlast)

theorem spelling_calls_host :
    (bytes "Host", bytes "b") ∈ ((calls {} ([] ++ .set .headers (bytes "Host") (bytes "a") ::
      [.set .headers (bytes "HOST") (bytes "b"), .del .params (bytes "host")])).map .headers).entries :=
  (spelling_calls (by decide : folded (bytes "Host") = folded (bytes "host")) (by decide) (by
    intro c hc
    rcases List.mem_cons.1 hc with rfl | hc
    · exact trivial
    · rw [List.mem_singleton.1 hc]
      exact fun h => Which.noConfusion h.1)).1

/-! ## The order of the calls -/

/-- Maps in which every name is read and spelled alike are the same. -/
theorem ext_entry {r r' : RequestMaps} (h : ∀ w key, (r.map w).entry key = (r'.map w).entry key) : r = r' := by
  have hmap : ∀ w, r.map w = r'.map w := fun w => by
    have hentries : (r.map w).entries = (r'.map w).entries :=
      SortedMap.ext_entry folds (r.map w).sorted (r'.map w).sorted (h w)
    cases hr : r.map w
    cases hr' : r'.map w
    rw [hr, hr'] at hentries
    cases hentries
    rfl
  obtain ⟨headers, params, cookies⟩ := r
  obtain ⟨headers', params', cookies'⟩ := r'
  obtain rfl : headers = headers' := hmap .headers
  obtain rfl : params = params' := hmap .params
  obtain rfl : cookies = cookies' := hmap .cookies
  rfl

/-- What a call leaves of a name depends on what was there of that name only. -/
theorem entry_call_congr {r r' : RequestMaps} {w : Which} {key : List UInt8} (c : Call)
    (h : (r.map w).entry key = (r'.map w).entry key) :
    ((r.call c).map w).entry key = ((r'.call c).map w).entry key := by
  cases c with
  | set w' key' val =>
    rw [call_set, call_set, entry_set, entry_set]
    split
    · rename_i hw
      obtain ⟨rfl, hkey⟩ := hw
      have hsame : SortedMap.entry CaseInsensitiveLess key' (r.map w').entries =
          SortedMap.entry CaseInsensitiveLess key' (r'.map w').entries :=
        (entry_congr folds (r.map w').sorted hkey.symm).trans
          (h.trans (entry_congr folds (r'.map w').sorted hkey))
      rw [spelling, spelling, hsame]
    · exact h
  | del w' key' =>
    rw [call_del, call_del, entry_del, entry_del, h]
  | setAll w' m =>
    by_cases hw : w' = w
    · subst hw
      exact congrArg (StoredMap.entry · key) ((map_put_self w' r m).trans (map_put_self w' r' m).symm)
    · have hkeep : ∀ s : RequestMaps, ((s.call (.setAll w' m)).map w).entry key = (s.map w).entry key := fun s =>
        entry_call hw
      rw [hkeep, hkeep, h]

/-- No name is touched by both calls. -/
def Call.Apart (c c' : Call) : Prop := ∀ w key, c.Touches w key → ¬ c'.Touches w key

theorem call_comm {c c' : Call} (h : c.Apart c') (r : RequestMaps) : (r.call c).call c' = (r.call c').call c := by
  refine ext_entry fun w key => ?_
  by_cases hc : c.Touches w key
  · rw [entry_call (h w key hc)]
    exact (entry_call_congr c (entry_call (h w key hc))).symm
  · rw [entry_call hc]
    exact entry_call_congr c' (entry_call hc)

/-- Calls about different names can be made in any order: the maps, and with them the text of `dump`, are the same. -/
theorem calls_perm {cs cs' : List Call} (hperm : cs.Perm cs') (hapart : cs.Pairwise Call.Apart) (r : RequestMaps) :
    r.calls cs = r.calls cs' := by
  induction hperm generalizing r with
  | nil => rfl
  | cons c _ ih => exact ih (List.pairwise_cons.1 hapart).2 (r.call c)
  | swap c c' cs =>
    have hcomm := call_comm ((List.pairwise_cons.1 hapart).1 c (List.mem_cons_self ..)) r
    exact congrArg (calls · cs) hcomm
  | trans h _ ih ih' =>
    exact (ih hapart r).trans (ih' (h.pairwise hapart fun {c c'} hc w key hc' hcw => hc w key hcw hc') r)

theorem calls_perm_host :
    calls {} [.set .headers (bytes "Host") (bytes "a"), .del .headers (bytes "sid"),
        .set .headers (bytes "Accept") (bytes "b")] =
      calls {} [.set .headers (bytes "Accept") (bytes "b"), .set .headers (bytes "Host") (bytes "a"),
        .del .headers (bytes "sid")] := by
  have hswap : ∀ a b c : Call, [a, b, c].Perm [c, a, b] := fun a b c =>
    show ([a, b] ++ [c]).Perm ([c] ++ [a, b]) from List.perm_append_comm
  refine calls_perm (hswap ..) (.cons ?_ (.cons ?_ (.cons ?_ .nil))) {}
  · rintro c hc w key ⟨rfl, htouched⟩
    rcases List.mem_cons.1 hc with rfl | hc
    · rintro ⟨-, h⟩
      exact (by decide : folded (bytes "sid") ≠ folded (bytes "Host")) (h.trans htouched.symm)
    · rw [List.mem_singleton.1 hc]
      rintro ⟨-, h⟩
      exact (by decide : folded (bytes "Accept") ≠ folded (bytes "Host")) (h.trans htouched.symm)
  · rintro c hc w key ⟨rfl, htouched⟩
    rw [List.mem_singleton.1 hc]
    rintro ⟨-, h⟩
    exact (by decide : folded (bytes "Accept") ≠ folded (bytes "sid")) (h.trans htouched.symm)
  · intro c hc
    cases hc

end RequestMaps

end ServerFrame.Http
