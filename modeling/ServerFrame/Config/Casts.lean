/-
The `LexicalCast`s of `config.h` between containers and YAML text, over a YAML library that is a parameter. A container
is printed as the tree of its elements' own texts, read again; and it is filled from the texts that the elements of the
tree are printed as. So an element goes through text, tree and text before its cast sees it again.
-/
import ServerFrame.Config.Yaml
import ServerFrame.Lib.Containers
import ServerFrame.Log.Changes

namespace ServerFrame.Config

open Http (bytes)

/-- The YAML library: what a text is read as, unless it throws, what a tree is printed as, and what `node[i]` of a map
is printed as. -/
structure Yaml where
  load : List UInt8 → Option Node
  emit : Node → List UInt8
  index : List (List UInt8 × Node) → Nat → List UInt8

/-- `LexicalCast<T, std::string>` and `LexicalCast<std::string, T>`, which may throw. -/
structure Cast (α : Type) where
  toString : α → Option (List UInt8)
  fromString : List UInt8 → Option α

/-- `node[key] = value`. -/
def setEntry (entries : List (List UInt8 × Node)) (e : List UInt8 × Node) : List (List UInt8 × Node) :=
  if entries.any fun x => x.1 = e.1 then entries.map fun x => if x.1 = e.1 then e else x else entries ++ [e]

namespace Yaml

variable (y : Yaml) {α γ : Type}

/-- What `ss << node[i]` puts out for every `i` below `node.size()`. -/
def texts : Node → List (List UInt8)
  | .null | .scalar _ => []
  | .sequence elements => elements.map y.emit
  | .map entries => (List.range entries.length).map (y.index entries)

/-- The keys of the iterators of a node, and what `ss << it->second` puts out. An element of a sequence has none. -/
def pairs : Node → Option (List (List UInt8 × List UInt8))
  | .null | .scalar _ | .sequence [] => some []
  | .sequence (_ :: _) => none
  | .map entries => some (entries.map fun e => (e.1, y.emit e.2))

/-- `YAML::Load(LexicalCast<T, std::string>()(i))`. -/
def node (c : Cast α) (i : α) : Option Node := (c.toString i).bind y.load

/-- The casts of a container that is printed as a sequence. -/
def sequenceCast (C : Container γ α) (c : Cast α) : Cast γ where
  toString v := ((C.elements v).mapM (y.node c)).map fun nodes => y.emit (.sequence nodes)
  fromString t := (y.load t).bind fun node =>
    (y.texts node).foldlM (fun vec s => (c.fromString s).map (C.push vec)) C.empty

/-- The casts of a container that is printed as a map. -/
def mapCast (C : Container γ (List UInt8 × α)) (c : Cast α) : Cast γ where
  toString v := ((C.elements v).mapM fun i => (y.node c i.2).map (Prod.mk i.1)).map fun entries =>
    y.emit (.map (entries.foldl setEntry []))
  fromString t := (y.load t).bind fun node => (y.pairs node).bind fun pairs =>
    pairs.foldlM (fun vec e => ((c.fromString e.2).map (Prod.mk e.1)).map (C.push vec)) C.empty

def vector (c : Cast α) : Cast (List α) := y.sequenceCast Container.sequence c

def list (c : Cast α) : Cast (List α) := y.sequenceCast Container.sequence c

/-- `std::set<T>`, under the order of a key. -/
def set {κ : Type} (lt : κ → κ → Prop) [DecidableRel lt] [IsTrans κ lt] (key : α → κ) (c : Cast α) :
    Cast { s : List α // OrderedSet.Ordered lt key s } :=
  y.sequenceCast (Container.ordered lt key) c

/-- `std::unordered_set<T>`, in whatever order it is walked. -/
def unordered_set [DecidableEq α] (order : Finset α → List α) (h : ∀ s, (order s).toFinset = s) (c : Cast α) :
    Cast (Finset α) :=
  y.sequenceCast (Container.unorderedSet order h) c

/-- `std::map<std::string, T>`. -/
def map (c : Cast α) :
    Cast { s : List (List UInt8 × α) // OrderedSet.Ordered (fun a b : List UInt8 => a < b) Prod.fst s } :=
  y.mapCast (Container.ordered (fun a b : List UInt8 => a < b) Prod.fst) c

/-- `std::unordered_map<std::string, T>`. -/
def unordered_map (order : Finmap (fun _ : List UInt8 => α) → List (List UInt8 × α))
    (hnodup : ∀ m, ((order m).map Prod.fst).Nodup) (h : ∀ m k v, (k, v) ∈ order m ↔ m.lookup k = some v) (c : Cast α) :
    Cast (Finmap fun _ : List UInt8 => α) :=
  y.mapCast (Container.unorderedMap order hnodup h) c

/-! ## Round trips -/

/-- The library reads a tree back from what it prints. -/
def Reads (n : Node) : Prop := y.load (y.emit n) = some n

/-- A value comes back from its text. -/
def Returns (c : Cast α) (x : α) : Prop := (c.toString x).bind c.fromString = some x

/-- A value comes back from the text that the tree of its text is printed as. -/
def Survives (c : Cast α) (x : α) : Prop := ((y.node c x).map y.emit).bind c.fromString = some x

end Yaml

section Lists

variable {α β : Type}

/-- A list survives a function and one back, each of which may fail, when its elements do. -/
theorem mapM_survives {f : α → Option β} {g : β → Option α} : ∀ {xs : List α},
    (xs.mapM f).bind (List.mapM g) = some xs ↔ ∀ x ∈ xs, (f x).bind g = some x
  | [] => by simp
  | x :: xs => by
    rw [List.mapM_cons, List.forall_mem_cons, ← mapM_survives]
    cases hf : f x with
    | none => simp
    | some b =>
      cases hfs : xs.mapM f with
      | none => simp
      | some bs =>
        change (b :: bs).mapM g = _ ↔ g b = _ ∧ bs.mapM g = _
        rw [List.mapM_cons]
        cases g b <;> cases bs.mapM g <;> simp

/-- The keys of a map stay when its values go through a function. -/
theorem keys_mapM {f : α → Option β} : ∀ {xs : List (List UInt8 × α)} {ys : List (List UInt8 × β)},
    (xs.mapM fun i => (f i.2).map (Prod.mk i.1)) = some ys → ys.map Prod.fst = xs.map Prod.fst
  | [], ys, h => by
    cases h
    rfl
  | x :: xs, ys, h => by
    rw [List.mapM_cons] at h
    cases hx : f x.2 with
    | none => simp [hx] at h
    | some b =>
      cases hxs : xs.mapM fun i => (f i.2).map (Prod.mk i.1) with
      | none => simp [hx, hxs] at h
      | some bs =>
        have hys : (x.1, b) :: bs = ys := by simpa [hx, hxs] using h
        rw [← hys, List.map_cons, List.map_cons, keys_mapM hxs]

theorem setEntry_new {entries : List (List UInt8 × Node)} {e : List UInt8 × Node}
    (h : e.1 ∉ entries.map Prod.fst) : setEntry entries e = entries ++ [e] := by
  refine if_neg ?_
  simp only [List.any_eq_true, decide_eq_true_eq, not_exists, not_and]
  exact fun x hx he => h (List.mem_map.2 ⟨x, hx, he⟩)

/-- Entries with different keys are put one behind the other. -/
theorem foldl_setEntry : ∀ {l entries : List (List UInt8 × Node)}, ((entries ++ l).map Prod.fst).Nodup →
    l.foldl setEntry entries = entries ++ l
  | [], entries, _ => (List.append_nil entries).symm
  | e :: l, entries, h => by
    have hnew : e.1 ∉ entries.map Prod.fst := by
      rw [List.map_append, List.nodup_append] at h
      intro hmem
      exact h.2.2 _ hmem _ (List.mem_cons_self ..) rfl
    rw [List.foldl_cons, setEntry_new hnew, foldl_setEntry (by rw [List.append_assoc]; exact h), List.append_assoc]
    rfl

end Lists

section RoundTrips

variable {y : Yaml} {α γ : Type} {c : Cast α} {v : γ}

/-- What the elements of a container become between its casts: nothing else comes between. -/
theorem sequenceCast_eq {C : Container γ α}
    (hread : ∀ nodes, (C.elements v).mapM (y.node c) = some nodes → y.Reads (.sequence nodes)) :
    ((y.sequenceCast C c).toString v).bind (y.sequenceCast C c).fromString =
      (((C.elements v).mapM (y.node c)).bind (List.mapM fun n => c.fromString (y.emit n))).map
        (List.foldl C.push C.empty) := by
  change (((C.elements v).mapM (y.node c)).map fun nodes => y.emit (.sequence nodes)).bind _ = _
  cases hnodes : (C.elements v).mapM (y.node c) with
  | none => rfl
  | some nodes =>
    have hload : y.load (y.emit (.sequence nodes)) = some (.sequence nodes) := hread nodes hnodes
    change (y.load (y.emit (.sequence nodes))).bind _ = _
    rw [hload]
    change (nodes.map y.emit).foldlM (fun vec s => (c.fromString s).map (C.push vec)) C.empty = _
    rw [Container.foldlM_push, List.mapM_map]
    rfl

theorem mapCast_eq {C : Container γ (List UInt8 × α)} (hkeys : ((C.elements v).map Prod.fst).Nodup)
    (hread : ∀ entries, ((C.elements v).mapM fun i => (y.node c i.2).map (Prod.mk i.1)) = some entries →
      y.Reads (.map entries)) :
    ((y.mapCast C c).toString v).bind (y.mapCast C c).fromString =
      (((C.elements v).mapM fun i => (y.node c i.2).map (Prod.mk i.1)).bind
        (List.mapM fun e => (c.fromString (y.emit e.2)).map (Prod.mk e.1))).map (List.foldl C.push C.empty) := by
  change (((C.elements v).mapM fun i => (y.node c i.2).map (Prod.mk i.1)).map fun entries =>
    y.emit (.map (entries.foldl setEntry []))).bind _ = _
  cases hentries : (C.elements v).mapM fun i => (y.node c i.2).map (Prod.mk i.1) with
  | none => rfl
  | some entries =>
    have hfold : entries.foldl setEntry [] = entries :=
      foldl_setEntry (by rw [List.nil_append, keys_mapM hentries]; exact hkeys)
    have hload : y.load (y.emit (.map entries)) = some (.map entries) := hread entries hentries
    change (y.load (y.emit (.map (entries.foldl setEntry [])))).bind _ = _
    rw [hfold, hload]
    change (entries.map fun e => (e.1, y.emit e.2)).foldlM
      (fun vec e => ((c.fromString e.2).map (Prod.mk e.1)).map (C.push vec)) C.empty = _
    rw [Container.foldlM_push, List.mapM_map]
    rfl

/-- Where the library prints the tree of a text as that text, one more reading changes nothing. -/
theorem survives_iff_returns {c : Cast γ} (h : ∀ t, c.toString v = some t → (y.load t).map y.emit = some t) :
    y.Survives c v ↔ Yaml.Returns c v := by
  unfold Yaml.Survives Yaml.Returns Yaml.node
  cases ht : c.toString v with
  | none => rfl
  | some t =>
    change ((y.load t).map y.emit).bind c.fromString = some v ↔ _
    rw [h t ht]

theorem sequenceCast_survives {C : Container γ α}
    (hread : ∀ nodes, (C.elements v).mapM (y.node c) = some nodes → y.Reads (.sequence nodes)) :
    y.Survives (y.sequenceCast C c) v ↔ Yaml.Returns (y.sequenceCast C c) v := by
  refine survives_iff_returns fun t ht => ?_
  obtain ⟨nodes, hnodes, rfl⟩ := Option.map_eq_some_iff.1 ht
  rw [hread nodes hnodes, Option.map_some]

theorem mapCast_survives {C : Container γ (List UInt8 × α)} (hkeys : ((C.elements v).map Prod.fst).Nodup)
    (hread : ∀ entries, ((C.elements v).mapM fun i => (y.node c i.2).map (Prod.mk i.1)) = some entries →
      y.Reads (.map entries)) :
    y.Survives (y.mapCast C c) v ↔ Yaml.Returns (y.mapCast C c) v := by
  refine survives_iff_returns fun t ht => ?_
  obtain ⟨entries, hentries, rfl⟩ := Option.map_eq_some_iff.1 ht
  have hfold : entries.foldl setEntry [] = entries :=
    foldl_setEntry (by rw [List.nil_append, keys_mapM hentries]; exact hkeys)
  rw [hfold, hread entries hentries, Option.map_some]

/-- An entry goes through the casts of its value. -/
theorem entry_survives {e : List UInt8 × α} :
    ((y.node c e.2).map (Prod.mk e.1)).bind (fun e => (c.fromString (y.emit e.2)).map (Prod.mk e.1)) = some e ↔
      y.Survives c e.2 := by
  unfold Yaml.Survives
  cases y.node c e.2 with
  | none => simp
  | some n =>
    change (c.fromString (y.emit n)).map (Prod.mk e.1) = some e ↔ c.fromString (y.emit n) = some e.2
    cases c.fromString (y.emit n) <;> simp [Prod.ext_iff]

theorem element_survives {x : α} : ((y.node c x).bind fun n => c.fromString (y.emit n)) = some x ↔ y.Survives c x := by
  unfold Yaml.Survives
  rw [Option.bind_map]
  rfl

/-- A container comes back when its elements survive. -/
theorem sequenceCast_returns {C : Container γ α}
    (hread : ∀ nodes, (C.elements v).mapM (y.node c) = some nodes → y.Reads (.sequence nodes))
    (h : ∀ x ∈ C.elements v, y.Survives c x) : Yaml.Returns (y.sequenceCast C c) v := by
  have hall := mapM_survives.2 fun x hx => element_survives.2 (h x hx)
  rw [Yaml.Returns, sequenceCast_eq hread, hall]
  exact congrArg some (C.rebuild v)

theorem mapCast_returns {C : Container γ (List UInt8 × α)} (hkeys : ((C.elements v).map Prod.fst).Nodup)
    (hread : ∀ entries, ((C.elements v).mapM fun i => (y.node c i.2).map (Prod.mk i.1)) = some entries →
      y.Reads (.map entries))
    (h : ∀ e ∈ C.elements v, y.Survives c e.2) : Yaml.Returns (y.mapCast C c) v := by
  have hall := mapM_survives.2 fun e he => entry_survives.2 (h e he)
  rw [Yaml.Returns, mapCast_eq hkeys hread, hall]
  exact congrArg some (C.rebuild v)

/-- The keys of a map differ. -/
theorem keys_nodup
    (m : { s : List (List UInt8 × α) // OrderedSet.Ordered (fun a b : List UInt8 => a < b) Prod.fst s }) :
    (m.1.map Prod.fst).Nodup := by
  refine List.pairwise_map.2 (List.Pairwise.imp (fun {a b} hab heq => ?_) m.2)
  rw [heq] at hab
  exact absurd hab (Std.Irrefl.irrefl (r := fun a b : List UInt8 => a < b) b.1)

/-- A vector comes back exactly when all its elements survive, and so does a map with the values of its entries. -/
theorem vector_and_map_return_iff (v : List α)
    (m : { s : List (List UInt8 × α) // OrderedSet.Ordered (fun a b : List UInt8 => a < b) Prod.fst s })
    (hv : ∀ nodes, v.mapM (y.node c) = some nodes → y.Reads (.sequence nodes))
    (hm : ∀ entries, (m.1.mapM fun i => (y.node c i.2).map (Prod.mk i.1)) = some entries → y.Reads (.map entries)) :
    (Yaml.Returns (y.vector c) v ↔ ∀ x ∈ v, y.Survives c x) ∧
      (Yaml.Returns (y.map c) m ↔ ∀ e ∈ m.1, y.Survives c e.2) := by
  refine ⟨⟨fun h x hx => ?_, fun h => sequenceCast_returns hv h⟩,
    ⟨fun h e he => ?_, fun h => mapCast_returns (keys_nodup m) hm h⟩⟩
  · unfold Yaml.Returns Yaml.vector at h
    rw [sequenceCast_eq hv] at h
    obtain ⟨l, hl, hpush⟩ := Option.map_eq_some_iff.1 h
    have hl' : l = v := (Container.sequence.rebuild l).symm.trans hpush
    subst hl'
    exact element_survives.1 (mapM_survives.1 hl x hx)
  · unfold Yaml.Returns Yaml.map at h
    rw [mapCast_eq (keys_nodup m) hm] at h
    obtain ⟨l, hl, hpush⟩ := Option.map_eq_some_iff.1 h
    -- what is read has the keys of the map, in their order
    have hkeys : l.map Prod.fst = m.1.map Prod.fst := by
      obtain ⟨entries, hentries, hl⟩ := Option.bind_eq_some_iff.1 hl
      have hread := keys_mapM (f := fun n => c.fromString (y.emit n)) hl
      exact hread.trans (keys_mapM hentries)
    have hordered : OrderedSet.Ordered (fun a b : List UInt8 => a < b) Prod.fst l := by
      have hm := List.pairwise_map.2 m.2
      rw [← hkeys] at hm
      exact List.pairwise_map.1 hm
    have hsame : m = ⟨l, hordered⟩ := hpush.symm.trans
      ((Container.ordered (fun a b : List UInt8 => a < b) Prod.fst).rebuild ⟨l, hordered⟩)
    subst hsame
    exact entry_survives.1 (mapM_survives.1 hl e he)

end RoundTrips

/-- A YAML library that knows a sequence, two maps and their texts. -/
def sample : Yaml where
  load t :=
    if t = bytes "- a\n- b" then some (.sequence [.scalar (bytes "a"), .scalar (bytes "b")])
    else if t = bytes "k: a" then some (.map [(bytes "k", .scalar (bytes "a"))])
    else if t = bytes "k:\n  - a\n  - b" then
      some (.map [(bytes "k", .sequence [.scalar (bytes "a"), .scalar (bytes "b")])])
    else some (.scalar t)
  emit
    | .null => bytes "~"
    | .scalar value => value
    | .sequence _ => bytes "- a\n- b"
    | .map [(_, .scalar _)] => bytes "k: a"
    | .map _ => bytes "k:\n  - a\n  - b"
  index _ _ := []

/-- A vector of two strings, and a map with one. -/
theorem vector_and_map_return_iff_sample :
    (Yaml.Returns (sample.vector ⟨some, some⟩) [bytes "a", bytes "b"] ↔
      ∀ x ∈ [bytes "a", bytes "b"], sample.Survives ⟨some, some⟩ x) ∧
    (Yaml.Returns (sample.map ⟨some, some⟩) ⟨[(bytes "k", bytes "a")], List.pairwise_singleton _ _⟩ ↔
      ∀ e ∈ [(bytes "k", bytes "a")], sample.Survives ⟨some, some⟩ e.2) := by
  refine vector_and_map_return_iff [bytes "a", bytes "b"] ⟨[(bytes "k", bytes "a")], List.pairwise_singleton _ _⟩
    (fun nodes h => ?_) (fun entries h => ?_)
  · cases h
    rfl
  · cases h
    rfl

/-! ## Nested containers -/

/-- The casts that `config.h` builds from others, each with values that come back: the leaves do, and the library reads
back the trees it is given. -/
inductive Built (y : Yaml) : {α : Type} → Cast α → (α → Prop) → Prop
  | leaf {α : Type} (c : Cast α) : Built y c fun x => y.Survives c x ∧ Yaml.Returns c x
  | sequence {α γ : Type} (C : Container γ α) {c : Cast α} {P : α → Prop} (h : Built y c P) :
      Built y (y.sequenceCast C c) fun v => (∀ x ∈ C.elements v, P x) ∧
        ∀ nodes, (C.elements v).mapM (y.node c) = some nodes → y.Reads (.sequence nodes)
  | map {α γ : Type} (C : Container γ (List UInt8 × α)) (hkeys : ∀ v, ((C.elements v).map Prod.fst).Nodup) {c : Cast α}
      {P : α → Prop} (h : Built y c P) :
      Built y (y.mapCast C c) fun v => (∀ e ∈ C.elements v, P e.2) ∧
        ∀ entries, ((C.elements v).mapM fun i => (y.node c i.2).map (Prod.mk i.1)) = some entries →
          y.Reads (.map entries)

theorem built_returns {y : Yaml} {α : Type} {c : Cast α} {P : α → Prop} (h : Built y c P) :
    ∀ {v : α}, P v → y.Survives c v ∧ Yaml.Returns c v := by
  induction h with
  | leaf c => exact fun hv => hv
  | sequence C _ ih =>
    intro v hv
    have hreturns := sequenceCast_returns hv.2 fun x hx => (ih (hv.1 x hx)).1
    exact ⟨(sequenceCast_survives hv.2).2 hreturns, hreturns⟩
  | map C hkeys _ ih =>
    intro v hv
    have hreturns := mapCast_returns (hkeys v) hv.2 fun e he => (ih (hv.1 e he)).1
    exact ⟨(mapCast_survives (hkeys v) hv.2).2 hreturns, hreturns⟩

/-! ## Variables -/

namespace ConfigVar

variable {T K : Type}

/-- `ConfigVar::toString()`. -/
def toString (c : Cast T) (var : ConfigVar T K) : List UInt8 := (c.toString var.val).getD []

/-- `ConfigVar::fromString(val)`: what it returns, the listeners that are called and the variable. It returns false
whatever happens. -/
def fromString [BEq T] (c : Cast T) (throws : K → Bool) (var : ConfigVar T K) (val : List UInt8) :
    Bool × List K × ConfigVar T K :=
  match c.fromString val with
  | none => (false, [], var)
  | some v => (false, Log.setValue throws var v)

end ConfigVar

/-- A variable of any nesting of containers is left alone, and its listeners are, by the text it is printed as. -/
theorem variable_reads_itself {T K : Type} [BEq T] [ReflBEq T] {y : Yaml} {c : Cast T} {P : T → Prop} (h : Built y c P)
    (throws : K → Bool) (var : ConfigVar T K) (hv : P var.val) :
    var.fromString c throws (var.toString c) = (false, [], var) := by
  obtain ⟨t, ht, hfrom⟩ := Option.bind_eq_some_iff.1 (built_returns h hv).2
  have htext : var.toString c = t := by rw [ConfigVar.toString, ht, Option.getD_some]
  have hskip : Log.setValue throws var var.val = ([], var) := Log.skips_iff.2 (.inl (beq_self_eq_true _))
  rw [ConfigVar.fromString, htext, hfrom, ← hskip]

/-- A map of vectors of strings. -/
theorem variable_reads_itself_sample :
    (⟨⟨[(bytes "k", [bytes "a", bytes "b"])], List.pairwise_singleton _ _⟩, [0]⟩ : ConfigVar { s : List (List UInt8 ×
      List (List UInt8)) // OrderedSet.Ordered (fun a b : List UInt8 => a < b) Prod.fst s } Nat).fromString
        (sample.map (sample.vector ⟨some, some⟩)) (fun _ => false) (bytes "k:\n  - a\n  - b") =
      (false, [], ⟨⟨[(bytes "k", [bytes "a", bytes "b"])], List.pairwise_singleton _ _⟩, [0]⟩) := by
  refine variable_reads_itself (y := sample)
    (.map (Container.ordered (fun a b : List UInt8 => a < b) Prod.fst) keys_nodup (.sequence Container.sequence
      (.leaf ⟨some, some⟩))) (fun _ => false) _ ⟨fun e he => ?_, fun entries h => ?_⟩
  · cases List.mem_singleton.1 he
    refine ⟨fun x hx => ?_, fun nodes h => ?_⟩
    · rcases List.mem_pair.1 hx with rfl | rfl
      · exact ⟨rfl, rfl⟩
      · exact ⟨rfl, rfl⟩
    · cases h
      rfl
  · cases h
    rfl

end ServerFrame.Config
