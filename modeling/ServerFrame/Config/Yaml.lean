/-
`Config::Lookup` and `Config::LoadFromYaml` (`config.h`, `config.cc`): a YAML tree is flattened into keys with dots,
and a variable of such a key reads the text of its node. Both test names against one table of characters, which
lacks the digit nine; the keys are tested before they are put into lower case.
-/
import ServerFrame.Http.Request
import Mathlib.Data.Bool.AllAny
import Mathlib.Data.List.Basic
import Mathlib.Logic.Function.Basic

namespace ServerFrame.Config

open Http (bytes tolower)

/-- A YAML tree whose keys are scalars. -/
inductive Node
  | null
  | scalar (value : List UInt8)
  | sequence (elements : List Node)
  | map (entries : List (List UInt8 × Node))

/-- The characters that the code accepts in a name. -/
def validCharacters : List UInt8 := bytes "abcdefghikjlmnopqrstuvwxyz._012345678"

/-- `find_first_not_of` finds nothing. -/
def validName (name : List UInt8) : Bool := name.all fun c => c ∈ validCharacters

/-- The characters that the comments promise. -/
def documentedCharacters : List UInt8 := bytes "0123456789abcdefghijklmnopqrstuvwxyz_."

/-! ## Flattening -/

/-- The key of an entry below `pre`. -/
def childKey (pre key : List UInt8) : List UInt8 := if pre.isEmpty then key else pre ++ 46 :: key

mutual

/-- `ListAllMember`: the list that it puts out. -/
def ListAllMember (pre : List UInt8) (node : Node) : List (List UInt8 × Node) :=
  if validName pre then
    (pre, node) :: match node with
      | .map entries => listEntries pre entries
      | .null | .scalar _ | .sequence _ => []
  else []

/-- Its loop over the entries of a map. -/
def listEntries (pre : List UInt8) : List (List UInt8 × Node) → List (List UInt8 × Node)
  | [] => []
  | (key, value) :: entries => ListAllMember (childKey pre key) value ++ listEntries pre entries

end

mutual

/-- The nodes of a tree in pre-order, each with its keys from the root on. -/
def Node.nodes (node : Node) : List (List (List UInt8) × Node) :=
  ([], node) :: match node with
    | .map entries => Node.entryNodes entries
    | .null | .scalar _ | .sequence _ => []

def Node.entryNodes : List (List UInt8 × Node) → List (List (List UInt8) × Node)
  | [] => []
  | (key, value) :: entries => (value.nodes.map fun n => (key :: n.1, n.2)) ++ Node.entryNodes entries

end

/-- The last node in pre-order whose keys meet `p`. -/
def Node.last (root : Node) (p : List (List UInt8) → Bool) : Option Node :=
  (root.nodes.filter fun n => p n.1).getLast?.map Prod.snd

/-- The text that a node is read as: its own, or the one that `emit` prints. -/
def Node.text (emit : Node → List UInt8) : Node → List UInt8
  | .scalar value => value
  | node => emit node

/-- The dot-joined keys. -/
def joined (path : List (List UInt8)) : List UInt8 := [46].intercalate path

/-- The keys spell a name when they are put into lower case. -/
def lowerCase (name : List UInt8) (path : List (List UInt8)) : Bool := (joined path).map tolower = name

/-- The keys spell a name as they are, without the empty keys in front. -/
def asWritten (name : List UInt8) (path : List (List UInt8)) : Bool := joined (path.dropWhile List.isEmpty) = name

/-! ## Variables -/

/-- `ConfigVarBase`: the type, the default value, and the texts that `fromString` was called with. -/
structure ConfigVarBase (K V : Type) where
  type : K
  defaultValue : V
  received : List (List UInt8) := []

/-- Calls of `fromString`, one after the other. -/
def ConfigVarBase.fromStrings {K V : Type} (var : ConfigVarBase K V) (vals : List (List UInt8)) : ConfigVarBase K V :=
  { var with received := var.received ++ vals }

/-- What is thrown: `std::invalid_argument`. -/
inductive Exception
  | invalidArgument (name : List UInt8)
  deriving DecidableEq, Repr

/-- `GetDatas()`. What is registered has a name that the code accepts. -/
structure Datas (K V : Type) where
  find : List UInt8 → Option (ConfigVarBase K V)
  valid : ∀ name, (find name).isSome → validName name

namespace Datas

variable {K V : Type} [DecidableEq K]

/-- Nothing is registered. -/
def empty : Datas K V where
  find _ := none
  valid _ h := by cases h

/-- `GetDatas()[name] = var`. -/
def set (datas : Datas K V) (name : List UInt8) (h : validName name) (var : ConfigVarBase K V) : Datas K V where
  find := Function.update datas.find name (some var)
  valid n hn := by
    by_cases he : n = name
    · exact he ▸ h
    · exact datas.valid n (by rwa [Function.update_of_ne he] at hn)

/-- `Config::Lookup(name, default_value)`: the variable, or `none` where it has another type. -/
def Lookup (datas : Datas K V) (type : K) (name : List UInt8) (defaultValue : V) :
    Except Exception (Option (ConfigVarBase K V) × Datas K V) :=
  match datas.find name with
  | some var => .ok (if var.type = type then some var else none, datas)
  | none =>
    if h : validName name then
      let var := { type, defaultValue }
      .ok (some var, datas.set name h var)
    else .error (.invalidArgument name)

/-- `var->fromString(val)` on the variable of a key, if there is one. -/
def fromString (datas : Datas K V) (key val : List UInt8) : Datas K V :=
  match h : datas.find key with
  | some var => datas.set key (datas.valid key (by rw [h]; rfl)) (var.fromStrings [val])
  | none => datas

/-- `Config::LoadFromYaml`. -/
def LoadFromYaml (emit : Node → List UInt8) (datas : Datas K V) (root : Node) : Datas K V :=
  (ListAllMember [] root).foldl (fun datas i =>
    if i.1.isEmpty then datas else datas.fromString (i.1.map tolower) (i.2.text emit)) datas

/-- A lookup registers the name without throwing. -/
def Registers (datas : Datas K V) (type : K) (name : List UInt8) (defaultValue : V) : Prop :=
  ∃ var datas', datas.Lookup type name defaultValue = .ok (var, datas') ∧ (datas'.find name).isSome

omit [DecidableEq K] in
/-- Every variable has read the text of the last node whose keys, joined and in lower case, are its name; without
such a node it is unchanged. -/
def Loaded (emit : Node → List UInt8) (datas datas' : Datas K V) (root : Node) : Prop :=
  ∀ name var, datas.find name = some var →
    ∃ vals, datas'.find name = some (var.fromStrings vals) ∧
      vals.getLast? = (root.last (lowerCase name)).map (Node.text emit)

/-- No variable has the empty name, and for every variable the last node whose keys are its name as they are written
reads as the last one whose keys are its name in lower case. -/
def Spelled (emit : Node → List UInt8) (datas : Datas K V) (root : Node) : Prop :=
  ∀ name, (datas.find name).isSome → name ≠ [] ∧
    (root.last (asWritten name)).map (Node.text emit) = (root.last (lowerCase name)).map (Node.text emit)

end Datas

/-! ## Names -/

theorem documented_valid {c : UInt8} (h : c ∈ documentedCharacters) : c ∈ validCharacters ↔ c ≠ 57 := by
  have hall : ∀ c ∈ documentedCharacters, c ∈ validCharacters ↔ c ≠ 57 := List.all_iff_forall_prop.1 (by decide)
  exact hall c h

theorem tolower_valid {c : UInt8} (h : c ∈ validCharacters) : tolower c = c := by
  have hall : ∀ c ∈ validCharacters, tolower c = c := List.all_iff_forall_prop.1 (by decide)
  exact hall c h

theorem validName_iff {name : List UInt8} : validName name ↔ ∀ c ∈ name, c ∈ validCharacters := by
  simp [validName]

/-- A name that the code accepts is in lower case. -/
theorem map_tolower {name : List UInt8} (h : validName name) : name.map tolower = name := by
  rw [validName_iff] at h
  calc name.map tolower = name.map id := List.map_congr_left fun c hc => tolower_valid (h c hc)
    _ = name := List.map_id name

theorem validName_documented {name : List UInt8} (h : ∀ c ∈ name, c ∈ documentedCharacters) :
    validName name ↔ 57 ∉ name := by
  rw [validName_iff]
  constructor
  · intro hvalid hnine
    exact (documented_valid (h 57 hnine)).1 (hvalid 57 hnine) rfl
  · intro hnine c hc
    refine (documented_valid (h c hc)).2 ?_
    rintro rfl
    exact hnine hc

/-- A key extends the one above it. -/
theorem prefix_childKey (pre key : List UInt8) : pre <+: childKey pre key := by
  unfold childKey
  split
  · rename_i hpre
    rw [List.isEmpty_iff.1 hpre]
    exact List.nil_prefix
  · exact List.prefix_append _ _

theorem validName_foldl {path : List (List UInt8)} :
    ∀ {pre : List UInt8}, validName (path.foldl childKey pre) → validName pre := by
  induction path with
  | nil => exact id
  | cons key path ih =>
    intro pre h
    rw [List.foldl_cons] at h
    have hchild := validName_iff.1 (ih h)
    exact validName_iff.2 fun c hc => hchild c ((prefix_childKey pre key).subset hc)

/-- Below a key that is not empty the keys are joined with dots. -/
theorem foldl_childKey {path : List (List UInt8)} :
    ∀ {pre : List UInt8}, pre ≠ [] → path.foldl childKey pre = joined (pre :: path) := by
  induction path with
  | nil => exact fun _ => (List.intercalate_singleton).symm
  | cons key path ih =>
    intro pre hpre
    have hchild : childKey pre key = pre ++ 46 :: key := if_neg (by simpa using hpre)
    rw [List.foldl_cons, hchild, ih (by simp)]
    cases path with
    | nil => simp [joined, List.intercalate_cons_cons, List.intercalate_singleton]
    | cons next path => simp [joined, List.intercalate_cons_cons]

/-- The key of a node leaves out the empty keys in front. -/
theorem foldl_nil (path : List (List UInt8)) : path.foldl childKey [] = joined (path.dropWhile List.isEmpty) := by
  induction path with
  | nil => rfl
  | cons key path ih =>
    rw [List.foldl_cons]
    show path.foldl childKey key = _
    by_cases hkey : key = []
    · subst hkey
      exact ih
    · rw [foldl_childKey hkey, List.dropWhile_cons_of_neg (by simpa using hkey)]

/-! ## Flattening and loading -/

mutual

/-- The members are the nodes whose key the code accepts: above such a node it accepts every key. -/
theorem listAllMember_eq : ∀ (node : Node) (pre : List UInt8),
    ListAllMember pre node =
      (node.nodes.map fun n => (n.1.foldl childKey pre, n.2)).filter fun i => validName i.1
  | node, pre => by
    by_cases hpre : validName pre
    · cases node with
      | map entries =>
        rw [ListAllMember, if_pos hpre, Node.nodes, List.map_cons, List.filter_cons_of_pos (by exact hpre)]
        exact congrArg _ (listEntries_eq entries pre)
      | null | scalar _ | sequence _ => simp [ListAllMember, Node.nodes, hpre]
    · rw [ListAllMember.eq_def, if_neg hpre, eq_comm, List.filter_eq_nil_iff]
      intro i hi hvalid
      obtain ⟨n, -, rfl⟩ := List.mem_map.1 hi
      exact hpre (validName_foldl hvalid)

theorem listEntries_eq : ∀ (entries : List (List UInt8 × Node)) (pre : List UInt8),
    listEntries pre entries =
      ((Node.entryNodes entries).map fun n => (n.1.foldl childKey pre, n.2)).filter fun i => validName i.1
  | [], pre => rfl
  | (key, value) :: entries, pre => by
    rw [listEntries, Node.entryNodes, List.map_append, List.filter_append, listAllMember_eq value,
      listEntries_eq entries pre, List.map_map]
    rfl

end

namespace Datas

variable {K V : Type} {datas : Datas K V}

theorem find_fromString (key val name : List UInt8) :
    (datas.fromString key val).find name =
      (datas.find name).map fun var => var.fromStrings (if key = name then [val] else []) := by
  by_cases hkey : key = name
  · subst hkey
    unfold fromString
    split
    · rename_i var hfind
      simp [set, hfind]
    · rename_i hfind
      simp [hfind]
  · unfold fromString
    split
    · simp [set, Function.update_of_ne (Ne.symm hkey), hkey, ConfigVarBase.fromStrings]
    · simp [hkey, ConfigVarBase.fromStrings]

/-- After loads the variable of a name has read the texts of its keys in order. -/
theorem find_load (emit : Node → List UInt8) (name : List UInt8) : ∀ (members : List (List UInt8 × Node))
    (datas : Datas K V),
    (members.foldl (fun datas i =>
      if i.1.isEmpty then datas else datas.fromString (i.1.map tolower) (i.2.text emit)) datas).find name =
    (datas.find name).map fun var => var.fromStrings
      ((members.filter fun i => !i.1.isEmpty && i.1.map tolower = name).map fun i => i.2.text emit)
  | [], datas => by simp [ConfigVarBase.fromStrings]
  | i :: members, datas => by
    rw [List.foldl_cons, find_load emit name members]
    by_cases hempty : i.1.isEmpty
    · rw [if_pos hempty, List.filter_cons_of_neg (by simp [hempty])]
    · rw [if_neg hempty, find_fromString, Option.map_map]
      by_cases hkey : i.1.map tolower = name
      · simp [Function.comp_def, ConfigVarBase.fromStrings, hempty, hkey]
      · simp [Function.comp_def, ConfigVarBase.fromStrings, hkey]

/-- A key that the code accepts reaches a variable when it is its name. -/
theorem reaches_iff {key name : List UInt8} (hname : validName name) :
    (!key.isEmpty && key.map tolower = name) ∧ validName key ↔ name ≠ [] ∧ key = name := by
  constructor
  · rintro ⟨hkey, hvalid⟩
    rw [map_tolower hvalid] at hkey
    simp only [Bool.and_eq_true, Bool.not_eq_true', List.isEmpty_eq_false_iff, decide_eq_true_eq] at hkey
    exact ⟨hkey.2 ▸ hkey.1, hkey.2⟩
  · rintro ⟨hempty, rfl⟩
    refine ⟨?_, hname⟩
    rw [map_tolower hname]
    simpa using hempty

/-- The texts that loading hands to a variable, by the keys of the tree. -/
theorem find_loadFromYaml (emit : Node → List UInt8) (root : Node) {name : List UInt8} {var : ConfigVarBase K V}
    (hfind : datas.find name = some var) :
    (datas.LoadFromYaml emit root).find name = some (var.fromStrings (if name = [] then [] else
      (root.nodes.filter fun n => asWritten name n.1).map fun n => n.2.text emit)) := by
  have hvalid : validName name := datas.valid name (by rw [hfind]; rfl)
  have hmembers : ((ListAllMember [] root).filter fun i => !i.1.isEmpty && i.1.map tolower = name) =
      (root.nodes.map fun n => (n.1.foldl childKey [], n.2)).filter fun i => name ≠ [] ∧ i.1 = name := by
    rw [listAllMember_eq, List.filter_filter]
    refine List.filter_congr fun i _ => Bool.eq_iff_iff.2 ?_
    rw [Bool.and_eq_true, decide_eq_true_iff]
    exact reaches_iff hvalid
  unfold LoadFromYaml
  rw [find_load, hfind, Option.map_some, hmembers, List.filter_map, List.map_map]
  split
  · rename_i hempty
    subst hempty
    simp
  · rename_i hempty
    simp only [Function.comp_def, foldl_nil, hempty, ne_eq, not_false_eq_true, true_and, asWritten]

/-- A lookup of a documented name registers it when the name has no nine. -/
theorem registers_iff [DecidableEq K] {name : List UInt8} (hname : ∀ c ∈ name, c ∈ documentedCharacters)
    (datas : Datas K V) (type : K) (defaultValue : V) : datas.Registers type name defaultValue ↔ 57 ∉ name := by
  rw [← validName_documented hname]
  unfold Registers Lookup
  rcases hfind : datas.find name with _ | var
  · constructor
    · rintro ⟨var, datas', hlookup, -⟩
      by_contra hvalid
      simp [hvalid] at hlookup
    · intro hvalid
      exact ⟨_, _, by simp only [hvalid, dif_pos]; rfl, by simp [set]⟩
  · constructor
    · intro _
      exact datas.valid name (by rw [hfind]; rfl)
    · intro _
      exact ⟨_, _, rfl, by rw [hfind]; rfl⟩

theorem last_map (root : Node) (p : List (List UInt8) → Bool) (f : Node → List UInt8) :
    ((root.nodes.filter fun n => p n.1).map fun n => f n.2).getLast? = (root.last p).map f := by
  rw [List.getLast?_map, Node.last, Option.map_map]
  rfl

/-- The root has no keys, and they spell the empty name. -/
theorem last_empty (root : Node) : root.last (lowerCase []) ≠ none := by
  have hroot : ∃ below, root.nodes = ([], root) :: below := by
    cases root <;> exact ⟨_, by rw [Node.nodes]⟩
  obtain ⟨below, hnodes⟩ := hroot
  rw [Node.last, hnodes, List.filter_cons_of_pos (by rfl)]
  simp

/-- Loading gives every variable its text exactly where the tree writes the names as the code does. -/
theorem loaded_iff (emit : Node → List UInt8) (datas : Datas K V) (root : Node) :
    datas.Loaded emit (datas.LoadFromYaml emit root) root ↔ datas.Spelled emit root := by
  constructor
  · intro h name hname
    obtain ⟨var, hfind⟩ := Option.isSome_iff_exists.1 hname
    obtain ⟨vals, hvals, hlast⟩ := h name var hfind
    rw [find_loadFromYaml emit root hfind] at hvals
    have hread := List.append_cancel_left (congrArg ConfigVarBase.received (Option.some.inj hvals))
    subst hread
    split at hlast
    · rename_i hempty
      subst hempty
      exact absurd (Option.map_eq_none_iff.1 hlast.symm) (last_empty root)
    · rename_i hempty
      rw [last_map] at hlast
      exact ⟨hempty, hlast⟩
  · intro h name var hfind
    obtain ⟨hempty, hspelled⟩ := h name (by rw [hfind]; rfl)
    refine ⟨_, find_loadFromYaml emit root hfind, ?_⟩
    rw [if_neg hempty, last_map, hspelled]

end Datas

/-! ## Main result -/

/-- A name of the documented characters. -/
def DocumentedName : Type := { name : List UInt8 // ∀ c ∈ name, c ∈ documentedCharacters }

/-- A documented name is registered without a throw exactly when it has no nine, and a load reaches every variable
exactly when the tree writes the registered names as the code does. -/
theorem yaml_iff {K V : Type} [DecidableEq K] (emit : Node → List UInt8) (datas : Datas K V) (root : Node)
    (name : DocumentedName) (type : K) (defaultValue : V) :
    (datas.Registers type name.1 defaultValue ↔ 57 ∉ name.1) ∧
      (datas.Loaded emit (datas.LoadFromYaml emit root) root ↔ datas.Spelled emit root) := by
  constructor
  · exact Datas.registers_iff name.2 datas type defaultValue
  · exact Datas.loaded_iff emit datas root

/-- `Lookup("udp9", 0)` throws, and `Port: 80` does not reach the variable `port`. -/
theorem name_not_reached : (∀ c ∈ bytes "udp9", c ∈ documentedCharacters) ∧
    ¬ (Datas.empty : Datas Unit Nat).Registers () (bytes "udp9") 0 ∧
    ∀ emit, ¬ ((Datas.empty : Datas Unit Nat).set (bytes "port") (by decide) ⟨(), 0, []⟩).Loaded emit
      (((Datas.empty : Datas Unit Nat).set (bytes "port") (by decide) ⟨(), 0, []⟩).LoadFromYaml emit
        (.map [(bytes "Port", .scalar (bytes "80"))]))
      (.map [(bytes "Port", .scalar (bytes "80"))]) := by
  have hdocumented : ∀ c ∈ bytes "udp9", c ∈ documentedCharacters := List.all_iff_forall_prop.1 (by decide)
  refine ⟨hdocumented, ?_, fun emit hloaded => ?_⟩
  · rw [Datas.registers_iff hdocumented]
    decide
  · rw [Datas.loaded_iff] at hloaded
    have hport := (hloaded (bytes "port") rfl).2
    have hnone : (Node.map [(bytes "Port", .scalar (bytes "80"))]).last (asWritten (bytes "port")) = none := rfl
    have hsome : (Node.map [(bytes "Port", .scalar (bytes "80"))]).last (lowerCase (bytes "port")) =
      some (.scalar (bytes "80")) := rfl
    rw [hnone, hsome] at hport
    cases hport

end ServerFrame.Config
