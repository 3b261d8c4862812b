import DocSchema.Proofs.Json.Canonical
import DocSchema.Proofs.Store.FieldWrites

/-!
# Fields beside a removal

A removal always succeeds. It takes away what stands under the keys of its path and leaves alone what is read at
paths that diverge from it; it never makes anything. What several removals leave depends only on which paths are
among theirs.
-/

namespace DocSchema

namespace Assoc

variable {α : Type}

/-- Another value under a name that is there does not change the names. -/
theorem names_insert {name : String} {entries : Assoc α} (sorted : Sorted entries)
    (held : contains name entries = true) (a : α) : names (insert name a entries) = names entries := by
  induction entries with
  | nil => cases held
  | cons first rest ih =>
    obtain ⟨n, b⟩ := first
    by_cases same : n = name
    · simp [insert, names, same]
    · have later : contains name rest = true := by simpa [contains, get?, same] using held
      obtain ⟨c, member⟩ := contains_iff.1 later
      have above : n < name := List.rel_of_pairwise_cons sorted member
      rw [insert, if_neg same, if_neg (String.lt_asymm above)]
      exact congrArg (n :: ·) (ih sorted.of_cons later)

end Assoc

namespace Json

variable {keys others : List String} {key : String} {rest : List String} {s : PathStep} {steps : List PathStep}
  {members level : Members} {v w : Json}

/-- The members of an object without what stands under a chain of keys. -/
def without : List String → Members → Members
  | [], members => members
  | [key], members => Assoc.erase key members
  | key :: next :: rest, members =>
    match Assoc.get? key members with
    | some (.obj level) => Assoc.insert key (.obj (without (next :: rest) level)) members
    | _ => members

/-- What is left of a member when what stands under further keys is removed from it. -/
def trim : List String → Json → Option Json
  | [], _ => none
  | next :: rest, .obj level => some (.obj (without (next :: rest) level))
  | _ :: _, v => some v

/-- A removal along literal steps always succeeds. -/
theorem removeSteps_eq (literal : ∀ s ∈ steps, s.isPlaceholder = false) (start : steps ≠ []) (members : Members) :
    removeSteps steps members = .ok (without (Path.keys ⟨steps⟩) members) := by
  induction steps generalizing members with
  | nil => exact absurd rfl start
  | cons s rest ih =>
    obtain ⟨key, named⟩ := PathStep.exists_literal (literal s List.mem_cons_self)
    rw [Path.keys_cons named]
    cases rest with
    | nil =>
      rw [removeSteps, PathStep.literalKey_of_literal named]
      rfl
    | cons r rest =>
      have further := ih (fun p member => literal p (List.mem_cons_of_mem s member)) (List.cons_ne_nil r rest)
      rw [removeSteps, PathStep.literalKey_of_literal named, Path.keys, List.map_cons, without]
      · simp only [bind, Except.bind, further]
        cases Assoc.get? key members with
        | none => rfl
        | some v => cases v <;> rfl
      · exact List.cons_ne_nil r rest

/-- A removal concerns one member, the one under the first key. -/
theorem get?_without (key : String) (rest : List String) (members : Members) (name : String) :
    Assoc.get? name (without (key :: rest) members) =
      if key = name then (Assoc.get? key members).bind (trim rest) else Assoc.get? name members := by
  cases rest with
  | nil =>
    rw [without]
    split
    · next same =>
      subst same
      cases Assoc.get? key members <;> simp [trim]
    · next other => exact Assoc.get?_erase_of_ne other members
  | cons next rest =>
    rw [without]
    split
    · next level present =>
      split
      · next same =>
        subst same
        rw [Assoc.get?_insert_self, present]
        rfl
      · next other => exact Assoc.get?_insert_of_ne other _ members
    · next flat =>
      split
      · next same =>
        subst same
        cases present : Assoc.get? key members with
        | none => rfl
        | some v =>
          cases v with
          | obj level => exact absurd present (flat level)
          | _ => rfl
      · rfl

/-- What stands in an object under a key and further keys. -/
theorem at?_obj (key : String) (rest : List String) (members : Members) :
    (obj members).at? (key :: rest) = (Assoc.get? key members).bind fun v => v.at? rest := rfl

/-! ## What is read after a removal -/

/-- Under the keys themselves nothing is left. -/
theorem at?_without (members : Members) (deeper : keys ≠ []) : (obj (without keys members)).at? keys = none := by
  induction keys generalizing members with
  | nil => exact absurd rfl deeper
  | cons key rest ih =>
    rw [at?_obj, get?_without, if_pos rfl, Option.bind_assoc]
    refine Option.bind_eq_none_iff.2 fun v _ => ?_
    cases rest with
    | nil => rfl
    | cons next rest =>
      cases v with
      | obj level => exact ih level (List.cons_ne_nil next rest)
      | _ => rfl

theorem readSteps_of_placeholder {name : String} (dynamic : s.key = .placeholder name) (rest : List PathStep)
    (v : Json) : readSteps (s :: rest) v = .error (.unrenderedPlaceholder name) := by
  rw [readSteps, PathStep.literalKey, dynamic]
  rfl

/-- The first step of a read after a removal. -/
theorem readSteps_cons_without {name : String} (literal : s.key = .literal name) (steps : List PathStep)
    (key : String) (rest : List String) (members : Members) :
    readSteps (s :: steps) (obj (without (key :: rest) members)) =
      (if key = name then (Assoc.get? key members).bind (trim rest) else Assoc.get? name members).elim
        (.ok none) (readSteps steps) := by
  rw [readSteps_cons literal, member?, get?_without]

/-- A removal leaves every read alone whose path diverges from it. -/
theorem readSteps_without (apart : Diverge keys (Path.keys ⟨steps⟩)) (members : Members) :
    readSteps steps (obj (without keys members)) = readSteps steps (obj members) := by
  induction keys generalizing steps members with
  | nil => exact absurd rfl apart.ne_nil
  | cons key rest ih =>
    cases steps with
    | nil => exact absurd rfl apart.symm.ne_nil
    | cons s tail =>
      cases named : s.key with
      | placeholder name => rw [readSteps_of_placeholder named, readSteps_of_placeholder named]
      | literal name =>
        rw [readSteps_cons_without named, readSteps_cons named, member?]
        rw [Path.keys_cons named] at apart
        split
        · next same =>
          subst same
          have further : Diverge rest (Path.keys ⟨tail⟩) := apart.of_cons
          obtain ⟨next, rest, rfl⟩ := List.exists_cons_of_ne_nil further.ne_nil
          cases Assoc.get? key members with
          | none => rfl
          | some v =>
            cases v with
            | obj level => exact ih further level
            | _ => rfl
        · rfl

/-- Under the keys of a removal nothing is read after it. -/
theorem readSteps_without_self (literal : ∀ s ∈ steps, s.isPlaceholder = false) (start : steps ≠ [])
    (members : Members) : readSteps steps (obj (without (Path.keys ⟨steps⟩) members)) = .ok none := by
  have deeper : Path.keys ⟨steps⟩ ≠ [] := fun root => start (List.map_eq_nil_iff.1 root)
  rw [readSteps_of_literal literal, at?_without members deeper]

/-- What removals can leave of a value: the value, or a level of a level. -/
def Remnant (v w : Json) : Prop :=
  w = v ∨ ∃ level rest, v = obj level ∧ w = obj rest

theorem Remnant.trans {u : Json} (first : Remnant u v) (second : Remnant v w) : Remnant u w := by
  rcases second with rfl | ⟨level, rest, rfl, rfl⟩
  · exact first
  · rcases first with rfl | ⟨level, _, rfl, -⟩
    · exact .inr ⟨level, rest, rfl, rfl⟩
    · exact .inr ⟨level, rest, rfl, rfl⟩

/-- A removal makes nothing: what is read after it is what it has left of a value that was read there before. -/
theorem readSteps_of_without (read : readSteps steps (obj (without keys members)) = .ok (some w)) :
    ∃ v, readSteps steps (obj members) = .ok (some v) ∧ Remnant v w := by
  induction keys generalizing steps members with
  | nil => exact ⟨w, read, .inl rfl⟩
  | cons key rest ih =>
    cases steps with
    | nil =>
      cases read
      exact ⟨obj members, rfl, .inr ⟨_, _, rfl, rfl⟩⟩
    | cons s tail =>
      cases named : s.key with
      | placeholder name =>
        rw [readSteps_of_placeholder named] at read
        cases read
      | literal name =>
        rw [readSteps_cons_without named] at read
        rw [readSteps_cons named, member?]
        split at read
        · next same =>
          subst same
          cases present : Assoc.get? key members with
          | none =>
            rw [present] at read
            cases read
          | some v =>
            rw [present] at read
            cases rest with
            | nil => cases read
            | cons next rest =>
              cases v with
              | obj level => exact ih read
              | _ => exact ⟨w, read, .inl rfl⟩
        · exact ⟨w, read, .inl rfl⟩

/-! ## In every order -/

theorem ordered_of_get? (ordered : (obj members).Ordered) (present : Assoc.get? key members = some v) :
    v.Ordered := by
  cases ordered with
  | obj ascending inside => exact inside key v (Assoc.mem_of_get? present)

theorem sorted_without (sorted : Assoc.Sorted members) (keys : List String) : Assoc.Sorted (without keys members) := by
  fun_cases without keys members with
  | case1 => exact sorted
  | case2 => exact sorted.erase _
  | case3 => exact sorted.insert _ _
  | case4 => exact sorted

theorem ordered_without (ordered : (obj members).Ordered) (keys : List String) :
    (obj (without keys members)).Ordered := by
  fun_induction without keys members with
  | case1 members => exact ordered
  | case2 key members =>
    cases ordered with
    | obj ascending inside =>
      exact .obj (ascending.erase key) fun name v member => inside name v (List.mem_filter.1 member).1
  | case3 key next rest members level present ih =>
    have below := ih (ordered_of_get? ordered present)
    cases ordered with
    | obj ascending inside =>
      refine .obj (ascending.insert key _) fun name v member => ?_
      rcases Assoc.mem_insert member with same | member
      · cases same
        exact below
      · exact inside name v member
  | case4 => exact ordered

/-- Removals below one member come to the same in either order, if removals of other members do. -/
theorem trim_comm (below : ∀ level, v = .obj level →
      without others (without keys level) = without keys (without others level)) :
    (trim keys v).bind (trim others) = (trim others v).bind (trim keys) := by
  cases keys with
  | nil => cases others <;> cases v <;> rfl
  | cons key rest =>
    cases others with
    | nil => cases v <;> rfl
    | cons other tail =>
      cases v with
      | obj level => exact congrArg (fun members => some (Json.obj members)) (below level rfl)
      | _ => rfl

/-- Two removals come to the same in either order. -/
theorem without_comm (ordered : (obj members).Ordered) (keys others : List String) :
    without others (without keys members) = without keys (without others members) := by
  induction keys generalizing others members with
  | nil => rfl
  | cons key rest ih =>
    cases others with
    | nil => rfl
    | cons other tail =>
      have sorted := Assoc.Sorted.of_ordered ordered
      refine Assoc.Sorted.ext (sorted_without (sorted_without sorted _) _)
        (sorted_without (sorted_without sorted _) _) fun name => ?_
      simp only [get?_without]
      by_cases meet : key = other
      · subst meet
        by_cases here : key = name
        · subst here
          simp only [if_true]
          rw [Option.bind_assoc, Option.bind_assoc]
          cases present : Assoc.get? key members with
          | none => rfl
          | some v => exact trim_comm fun level same => ih (same ▸ ordered_of_get? ordered present) tail
        · simp only [here, if_false]
      · by_cases here : key = name
        · subst here
          simp only [Ne.symm meet, if_true, if_false]
        · simp only [here, meet, Ne.symm meet, if_false]

/-- A removal below one member that is repeated changes nothing, if one in the level does not. -/
theorem trim_trim (below : ∀ level, v = .obj level → without keys (without keys level) = without keys level) :
    (trim keys v).bind (trim keys) = trim keys v := by
  cases keys with
  | nil => rfl
  | cons key rest =>
    cases v with
    | obj level => exact congrArg (fun members => some (Json.obj members)) (below level rfl)
    | _ => rfl

/-- A removal that is repeated changes nothing. -/
theorem without_without (ordered : (obj members).Ordered) (keys : List String) :
    without keys (without keys members) = without keys members := by
  induction keys generalizing members with
  | nil => rfl
  | cons key rest ih =>
    have sorted := Assoc.Sorted.of_ordered ordered
    refine Assoc.Sorted.ext (sorted_without (sorted_without sorted _) _) (sorted_without sorted _) fun name => ?_
    simp only [get?_without]
    by_cases here : key = name
    · subst here
      simp only [if_true]
      rw [Option.bind_assoc]
      cases present : Assoc.get? key members with
      | none => rfl
      | some v => exact trim_trim fun level same => ih (same ▸ ordered_of_get? ordered present)
    · simp only [here, if_false]

/-! ## Several removals -/

/-- The members of an object after several removals. -/
def withoutAll (chains : List (List String)) (members : Members) : Members :=
  chains.foldl (fun members keys => without keys members) members

variable {chains more : List (List String)}

theorem withoutAll_cons (keys : List String) (chains : List (List String)) (members : Members) :
    withoutAll (keys :: chains) members = withoutAll chains (without keys members) := rfl

theorem readSteps_withoutAll (apart : ∀ keys ∈ chains, Diverge keys (Path.keys ⟨steps⟩)) (members : Members) :
    readSteps steps (obj (withoutAll chains members)) = readSteps steps (obj members) := by
  induction chains generalizing members with
  | nil => rfl
  | cons keys chains ih =>
    obtain ⟨first, others⟩ := List.forall_mem_cons.1 apart
    rw [withoutAll_cons, ih others, readSteps_without first]

theorem readSteps_of_withoutAll (read : readSteps steps (obj (withoutAll chains members)) = .ok (some w)) :
    ∃ v, readSteps steps (obj members) = .ok (some v) ∧ Remnant v w := by
  induction chains generalizing members with
  | nil => exact ⟨w, read, .inl rfl⟩
  | cons keys chains ih =>
    obtain ⟨u, between, second⟩ := ih read
    obtain ⟨v, before, first⟩ := readSteps_of_without between
    exact ⟨v, before, first.trans second⟩

theorem readSteps_withoutAll_of_none (literal : ∀ s ∈ steps, s.isPlaceholder = false)
    (gone : readSteps steps (obj members) = .ok none) (chains : List (List String)) :
    readSteps steps (obj (withoutAll chains members)) = .ok none := by
  rw [readSteps_of_literal literal]
  refine congrArg Except.ok (Option.eq_none_iff_forall_not_mem.2 fun w stands => ?_)
  obtain ⟨v, before, -⟩ := readSteps_of_withoutAll ((readSteps_of_literal literal _).trans (congrArg _ stands))
  cases gone.symm.trans before

/-- What one of the removals takes away does not come back. -/
theorem readSteps_withoutAll_self (literal : ∀ s ∈ steps, s.isPlaceholder = false) (start : steps ≠ [])
    (among : Path.keys ⟨steps⟩ ∈ chains) (members : Members) :
    readSteps steps (obj (withoutAll chains members)) = .ok none := by
  induction chains generalizing members with
  | nil => cases among
  | cons keys chains ih =>
    rw [withoutAll_cons]
    rcases List.mem_cons.1 among with rfl | later
    · exact readSteps_withoutAll_of_none literal (readSteps_without_self literal start members) chains
    · exact ih later (without keys members)

/-- One removal can as well be made after the others. -/
theorem withoutAll_without (ordered : (obj members).Ordered) (keys : List String) (chains : List (List String)) :
    withoutAll chains (without keys members) = without keys (withoutAll chains members) := by
  induction chains generalizing members with
  | nil => rfl
  | cons others chains ih =>
    rw [withoutAll_cons, withoutAll_cons, without_comm ordered, ih (ordered_without ordered others)]

/-- A removal that is among those made before changes nothing. -/
theorem without_withoutAll (ordered : (obj members).Ordered) (among : keys ∈ chains) :
    without keys (withoutAll chains members) = withoutAll chains members := by
  induction chains generalizing members with
  | nil => cases among
  | cons others chains ih =>
    rw [withoutAll_cons]
    rcases List.mem_cons.1 among with rfl | later
    · rw [← withoutAll_without (ordered_without ordered keys), without_without ordered]
    · exact ih (ordered_without ordered others) later

theorem withoutAll_withoutAll (ordered : (obj members).Ordered) (among : more ⊆ chains) :
    withoutAll more (withoutAll chains members) = withoutAll chains members := by
  induction more with
  | nil => rfl
  | cons keys more ih =>
    obtain ⟨first, others⟩ := List.cons_subset.1 among
    rw [withoutAll_cons, without_withoutAll ordered first, ih others]

theorem withoutAll_comm (ordered : (obj members).Ordered) (chains more : List (List String)) :
    withoutAll more (withoutAll chains members) = withoutAll chains (withoutAll more members) := by
  induction more generalizing members with
  | nil => rfl
  | cons keys more ih =>
    rw [withoutAll_cons, withoutAll_cons, ← withoutAll_without ordered, ih (ordered_without ordered keys)]

/-- What several removals leave depends only on which ones they are. -/
theorem withoutAll_congr (ordered : (obj members).Ordered) (same : ∀ keys, keys ∈ more ↔ keys ∈ chains) :
    withoutAll more members = withoutAll chains members := by
  calc withoutAll more members
    _ = withoutAll chains (withoutAll more members) :=
      (withoutAll_withoutAll ordered fun keys => (same keys).2).symm
    _ = withoutAll more (withoutAll chains members) := withoutAll_comm ordered more chains
    _ = withoutAll chains members := withoutAll_withoutAll ordered fun keys => (same keys).1

end Json

theorem SortedMap.names_insert {α : Type} {m : SortedMap α} {name : String} {a : α} (present : m.get? name = some a)
    (b : α) : (m.insert name b).names = m.names :=
  Assoc.names_insert m.sorted (Option.isSome_of_eq_some present) b

namespace MemoryStore

variable {s : MemoryStore} {key : RecordKey} {paths : List Path} {chains more : List (List String)}

theorem removeAll_eq (plain : ∀ p ∈ paths, p.IsLiteral ∧ p.steps ≠ []) (members : Json.Members) :
    removeAll paths members = .ok (Json.withoutAll (paths.map Path.keys) members) := by
  induction paths generalizing members with
  | nil => rfl
  | cons p paths ih =>
    obtain ⟨⟨literal, start⟩, others⟩ := List.forall_mem_cons.1 plain
    rw [removeAll, Json.removeSteps_eq literal start]
    exact ih others _

/-- The store after several removals from one record. -/
def withoutFields (s : MemoryStore) (key : RecordKey) (chains : List (List String)) : MemoryStore :=
  match s.find? key with
  | some (.obj record) => s.put key (Json.withoutAll chains record)
  | _ => s

/-- Removals at paths of literal keys always succeed. -/
theorem removeFields_eq (s : MemoryStore) (key : RecordKey) (plain : ∀ p ∈ paths, p.IsLiteral ∧ p.steps ≠ []) :
    s.removeFields key paths = .ok (s.withoutFields key (paths.map Path.keys)) := by
  rw [removeFields, withoutFields]
  cases s.find? key with
  | none => rfl
  | some record =>
    cases record with
    | obj members =>
      simp only [removeAll_eq plain]
      rfl
    | _ => rfl

/-- Removals from a record that is an object replace it; there is nothing to remove from any other one. -/
theorem withoutFields_cases (s : MemoryStore) (key : RecordKey) :
    (∃ members, s.find? key = some (.obj members) ∧
      ∀ chains, s.withoutFields key chains = s.put key (Json.withoutAll chains members)) ∨
    (∀ members, s.find? key ≠ some (.obj members)) ∧ ∀ chains, s.withoutFields key chains = s := by
  by_cases whole : ∃ members, s.find? key = some (.obj members)
  · obtain ⟨members, found⟩ := whole
    refine .inl ⟨members, found, fun chains => ?_⟩
    rw [withoutFields, found]
  · have other := not_exists.1 whole
    refine .inr ⟨other, fun chains => ?_⟩
    rw [withoutFields]
    split
    · next members found => exact absurd found (other members)
    · rfl

theorem withoutFields_put (s : MemoryStore) (key : RecordKey) (members : Json.Members)
    (chains : List (List String)) :
    (s.put key members).withoutFields key chains = s.put key (Json.withoutAll chains members) := by
  rw [withoutFields, find?_put_self]
  exact put_put s key members _

theorem names_put {record : Json} (found : s.find? key = some record) (members : Json.Members) :
    (s.put key members).records.names = s.records.names :=
  SortedMap.names_insert found _

theorem size_put {record : Json} (found : s.find? key = some record) (members : Json.Members) :
    (s.put key members).size = s.size := by
  have same := congrArg List.length (names_put found members)
  simpa only [size, SortedMap.size, SortedMap.names, Assoc.names, List.length_map] using same

theorem getField_of_find? {record : Json} (found : s.find? key = some record) (q : Path) :
    s.getField key q = if q.isRoot then .error .emptyPath else record.readSteps q.steps := by
  rw [getField, found]

theorem getField_of_no_object {p : Path} (other : ∀ members, s.find? key ≠ some (.obj members))
    (literal : p.IsLiteral) (start : p.steps ≠ []) : s.getField key p = .ok none := by
  obtain ⟨step, rest, steps⟩ := List.exists_cons_of_ne_nil start
  rw [getField_eq literal start, Path.keys, steps, List.map_cons]
  cases found : s.find? key with
  | none => rfl
  | some record =>
    cases record with
    | obj members => exact absurd found (other members)
    | _ => rfl

/-- Removals at paths of literal keys succeed and take away what stands there. What is read at paths that diverge from
all of theirs stays, and no record and no level is made. From a record whose members are in order, the removals leave
the same in every order and however often each of them is made. -/
theorem removeFields_removes_exactly (s : MemoryStore) (key : RecordKey) (paths : List Path)
    (plain : ∀ p ∈ paths, p.IsLiteral ∧ p.steps ≠ []) :
    ∃ s', s.removeFields key paths = .ok s' ∧
      (∀ p ∈ paths, s'.getField key p = .ok none) ∧
      (∀ q : Path, (∀ p ∈ paths, Diverge p.keys q.keys) → s'.getField key q = s.getField key q) ∧
      (s'.size = s.size ∧ s'.records.names = s.records.names ∧
        ∀ (q : Path) w, s'.getField key q = .ok (some w) →
          ∃ v, s.getField key q = .ok (some v) ∧ Json.Remnant v w) ∧
      (∀ id, id ≠ key.id → s'.records.get? id = s.records.get? id) ∧
      ((∀ record, s.find? key = some record → record.Ordered) →
        ∀ others : List Path, (∀ p ∈ others, p.IsLiteral ∧ p.steps ≠ []) →
          (∀ keys, keys ∈ others.map Path.keys ↔ keys ∈ paths.map Path.keys) →
          s.removeFields key others = .ok s' ∧ s'.removeFields key others = .ok s') := by
  refine ⟨_, removeFields_eq s key plain, ?_⟩
  rcases withoutFields_cases s key with ⟨members, found, removed⟩ | ⟨other, removed⟩
  · have after : ∀ {chains : List (List String)} {q : Path}, (s.withoutFields key chains).getField key q =
        if q.isRoot then .error .emptyPath
        else (Json.obj (Json.withoutAll chains members)).readSteps q.steps := fun {chains q} => by
      rw [removed]
      exact getField_of_find? (find?_put_self s key _) q
    have before := getField_of_find? found
    refine ⟨fun p member => ?_, fun q apart => ?_, ⟨?_, ?_, fun q w read => ?_⟩, fun id other => ?_,
      fun ordered others plainOthers same => ?_⟩
    · obtain ⟨literal, start⟩ := plain p member
      rw [after, show p.isRoot = false by simpa [Path.isRoot] using start]
      exact Json.readSteps_withoutAll_self literal start (List.mem_map_of_mem member) members
    · rw [after, before, Json.readSteps_withoutAll (List.forall_mem_map.2 apart)]
    · rw [removed, size_put found]
    · rw [removed]
      exact names_put found _
    · rw [after] at read
      rw [before]
      split at read
      · cases read
      · next entered =>
        rw [if_neg entered]
        exact Json.readSteps_of_withoutAll read
    · rw [removed]
      exact SortedMap.get?_insert_of_ne _ (Ne.symm other) _
    · have whole := ordered _ found
      rw [removeFields_eq s key plainOthers, removeFields_eq _ key plainOthers, removed, removed, withoutFields_put,
        Json.withoutAll_congr whole same, Json.withoutAll_withoutAll whole fun keys => (same keys).1]
      exact ⟨rfl, rfl⟩
  · rw [removed]
    refine ⟨fun p member => ?_, fun q apart => rfl, ⟨rfl, rfl, fun q w read => ⟨w, read, .inl rfl⟩⟩, fun id _ => rfl,
      fun _ others plainOthers _ => ?_⟩
    · exact getField_of_no_object other (plain p member).1 (plain p member).2
    · rw [removeFields_eq s key plainOthers, removed]
      exact ⟨rfl, rfl⟩

/-- A nested pair of paths, one of them twice. -/
def teamRemovals : List Path :=
  [teamPath ["rank", "overall"], teamPath ["rank"], teamPath ["rank", "overall"], teamPath ["home", "city"]]

theorem teamStore_removeFields : ∃ s', teamStore.removeFields teamKey teamRemovals = .ok s' ∧
    s'.getField teamKey (teamPath ["rank", "overall"]) = .ok none ∧
    s'.getField teamKey (teamPath ["id"]) = teamStore.getField teamKey (teamPath ["id"]) ∧
    teamStore.removeFields teamKey [teamPath ["home", "city"], teamPath ["rank", "overall"], teamPath ["rank"]] =
      .ok s' := by
  have plain : ∀ p ∈ teamRemovals, p.IsLiteral ∧ p.steps ≠ [] := by
    unfold Path.IsLiteral
    decide
  obtain ⟨s', removed, missing, kept, -, -, settled⟩ :=
    removeFields_removes_exactly teamStore teamKey teamRemovals plain
  refine ⟨s', removed, missing _ (by decide), kept _ (by decide), (settled ?_ _ ?_ ?_).1⟩
  · intro record found
    cases found
    exact Json.ordered_canonical
      (.obj [("home", .null), ("id", .str "t1"), ("rank", .obj [("overall", .num (.int 3))])])
  · unfold Path.IsLiteral
    decide
  · intro keys
    grind [teamRemovals]

end MemoryStore

end DocSchema
