import DocSchema.Proofs.Store.Steps
import DocSchema.Proofs.Table.Effect
import DocSchema.Proofs.Table.Resolution

/-!
# Records and their keys

A record is stored under the text of its primary key member. Whole records are stored so, and a record that a
field write creates begins with its key, but the key member is also a field like any other: as long as no setter
and no remover names it, the member and the id of a record agree, and looking up a key finds what a search for
the key finds.
-/

namespace DocSchema

open DocSchema.Action

/-- The record has a string or a number under the primary key, and its text is the id. -/
def IsKeyed (primaryKey id : String) (record : Json) : Prop :=
  ∃ v, record.member? primaryKey = some v ∧ v.isKey = true ∧ v.text = id

namespace MemoryStore

variable {name : String} {before after : Json.Members}

/-- The path starts at another member of the record than `name`. -/
def LeadsAside (name : String) (p : Path) : Prop :=
  ∃ s rest, p.steps = s :: rest ∧ s.key ≠ .literal name

theorem get?_writeAll {updates : List (Path × Json)} (aside : ∀ u ∈ updates, LeadsAside name u.1)
    (success : writeAll updates before = .ok after) : Assoc.get? name after = Assoc.get? name before := by
  refine writeAll_induction (P := fun members => Assoc.get? name members = Assoc.get? name before)
    (fun u member now next same written => ?_) rfl success
  obtain ⟨s, rest, steps, other⟩ := aside u member
  rw [steps] at written
  rw [Json.get?_writeSteps written other, same]

theorem get?_removeAll {paths : List Path} (aside : ∀ p ∈ paths, LeadsAside name p)
    (success : removeAll paths before = .ok after) : Assoc.get? name after = Assoc.get? name before := by
  refine removeAll_induction (P := fun members => Assoc.get? name members = Assoc.get? name before)
    (fun p member now next same removed => ?_) rfl success
  obtain ⟨s, rest, steps, other⟩ := aside p member
  rw [steps] at removed
  rw [Json.get?_removeSteps removed other, same]

end MemoryStore

/-- A key that is found in a record is its member, unless a float zero found the other one. -/
theorem MemoryStore.member?_of_hasKey {key : RecordKey} {record : Json}
    (nonzero : ∀ x, key.value = .num (.float x) → x.isZero = false) (scalar : key.value.isKey = true)
    (found : hasKey key record = true) : record.member? key.name = some key.value := by
  obtain ⟨v, present, same⟩ := (Option.any_eq_true _ _).1 found
  rw [present]
  obtain ⟨name, value⟩ := key
  cases value with
  | str a =>
    cases v with
    | str b => simpa [Json.same, eq_comm] using same
    | _ => cases same
  | num m =>
    cases v with
    | num n =>
      cases m with
      | int i =>
        cases n with
        | int j => simpa [Json.same, Number.same, eq_comm] using same
        | float y => cases same
      | float x =>
        cases n with
        | int j => cases same
        | float y => simpa [Json.same, Number.same, Binary64.same, nonzero x rfl, eq_comm] using same
    | _ => cases same
  | _ => cases scalar

namespace Table

variable {name primaryKey : String} {schema : ObjectSchema} {config : EngineConfig} {t : Table}

/-- A path that is not the primary key starts at another member, if the primary key can be checked at all: its
field holds no other places. -/
theorem leadsAside_of_resolve (built : (ofSchema name primaryKey schema config).result = .ok t)
    {coercion : Coercion} {value : Json} {key : RecordKey}
    (checked : (t.checkKey coercion primaryKey value).result = .ok key) {path : String} {args : Arguments}
    {d : FieldDescriptor} {p : Path} (resolved : t.resolve path args = .ok (d, p)) (apart : path ≠ primaryKey) :
    MemoryStore.LeadsAside primaryKey p := by
  obtain ⟨registered, rfl⟩ := resolve_ok resolved
  obtain ⟨place, text, -⟩ := isPlace_of_registered built registered
  obtain ⟨f, declared, top⟩ := place.top
  obtain ⟨⟨rest, steps⟩, other⟩ :
      (f.pathIn schema Path.root).steps <+: d.path.steps ∧ f.name ≠ primaryKey := by
    rcases top with rfl | ⟨container, below⟩
    · rw [Field.pathText_place_root] at text
      exact ⟨List.prefix_rfl, text ▸ apart⟩
    · refine ⟨below, fun named => ?_⟩
      rw [not_isContainer_of_checkKey built checked declared named] at container
      cases container
  refine ⟨(f.step (f.typeIn schema)).under args, rest.map (PathStep.under args), ?_, ?_⟩
  · rw [Path.under, ← steps]
    rfl
  · rw [PathStep.key_under, PathStep.keyUnder_literal rfl]
    exact fun same => other (StepKey.literal.inj same)

/-- The record that a field write starts from is keyed, whether it is found or made. -/
theorem isKeyed_target {s : MemoryStore} {key : RecordKey} {before : Json.Members}
    (keyed : s.Holds (IsKeyed primaryKey)) (named : key.name = primaryKey) (scalar : key.value.isKey = true)
    (start : s.target key = .ok before) : IsKeyed primaryKey key.id (.obj before) := by
  rcases MemoryStore.target_ok start with found | ⟨-, rfl⟩
  · exact keyed _ _ found
  · refine ⟨key.value, ?_, scalar, rfl⟩
    simp [Json.member?, Assoc.get?, named]

/-- Every effect keeps the records keyed, if no setter and no remover names the primary key. -/
theorem Effect.keeps_keyed (built : (ofSchema name primaryKey schema config).result = .ok t)
    {s s' : MemoryStore} {request : TableRequest} (effect : Effect t s request s') (safe : request.IsSafe)
    (apart : primaryKey ∉ request.changedPaths) (keyed : s.Holds (IsKeyed primaryKey)) :
    s'.Holds (IsKeyed primaryKey) := by
  obtain ⟨rfl, -⟩ := ofSchema_ok built
  cases effect with
  | stay => exact keyed
  | write ready checked written =>
    obtain ⟨named, scalar, -⟩ := checkKey_ok checked
    obtain ⟨before, after, start, applied, rfl⟩ := MemoryStore.setFields_ok written
    obtain ⟨v, present, scalar, text⟩ := isKeyed_target keyed named scalar start
    refine keyed.put ⟨v, ?_, scalar, text⟩
    have kept : Assoc.get? t.primaryKey after = Assoc.get? t.primaryKey before := by
      refine MemoryStore.get?_writeAll (fun u member => ?_) applied
      obtain ⟨setter, declared, own, prepared, inside⟩ := prepareAll_ok ready member
      obtain ⟨setter, rfl⟩ := safe setter declared
      obtain ⟨d, ws, resolved, -⟩ := prepare_checked_ok prepared inside
      refine leadsAside_of_resolve built checked resolved fun same => apart ?_
      exact List.mem_append_left _ (List.mem_map.2 ⟨_, declared, same⟩)
    exact kept.trans present
  | remove resolved checked removed =>
    rcases MemoryStore.removeFields_ok removed with rfl | ⟨before, after, found, applied, rfl⟩
    · exact keyed
    · obtain ⟨v, present, scalar, text⟩ := keyed _ _ found
      refine keyed.put ⟨v, ?_, scalar, text⟩
      have kept : Assoc.get? t.primaryKey after = Assoc.get? t.primaryKey before := by
        refine MemoryStore.get?_removeAll (fun p member => ?_) applied
        obtain ⟨remover, declared, d, resolved⟩ := resolveRemovers_ok resolved member
        refine leadsAside_of_resolve built checked resolved fun same => apart ?_
        exact List.mem_append_right _ (List.mem_map.2 ⟨_, declared, same⟩)
      exact kept.trans present
  | put _ keyOf stored =>
    obtain ⟨named, scalar, present⟩ := keyOfRecord_ok keyOf
    obtain ⟨members, rfl, rfl⟩ := MemoryStore.putRecord_ok present stored
    exact keyed.put ⟨_, named ▸ present, scalar, rfl⟩
  | delete _ => exact keyed.deleteRecord _

/-- Records stay keyed through every history of checked requests, failed ones included, in which no setter and no
remover names the primary key. Then a search for a checked key finds only the record that a look-up of the key
finds; float zeros are left out, of which there are two that are equal and differ in their text. -/
theorem history_keeps_keyed (built : (ofSchema name primaryKey schema config).result = .ok t)
    (coercion : Coercion) (log : List LogEntry) (requests : List TableRequest)
    (safe : ∀ request ∈ requests, request.IsSafe)
    (apart : ∀ request ∈ requests, primaryKey ∉ request.changedPaths) :
    let s := (t.serve requests ⟨MemoryStore.empty coercion, log⟩).store
    (∀ id record, s.records.get? id = some record → IsKeyed primaryKey id record) ∧
    ∀ value key limit record, (t.checkKey coercion primaryKey value).result = .ok key →
      (∀ x, key.value = .num (.float x) → x.isZero = false) →
      record ∈ s.selected key limit → s.find? key = some record := by
  intro s
  have keyed : s.Holds (IsKeyed primaryKey) :=
    serve_induction (P := MemoryStore.Holds (IsKeyed primaryKey))
      (fun request member session keyed =>
        (effect_handle t request session).keeps_keyed built (safe request member) (apart request member) keyed)
      (MemoryStore.holds_empty coercion)
  refine ⟨keyed, fun value key limit record checked nonzero searched => ?_⟩
  obtain ⟨named, scalar, -⟩ := checkKey_ok checked
  have found : record ∈ s.records.values.filter (MemoryStore.hasKey key) := by
    unfold MemoryStore.selected at searched
    split at searched
    · exact List.mem_of_mem_take searched
    · exact searched
  obtain ⟨stored, hasKey⟩ := List.mem_filter.1 found
  obtain ⟨⟨id, _⟩, entry, rfl⟩ := List.mem_map.1 stored
  have lookup := SortedMap.mem_entries_iff.1 entry
  obtain ⟨v, present, -, text⟩ := keyed id _ lookup
  have member := MemoryStore.member?_of_hasKey nonzero scalar hasKey
  rw [named, present] at member
  cases member
  exact text ▸ lookup

/-- A client is stored and gets another name. -/
def naming : List TableRequest :=
  [.putRecord (.obj [("id", .str "c1"), ("name", .str "Ann")]), .set (.str "c1") "name" (.str "Bea") ∅]

/-- The client is found under the key with the new name. -/
theorem naming_keeps_keyed :
    let key : RecordKey := ⟨"id", .str "c1"⟩
    let record : Json := .obj [("id", .str "c1"), ("name", .str "Bea")]
    ∃ t, (ofSchema "clients" "id" clientSchema {}).result = .ok t ∧
      (∀ request ∈ naming, request.IsSafe) ∧ (∀ request ∈ naming, "id" ∉ request.changedPaths) ∧
      (t.checkKey .passThrough "id" key.value).result = .ok key ∧
      (∀ x, key.value = .num (.float x) → x.isZero = false) ∧
      let s := (t.serve naming ⟨MemoryStore.empty .passThrough, []⟩).store
      s.records.get? key.id = some record ∧ IsKeyed "id" key.id record ∧
        record ∈ s.selected key none ∧ s.find? key = some record := by
  intro key record
  have run : (ofSchema "clients" "id" clientSchema {}).result.toOption.any (fun t =>
      let s := (t.serve naming ⟨MemoryStore.empty .passThrough, []⟩).store
      decide (s.records.get? key.id = some record) && decide (s.selected key none = [record]) &&
        decide ((t.checkKey .passThrough "id" key.value).result.toOption = some key)) = true := by
    decide
  obtain ⟨t, built, passed⟩ := exists_eq_ok_of_any run
  simp only [Bool.and_eq_true, decide_eq_true_eq] at passed
  obtain ⟨⟨stored, searched⟩, checked⟩ := passed
  have checked := eq_ok_of_toOption checked
  have safe : ∀ request ∈ naming, request.IsSafe := by
    simp [naming, TableRequest.IsSafe, TableRequest.setters]
  have apart : ∀ request ∈ naming, "id" ∉ request.changedPaths := by
    decide
  have nonzero : ∀ x, key.value = .num (.float x) → x.isZero = false := by
    intro x same
    cases same
  obtain ⟨keyed, found⟩ := history_keeps_keyed built .passThrough [] naming safe apart
  have member : record ∈ (t.serve naming ⟨MemoryStore.empty .passThrough, []⟩).store.selected key none :=
    searched ▸ List.mem_singleton_self record
  exact ⟨t, built, safe, apart, checked, nonzero, stored, keyed _ _ stored, member,
    found _ key none record checked nonzero member⟩

/-- A client is stored and gets another key. -/
def rekeying : List TableRequest :=
  [.putRecord (.obj [("id", .str "c1")]), .set (.str "c1") "id" (.str "c2") ∅]

/-- The client stays under the old id: a search for the new key finds it, and a look-up of the new key does not. -/
theorem rekeying_separates_search_and_lookup :
    let key : RecordKey := ⟨"id", .str "c2"⟩
    ∃ t, (ofSchema "clients" "id" clientSchema {}).result = .ok t ∧
      (∀ request ∈ rekeying, request.IsSafe) ∧
      (t.checkKey .passThrough "id" key.value).result = .ok key ∧
      let s := (t.serve rekeying ⟨MemoryStore.empty .passThrough, []⟩).store
      ∃ id record, s.records.get? id = some record ∧ ¬ IsKeyed "id" id record ∧
        record ∈ s.selected key none ∧ s.find? key = none := by
  intro key
  let old : RecordKey := ⟨"id", .str "c1"⟩
  let record : Json := .obj [("id", .str "c2")]
  have run : (ofSchema "clients" "id" clientSchema {}).result.toOption.any (fun t =>
      let s := (t.serve rekeying ⟨MemoryStore.empty .passThrough, []⟩).store
      decide (s.records.get? old.id = some record) && decide (s.selected key none = [record]) &&
        decide (s.find? key = none) &&
        decide ((t.checkKey .passThrough "id" key.value).result.toOption = some key)) = true := by
    decide
  obtain ⟨t, built, passed⟩ := exists_eq_ok_of_any run
  simp only [Bool.and_eq_true, decide_eq_true_eq] at passed
  obtain ⟨⟨⟨stored, searched⟩, absent⟩, checked⟩ := passed
  have safe : ∀ request ∈ rekeying, request.IsSafe := by
    simp [rekeying, TableRequest.IsSafe, TableRequest.setters]
  have other : ¬ IsKeyed "id" old.id record := by
    intro keyed
    obtain ⟨v, present, -, text⟩ := keyed
    cases present
    exact absurd text (by decide)
  exact ⟨t, built, safe, eq_ok_of_toOption checked, old.id, record, stored, other,
    searched ▸ List.mem_singleton_self record, absent⟩

end Table

end DocSchema
