import DocSchema.Store.Memory

/-!
# The records of a store

What each operation of the store in memory does to the stored records: a write replaces one record, and all
others stay as they are. What holds of every record is kept by an operation if the record that it writes has it.
-/

namespace DocSchema.MemoryStore

variable {s s' : MemoryStore} {key : RecordKey}

/-- Every stored record is as it should be under its id. -/
def Holds (Q : String → Json → Prop) (s : MemoryStore) : Prop :=
  ∀ id record, s.records.get? id = some record → Q id record

section Lookup

theorem find?_put_self (s : MemoryStore) (key : RecordKey) (members : Json.Members) :
    (s.put key members).find? key = some (.obj members) :=
  SortedMap.get?_insert_self _ _ _

theorem find?_put (s : MemoryStore) (other key : RecordKey) (members : Json.Members) :
    (s.put other members).find? key = if other.id = key.id then some (.obj members) else s.find? key := by
  split
  · next same =>
    rw [find?, put, same]
    exact SortedMap.get?_insert_self _ _ _
  · next other => exact SortedMap.get?_insert_of_ne _ other _

theorem put_put (s : MemoryStore) (key : RecordKey) (first second : Json.Members) :
    (s.put key first).put key second = s.put key second := by
  simp only [put, SortedMap.insert_insert]

/-- Records are told apart by their ids alone. -/
theorem find?_of_id {other : RecordKey} (same : other.id = key.id) : s.find? other = s.find? key := by
  rw [find?, find?, same]

theorem target_of_find? {members : Json.Members} (found : s.find? key = some (.obj members)) :
    s.target key = .ok members := by
  rw [target, found]

theorem target_put (s : MemoryStore) (key : RecordKey) (record : Json.Members) :
    (s.put key record).target key = .ok record :=
  target_of_find? (find?_put_self s key record)

/-- Without a record there is no field. -/
theorem getField_of_absent {p : Path} (absent : s.find? key = none) (start : p.steps ≠ []) :
    s.getField key p = .ok none := by
  have entered : p.isRoot = false := by simpa [Path.isRoot] using start
  simp only [getField, entered, absent]
  rfl

end Lookup

section Results

/-- The record that a field write starts from: the stored one, or a new one with nothing but its key. -/
theorem target_ok {before : Json.Members} (success : s.target key = .ok before) :
    s.find? key = some (.obj before) ∨ s.find? key = none ∧ before = [(key.name, key.value)] := by
  unfold target at success
  split at success
  · next found =>
    cases success
    exact .inl found
  · cases success
  · next absent =>
    cases success
    exact .inr ⟨absent, rfl⟩

theorem setFields_ok {updates : List (Path × Json)} (success : s.setFields key updates = .ok s') :
    ∃ before after, s.target key = .ok before ∧ writeAll updates before = .ok after ∧
      s' = s.put key after := by
  unfold setFields at success
  cases start : s.target key with
  | error e =>
    rw [start] at success
    cases success
  | ok before =>
    rw [start] at success
    change (writeAll updates before >>= fun record => pure (s.put key record)) = .ok s' at success
    cases written : writeAll updates before with
    | error e =>
      rw [written] at success
      cases success
    | ok after =>
      rw [written] at success
      cases success
      exact ⟨before, after, rfl, written, rfl⟩

theorem removeFields_ok {paths : List Path} (success : s.removeFields key paths = .ok s') :
    s' = s ∨ ∃ before after, s.find? key = some (.obj before) ∧ removeAll paths before = .ok after ∧
      s' = s.put key after := by
  unfold removeFields at success
  split at success
  · next before found =>
    cases removed : removeAll paths before with
    | error e =>
      rw [removed] at success
      cases success
    | ok after =>
      rw [removed] at success
      cases success
      exact .inr ⟨before, after, found, removed, rfl⟩
  · cases success
    exact .inl rfl

/-- A record that has the attribute of its key is stored as it is. -/
theorem putRecord_ok {record v : Json} (present : record.member? key.name = some v)
    (success : s.putRecord key record = .ok s') : ∃ members, record = .obj members ∧ s' = s.put key members := by
  unfold putRecord at success
  split at success
  · next members =>
    have contained : Assoc.contains key.name members = true := Option.isSome_iff_exists.2 ⟨v, present⟩
    rw [contained] at success
    cases success
    exact ⟨members, rfl, rfl⟩
  · cases success

end Results

section Holds

variable {Q : String → Json → Prop}

theorem holds_empty (coercion : Coercion) : Holds Q (empty coercion) :=
  fun _ _ found => nomatch found

theorem Holds.put (holds : Holds Q s) {members : Json.Members} (written : Q key.id (.obj members)) :
    Holds Q (s.put key members) := by
  intro id record found
  by_cases same : key.id = id
  · subst same
    rw [MemoryStore.put, SortedMap.get?_insert_self] at found
    cases found
    exact written
  · rw [MemoryStore.put, SortedMap.get?_insert_of_ne _ same] at found
    exact holds id record found

theorem Holds.deleteRecord (holds : Holds Q s) (key : RecordKey) : Holds Q (s.deleteRecord key).2 := by
  intro id record found
  by_cases same : key.id = id
  · subst same
    rw [MemoryStore.deleteRecord, SortedMap.get?_erase_self] at found
    cases found
  · rw [MemoryStore.deleteRecord, SortedMap.get?_erase_of_ne _ same] at found
    exact holds id record found

end Holds

end DocSchema.MemoryStore
