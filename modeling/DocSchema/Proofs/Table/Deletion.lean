import DocSchema.Proofs.Json.NumberText
import DocSchema.Proofs.Json.StringText
import DocSchema.Proofs.Table.KeyCoherence
import DocSchema.Proofs.Table.Outcome

/-!
# What a deletion removes

A deletion erases the id of its key, which is the text of the key's value. Different keys have different texts, so in
a table that was filled with whole records it removes exactly the record that has the value as its primary key. The
field that the key names is looked up for its type and then left aside.
-/

namespace DocSchema

open DocSchema.Action

namespace Json

theorem ofText?_quoted (s : String) : Numeral.ofText? (quoted s) = none := rfl

/-- The text of a number is read as a numeral. -/
theorem exists_ofText?_numberText (n : Number) : ∃ numeral, Numeral.ofText? (numberText n) = some numeral := by
  cases n with
  | int i => exact ⟨_, ofText?_intText i⟩
  | float x =>
    obtain ⟨numeral, text, -⟩ := Binary64.exists_ofText?_text x
    exact ⟨numeral, text⟩

theorem quoted_ne_numberText (s : String) (n : Number) : quoted s ≠ numberText n := by
  intro same
  obtain ⟨numeral, read⟩ := exists_ofText?_numberText n
  rw [← same, ofText?_quoted] at read
  cases read

/-- Different keys have different texts. -/
theorem text_injective_of_isKey {v w : Json} (first : v.isKey = true) (second : w.isKey = true)
    (same : v.text = w.text) : v = w := by
  have same : write .compact 0 v = write .compact 0 w := String.ofList_injective same
  cases v with
  | str a =>
    cases w with
    | str b => rw [quoted_injective same]
    | num n => exact absurd same (quoted_ne_numberText a n)
    | _ => cases second
  | num m =>
    cases w with
    | str b => exact absurd same.symm (quoted_ne_numberText b m)
    | num n => rw [numberText_injective same]
    | _ => cases second
  | _ => cases first

end Json

namespace MemoryStore

variable {s : MemoryStore} {key : RecordKey} {primaryKey id : String} {record : Json}

/-- Where records are stored under their primary keys, an id is the id of the key that its record has. -/
theorem id_eq_iff (keyed : s.Holds (IsKeyed primaryKey)) (scalar : key.value.isKey = true)
    (stored : s.records.get? id = some record) : key.id = id ↔ record.member? primaryKey = some key.value := by
  obtain ⟨v, present, isKey, rfl⟩ := keyed id record stored
  rw [present, Option.some.injEq]
  constructor
  · intro same
    exact (Json.text_injective_of_isKey scalar isKey same).symm
  · rintro rfl
    rfl

/-- Deleting a key leaves the records that have other primary keys. -/
theorem get?_deleteRecord (keyed : s.Holds (IsKeyed primaryKey)) (scalar : key.value.isKey = true) :
    (s.deleteRecord key).2.records.get? id = some record ↔
      s.records.get? id = some record ∧ record.member? primaryKey ≠ some key.value := by
  change (s.records.erase key.id).get? id = some record ↔ _
  by_cases same : key.id = id
  · rw [← same, SortedMap.get?_erase_self]
    constructor
    · nofun
    · rintro ⟨stored, other⟩
      exact absurd ((id_eq_iff keyed scalar stored).1 rfl) other
  · rw [SortedMap.get?_erase_of_ne _ same]
    refine ⟨fun stored => ⟨stored, fun present => same ?_⟩, And.left⟩
    exact (id_eq_iff keyed scalar stored).2 present

theorem find?_isSome_iff (keyed : s.Holds (IsKeyed primaryKey)) (scalar : key.value.isKey = true) :
    (s.find? key).isSome = true ↔
      ∃ id record, s.records.get? id = some record ∧ record.member? primaryKey = some key.value := by
  rw [Option.isSome_iff_exists]
  constructor
  · rintro ⟨record, found⟩
    exact ⟨key.id, record, found, (id_eq_iff keyed scalar found).1 rfl⟩
  · rintro ⟨id, record, stored, present⟩
    have same := (id_eq_iff keyed scalar stored).2 present
    exact ⟨record, (congrArg s.records.get? same).trans stored⟩

end MemoryStore

namespace Table

variable {name primaryKey : String} {schema : ObjectSchema} {config : EngineConfig} {t : Table}

/-- Putting records keeps them under their primary keys, and keeps what the store makes of numbers. -/
theorem puts_keep_keyed (built : (ofSchema name primaryKey schema config).result = .ok t) (coercion : Coercion)
    (log : List LogEntry) (records : List Json) :
    let s : MemoryStore := (t.serve (records.map .putRecord) ⟨.empty coercion, log⟩).store
    s.Holds (IsKeyed primaryKey) ∧ s.coercion = coercion := by
  refine serve_induction (P := fun s : MemoryStore => s.Holds (IsKeyed primaryKey) ∧ s.coercion = coercion)
    (fun request member session kept => ?_) ⟨MemoryStore.holds_empty coercion, rfl⟩
  obtain ⟨record, -, rfl⟩ := List.mem_map.1 member
  have effect := effect_handle t (.putRecord record) session
  refine ⟨effect.keeps_keyed built nofun ?_ kept.1, effect.coercion_eq.trans kept.2⟩
  exact List.not_mem_nil

/-- Where records are stored under their primary keys and numbers are left alone, a deletion that ends well removes
the records that have the given value as their primary key. -/
theorem deleteRecord_removes {session : Session MemoryStore} (keyed : session.store.Holds (IsKeyed primaryKey))
    (numbers : session.store.coercion = .passThrough) {given : RecordKey} {existed : Bool}
    (success : result (t.deleteRecord given) session = .ok existed) :
    (existed = true ↔
      ∃ id record, session.store.records.get? id = some record ∧ record.member? primaryKey = some given.value) ∧
    ∀ id record, (after (t.deleteRecord given) session).store.records.get? id = some record ↔
      session.store.records.get? id = some record ∧ record.member? primaryKey ≠ some given.value := by
  obtain ⟨key, checked, found, erased⟩ := deleteRecord_ok success
  rw [numbers] at checked
  obtain ⟨-, scalar, -⟩ := checkKey_ok checked
  have value : key.value = given.value := (value_of_checkKey checked).trans given.value.coerce_passThrough
  rw [← value, found, erased]
  exact ⟨MemoryStore.find?_isSome_iff keyed scalar, fun _ _ => MemoryStore.get?_deleteRecord keyed scalar⟩

/-- In a table that was filled with whole records, a deletion leaves every record whose primary key is not the value
of the given key, whichever field the key names. If it ends well, it tells whether there was a record with the
value as its primary key, and no such record is left. -/
theorem deletion_goes_by_primary_key (built : (ofSchema name primaryKey schema config).result = .ok t)
    (log : List LogEntry) (records : List Json) (given : RecordKey) :
    let session : Session MemoryStore :=
      t.serve (records.map .putRecord) ⟨.empty .passThrough, log⟩
    let stored := session.store.records
    let left := (after (t.deleteRecord given) session).store.records
    (∀ id record, stored.get? id = some record → record.member? primaryKey ≠ some given.value →
      left.get? id = some record) ∧
    ∀ existed, result (t.deleteRecord given) session = .ok existed →
      (existed = true ↔ ∃ id record, stored.get? id = some record ∧ record.member? primaryKey = some given.value) ∧
      ∀ id record, left.get? id = some record →
        stored.get? id = some record ∧ record.member? primaryKey ≠ some given.value := by
  intro session stored left
  obtain ⟨keyed, numbers⟩ := puts_keep_keyed built .passThrough log records
  refine ⟨fun id record present other => ?_, fun existed success => ?_⟩
  · cases outcome : result (t.deleteRecord given) session with
    | error e =>
      have kept := t.deleteRecord_atomic given session e outcome
      exact (congrArg (fun s => s.records.get? id) kept).trans present
    | ok existed => exact ((deleteRecord_removes keyed numbers outcome).2 id record).2 ⟨present, other⟩
  · obtain ⟨told, removed⟩ := deleteRecord_removes keyed numbers success
    exact ⟨told, fun id record remains => (removed id record).1 remains⟩

/-- The first client is called as the second one is keyed. -/
def namesakes : List Json :=
  [.obj [("id", .str "c1"), ("name", .str "c2")], .obj [("id", .str "c2"), ("name", .str "Bea")]]

/-- A deletion by the primary key removes the second client and leaves the first one. -/
theorem deletion_leaves_namesake :
    let given : RecordKey := ⟨"id", .str "c2"⟩
    let other : RecordKey := ⟨"id", .str "c1"⟩
    let namesake : Json := .obj [("id", .str "c1"), ("name", .str "c2")]
    let client : Json := .obj [("id", .str "c2"), ("name", .str "Bea")]
    ∃ t, (ofSchema "clients" "id" clientSchema {}).result = .ok t ∧
      let session : Session MemoryStore := t.serve (namesakes.map .putRecord) ⟨.empty .passThrough, []⟩
      let left := (after (t.deleteRecord given) session).store.records
      session.store.records.get? other.id = some namesake ∧ namesake.member? "id" ≠ some given.value ∧
        left.get? other.id = some namesake ∧
        session.store.records.get? given.id = some client ∧ client.member? "id" = some given.value ∧
        result (t.deleteRecord given) session = .ok true ∧ left.get? given.id = none := by
  intro given other namesake client
  have run : (ofSchema "clients" "id" clientSchema {}).result.toOption.any (fun t =>
      let session : Session MemoryStore := t.serve (namesakes.map .putRecord) ⟨.empty .passThrough, []⟩
      decide (session.store.records.get? other.id = some namesake) &&
        decide (session.store.records.get? given.id = some client) &&
        decide ((result (t.deleteRecord given) session).toOption = some true)) = true := by
    decide
  obtain ⟨t, built, passed⟩ := exists_eq_ok_of_any run
  simp only [Bool.and_eq_true, decide_eq_true_eq] at passed
  obtain ⟨⟨first, second⟩, deleted⟩ := passed
  have deleted := eq_ok_of_toOption deleted
  have apart : namesake.member? "id" ≠ some given.value := by decide
  obtain ⟨kept, ended⟩ := deletion_goes_by_primary_key built [] namesakes given
  refine ⟨t, built, first, apart, kept _ _ first apart, second, rfl, deleted, ?_⟩
  rw [Option.eq_none_iff_forall_ne_some]
  intro record left
  obtain ⟨stored, differs⟩ := (ended true deleted).2 _ _ left
  rw [second] at stored
  cases stored
  exact differs rfl

/-- Asked to delete the client with the name `c1`, the table deletes the client with the key `c1`, whose name is
another, and reports success. -/
theorem deletion_ignores_key_name :
    let given : RecordKey := ⟨"name", .str "c1"⟩
    let client : Json := .obj [("id", .str "c1"), ("name", .str "Ann")]
    ∃ t, (ofSchema "clients" "id" clientSchema {}).result = .ok t ∧
      (t.checkKey .passThrough given.name given.value).result = .ok given ∧
      let session : Session MemoryStore := t.serve [.putRecord client] ⟨.empty .passThrough, []⟩
      session.store.records.toList = [(given.id, client)] ∧ client.member? given.name ≠ some given.value ∧
        result (t.deleteRecord given) session = .ok true ∧
        (after (t.deleteRecord given) session).store.records.toList = [] := by
  intro given client
  have run : (ofSchema "clients" "id" clientSchema {}).result.toOption.any (fun t =>
      let session : Session MemoryStore := t.serve [.putRecord client] ⟨.empty .passThrough, []⟩
      decide ((t.checkKey .passThrough given.name given.value).result.toOption = some given) &&
        decide (session.store.records.toList = [(given.id, client)]) &&
        decide ((result (t.deleteRecord given) session).toOption = some true) &&
        decide ((after (t.deleteRecord given) session).store.records.toList = [])) = true := by
    decide
  obtain ⟨t, built, passed⟩ := exists_eq_ok_of_any run
  simp only [Bool.and_eq_true, decide_eq_true_eq] at passed
  obtain ⟨⟨⟨checked, stored⟩, deleted⟩, left⟩ := passed
  exact ⟨t, built, eq_ok_of_toOption checked, stored, by decide, eq_ok_of_toOption deleted, left⟩

end Table

end DocSchema
