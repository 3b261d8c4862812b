import DocSchema.Proofs.Table.Batches
import DocSchema.Proofs.Table.Deletion
import DocSchema.Proofs.Table.RecordRoundTrip

/-!
# Writes and other records

A write goes to the record of one key: the one that the table has checked, or the one that a whole record carries.
Every other record stays as it is, and since different keys have different texts, no other key is written to.
-/

namespace DocSchema

open DocSchema.Action

theorem Assoc.length_insert_le {α : Type} (name : String) (a : α) (entries : Assoc α) :
    (insert name a entries).length ≤ entries.length + 1 := by
  induction entries with
  | nil => simp [insert]
  | cons e rest ih =>
    obtain ⟨n, b⟩ := e
    rw [insert]
    split
    · simp
    · split
      · simp
      · simpa using ih

namespace MemoryStore

variable {s s' : MemoryStore} {key : RecordKey}

/-- The stores agree on all records but the one of the key, and the second has at most one record more. -/
structure AgreesBut (key : RecordKey) (s s' : MemoryStore) : Prop where
  others : ∀ id, key.id ≠ id → s'.records.get? id = s.records.get? id
  size : s'.size ≤ s.size + 1

theorem AgreesBut.refl (key : RecordKey) (s : MemoryStore) : AgreesBut key s s :=
  ⟨fun _ _ => rfl, Nat.le_succ _⟩

theorem AgreesBut.put (s : MemoryStore) (key : RecordKey) (members : Json.Members) :
    AgreesBut key s (s.put key members) :=
  ⟨fun _ other => SortedMap.get?_insert_of_ne _ other _, Assoc.length_insert_le _ _ _⟩

theorem AgreesBut.of_update {updates : List (Path × Json)} (written : s.update key updates = .ok s') :
    AgreesBut key s s' := by
  unfold update at written
  split at written
  · cases written
    exact .refl key s
  · obtain ⟨_, _, _, _, rfl⟩ := setFields_ok written
    exact .put s key _

theorem AgreesBut.of_removeFields {paths : List Path} (removed : s.removeFields key paths = .ok s') :
    AgreesBut key s s' := by
  rcases removeFields_ok removed with rfl | ⟨_, _, _, _, rfl⟩
  · exact .refl key s'
  · exact .put s key _

end MemoryStore

namespace TableRequest

/-- The request changes fields of a record or puts a record. -/
def isWrite : TableRequest → Bool
  | .set .. | .setRaw .. | .setMany .. | .remove .. | .removeMany .. | .putRecord .. => true
  | _ => false

/-- A removal of no fields asks for nothing, and not even its key is looked at. -/
def isIdle : TableRequest → Bool
  | .removeMany _ removers => removers.isEmpty
  | _ => false

/-- The value of its key as the request gives it: on its own, or in the primary key of a whole record. -/
def givenKey? (primaryKey : String) : TableRequest → Option Json
  | .set keyValue .. | .setRaw keyValue _ | .setMany keyValue _ | .remove keyValue .. | .removeMany keyValue _ =>
    some keyValue
  | .putRecord record => record.member? primaryKey
  | _ => none

end TableRequest

namespace Table

/-- The key and the members with which a whole record is stored. The record has its primary key, it is valid, and what
is left of it still has a string or a number there. -/
def placed? (t : Table) (coercion : Coercion) (record : Json) : Option (RecordKey × Json.Members) := do
  let given ← (record.member? t.primaryKey).filter fun v => v ≠ .null
  let checked ← (t.compiled.record.validate coercion record).result.toOption
  match checked.value with
  | some (.obj members) => return (← (t.keyOfRecord given (.obj members)).toOption, members)
  | _ => none

end Table

/-- The key that a request writes to, checked and with its number coerced: the given one, or the one of the record as
it is stored. -/
def TableRequest.writeKey? (t : Table) (coercion : Coercion) : TableRequest → Option RecordKey
  | .set keyValue .. | .setRaw keyValue _ | .setMany keyValue _ | .remove keyValue .. | .removeMany keyValue _ =>
    (t.checkKey coercion t.primaryKey keyValue).result.toOption
  | .putRecord record => (t.placed? coercion record).map Prod.fst
  | _ => none

namespace Table

variable {t : Table} {session : Session MemoryStore} {keyValue record : Json}

/-- A removal that ends well has removed the paths of its removers from the record of its key, or had none. -/
theorem removeMany_ok {removers : List FieldRemover}
    (success : result (t.removeMany keyValue removers) session = .ok ()) :
    removers.isEmpty = true ∧ (after (t.removeMany keyValue removers) session).store = session.store ∨
      removers.isEmpty = false ∧ ∃ paths key, t.resolveRemovers removers = .ok paths ∧
        (t.checkKey session.store.coercion t.primaryKey keyValue).result = .ok key ∧
        session.store.removeFields key paths = .ok (after (t.removeMany keyValue removers) session).store := by
  unfold removeMany at success ⊢
  cases none : removers.isEmpty with
  | true => exact .inl ⟨rfl, rfl⟩
  | false =>
    rw [none] at success
    obtain ⟨paths, resolved, steps⟩ := bind_ok_iff.1 success
    obtain ⟨key, checked, steps⟩ := bind_ok_iff.1 steps
    obtain ⟨_, ⟨⟩, called⟩ := bind_ok_iff.1 steps
    have kept := t.checkedKey_reads ⟨t.primaryKey, keyValue⟩ session
    have removed := TableM.call_writing_ok (·.removeFields key paths) _ called
    refine .inr ⟨rfl, paths, key, eq_ok_of_mapError resolved, TableM.result_checkedKey.symm.trans checked, ?_⟩
    rw [← kept]
    refine removed.trans (congrArg (fun now : Session MemoryStore => Except.ok now.store) (Eq.symm ?_))
    refine (bind_of_ok resolved).2.trans ((bind_of_ok checked).2.trans ?_)
    exact (bind_of_ok rfl).2

/-- What places a record: its primary key is there and is not null, it is valid, and what is left of it has a key. -/
theorem placed?_eq_some_iff {coercion : Coercion} {key : RecordKey} {kept : Json.Members} :
    t.placed? coercion record = some (key, kept) ↔
      ∃ given dropped, record.member? t.primaryKey = some given ∧ given ≠ .null ∧
        (t.compiled.record.validate coercion record).result = .ok ⟨some (.obj kept), dropped⟩ ∧
        t.keyOfRecord given (.obj kept) = .ok key := by
  constructor
  · intro placed
    obtain ⟨given, present, placed⟩ := Option.bind_eq_some_iff.1 placed
    obtain ⟨present, nonnull⟩ := Option.filter_eq_some_iff.1 present
    obtain ⟨⟨value, dropped⟩, validated, placed⟩ := Option.bind_eq_some_iff.1 placed
    split at placed
    · next members held =>
      obtain ⟨_, keyed, ⟨⟩⟩ := Option.bind_eq_some_iff.1 placed
      have held : value = some (.obj kept) := held
      subst held
      exact ⟨given, dropped, present, of_decide_eq_true nonnull, eq_ok_of_toOption validated,
        eq_ok_of_toOption keyed⟩
    · cases placed
  · rintro ⟨given, dropped, present, nonnull, validated, keyed⟩
    simp only [placed?, present, Option.filter, nonnull, ne_eq, not_false_eq_true, decide_true, if_true,
      Option.bind_eq_bind, Option.bind_some, validated, Except.toOption, keyed, Option.pure_def]

/-- A record is stored as it is placed. -/
theorem store_putRecord {dropped : List Mismatch} (success : result (t.putRecord record) session = .ok dropped) :
    ∃ key members, t.placed? session.store.coercion record = some (key, members) ∧
      (after (t.putRecord record) session).store = session.store.put key members := by
  obtain ⟨given, value, key, present, validated, keyed, stored⟩ := putRecord_ok success
  have nonnull : given ≠ .null := by
    rintro rfl
    unfold putRecord at success
    rw [present] at success
    cases success
  obtain ⟨-, -, held⟩ := keyOfRecord_ok keyed
  obtain ⟨members, rfl, left⟩ := MemoryStore.putRecord_ok held stored
  exact ⟨key, members, placed?_eq_some_iff.2 ⟨given, dropped, present, nonnull, validated, keyed⟩, left⟩

/-- The key of a record is the value that was given for it, with its number coerced. -/
theorem value_of_placed {coercion : Coercion} {key : RecordKey} {kept : Json.Members} (ordered : record.Ordered)
    (placed : t.placed? coercion record = some (key, kept)) :
    (record.member? t.primaryKey).map (Json.coerce coercion) = some key.value := by
  obtain ⟨given, dropped, present, -, validated, keyed⟩ := placed?_eq_some_iff.1 placed
  obtain ⟨-, scalar, -⟩ := keyOfRecord_ok keyed
  cases record with
  | obj members =>
    obtain ⟨_, _, _, -, checked⟩ := check_of_keyOfRecord (.of_ordered ordered) validated keyed present
    rw [present, Validator.check_isKey checked scalar, Option.map_some]
  | _ => cases present

/-- A record that has a place is put there. -/
theorem putRecord_ok_of_placed {key : RecordKey} {members : Json.Members}
    (placed : t.placed? session.store.coercion record = some (key, members)) :
    ∃ dropped, result (t.putRecord record) session = .ok dropped := by
  obtain ⟨given, dropped, present, nonnull, checked, keyed⟩ := placed?_eq_some_iff.1 placed
  refine ⟨dropped, ?_⟩
  unfold putRecord
  rw [present]
  split
  · next absent => cases absent
  · next null =>
    cases null
    exact (nonnull rfl).elim
  · next again =>
    cases again
    have validated : result (validate t.compiled.record record : TableM MemoryStore _) session =
        .ok ⟨some (.obj members), dropped⟩ := congrArg (Except.mapError TableError.validation) checked
    have named : result (TableM.ofExcept id (t.keyOfRecord given (.obj members)) : TableM MemoryStore _)
        (after (validate t.compiled.record record : TableM MemoryStore _) session) = .ok key :=
      congrArg (Except.mapError id) keyed
    rw [(bind_of_ok validated).1]
    refine (bind_of_ok named).1.trans ?_
    rfl

/-- A batch of setters has a key and changes no other record. -/
theorem agreesBut_of_setMany {setters : List Setter} {report : WriteReport}
    (success : result (t.setMany keyValue setters) session = .ok report) :
    ∃ key, (t.checkKey session.store.coercion t.primaryKey keyValue).result.toOption = some key ∧
      MemoryStore.AgreesBut key session.store (after (t.setMany keyValue setters) session).store := by
  obtain ⟨_, key, -, checked, written, -⟩ := setMany_ok_iff.1 ⟨success, rfl⟩
  refine ⟨key, ?_, .of_update written⟩
  rw [checked]
  rfl

/-- A batch of removers has a key and changes no other record, or it is empty and changes none. -/
theorem agreesBut_of_removeMany {removers : List FieldRemover}
    (success : result (t.removeMany keyValue removers) session = .ok ()) :
    removers.isEmpty = true ∧ (after (t.removeMany keyValue removers) session).store = session.store ∨
      removers.isEmpty = false ∧
        ∃ key, (t.checkKey session.store.coercion t.primaryKey keyValue).result.toOption = some key ∧
          MemoryStore.AgreesBut key session.store (after (t.removeMany keyValue removers) session).store := by
  rcases removeMany_ok success with idle | ⟨asked, _, key, _, checked, removed⟩
  · exact .inl idle
  · refine .inr ⟨asked, key, ?_, .of_removeFields removed⟩
    rw [checked]
    rfl

/-- The record that is put has a key, and no other record changes. -/
theorem agreesBut_of_putRecord {dropped : List Mismatch}
    (success : result (t.putRecord record) session = .ok dropped) :
    ∃ key, (TableRequest.putRecord record).writeKey? t session.store.coercion = some key ∧
      MemoryStore.AgreesBut key session.store (after (t.putRecord record) session).store := by
  obtain ⟨key, members, placed, left⟩ := store_putRecord success
  refine ⟨key, congrArg (Option.map Prod.fst) placed, ?_⟩
  rw [left]
  exact .put session.store key members

/-- A write that ends well has asked for nothing, or it has a key and has changed no other record. -/
theorem agreesBut_of_write {request : TableRequest} {reply : TableReply} (write : request.isWrite = true)
    (success : result (t.handle request) session = .ok reply) :
    request.isIdle = true ∧ (after (t.handle request) session).store = session.store ∨
      request.isIdle = false ∧ ∃ key, request.writeKey? t session.store.coercion = some key ∧
        MemoryStore.AgreesBut key session.store (after (t.handle request) session).store := by
  -- a reply only wraps what the table returns, and the session is the one that the table leaves
  have wrapped {α : Type} {x : TableM MemoryStore α} {reply : α → TableReply} {P : MemoryStore → Prop}
      (left : P (after x session).store) : P (after (x >>= fun a => pure (reply a)) session).store := by
    rw [after_bind_pure]
    exact left
  cases request with
  | set keyValue path value arguments =>
    obtain ⟨_, ended, -⟩ := bind_ok_iff.1 success
    obtain ⟨key, checked, agree⟩ := agreesBut_of_setMany ended
    exact .inr ⟨rfl, key, checked, wrapped agree⟩
  | setRaw keyValue setter =>
    obtain ⟨_, ended, -⟩ := bind_ok_iff.1 success
    obtain ⟨key, checked, agree⟩ := agreesBut_of_setMany ended
    exact .inr ⟨rfl, key, checked, wrapped agree⟩
  | setMany keyValue setters =>
    obtain ⟨_, ended, -⟩ := bind_ok_iff.1 success
    obtain ⟨key, checked, agree⟩ := agreesBut_of_setMany ended
    exact .inr ⟨rfl, key, checked, wrapped agree⟩
  | remove keyValue path arguments =>
    obtain ⟨_, ended, -⟩ := bind_ok_iff.1 success
    obtain ⟨empty, -⟩ | ⟨-, key, checked, agree⟩ := agreesBut_of_removeMany ended
    · cases empty
    · exact .inr ⟨rfl, key, checked, wrapped agree⟩
  | removeMany keyValue removers =>
    obtain ⟨_, ended, -⟩ := bind_ok_iff.1 success
    obtain ⟨idle, kept⟩ | ⟨asked, key, checked, agree⟩ := agreesBut_of_removeMany ended
    · exact .inl ⟨idle, wrapped (P := (· = session.store)) kept⟩
    · exact .inr ⟨asked, key, checked, wrapped agree⟩
  | putRecord record =>
    obtain ⟨_, ended, -⟩ := bind_ok_iff.1 success
    obtain ⟨key, written, agree⟩ := agreesBut_of_putRecord ended
    exact .inr ⟨rfl, key, written, wrapped agree⟩
  | _ => cases write

/-- The key of a write is the primary key, which is a string or a number: the value that the request gives, with its
number coerced. -/
theorem key_of_write {coercion : Coercion} {request : TableRequest} {key : RecordKey}
    (written : request.writeKey? t coercion = some key) :
    key.name = t.primaryKey ∧ key.value.isKey = true ∧
      ((∀ record, request = .putRecord record → record.Ordered) →
        (request.givenKey? t.primaryKey).map (Json.coerce coercion) = some key.value) := by
  have of_checked {given : Json}
      (checked : (t.checkKey coercion t.primaryKey given).result.toOption = some key) :
      key.name = t.primaryKey ∧ key.value.isKey = true ∧ some (given.coerce coercion) = some key.value := by
    have checked := eq_ok_of_toOption checked
    obtain ⟨named, scalar, -⟩ := checkKey_ok checked
    exact ⟨named, scalar, congrArg some (value_of_checkKey checked).symm⟩
  cases request with
  | set | setRaw | setMany | remove | removeMany =>
    obtain ⟨named, scalar, value⟩ := of_checked written
    exact ⟨named, scalar, fun _ => value⟩
  | putRecord record =>
    obtain ⟨⟨_, kept⟩, placed, rfl⟩ := Option.map_eq_some_iff.1 written
    obtain ⟨_, _, -, -, -, keyed⟩ := placed?_eq_some_iff.1 placed
    obtain ⟨named, scalar, -⟩ := keyOfRecord_ok keyed
    exact ⟨named, scalar, fun ordered => value_of_placed (ordered record rfl) placed⟩
  | _ => cases written

/-- A write that ends well changes at most the record whose id is the text of the key that it has checked, and adds
at most that record. That key is the primary key with the value that the request gives, its number coerced; of a whole
record the value is the member of that name, which an object has at most once. A write without a key has been asked
for nothing. And ids keep keys apart, strings and numbers alike. -/
theorem write_isolated (t : Table) (session : Session MemoryStore) :
    (∀ request reply, request.isWrite = true → result (t.handle request) session = .ok reply →
      let key? := request.writeKey? t session.store.coercion
      let left := (after (t.handle request) session).store
      (key?.isSome = true ∨ request.isIdle = true ∧ left = session.store) ∧
      (∀ key, key? = some key → key.name = t.primaryKey ∧ key.value.isKey = true ∧
        ((∀ record, request = .putRecord record → record.Ordered) →
          (request.givenKey? t.primaryKey).map (Json.coerce session.store.coercion) = some key.value)) ∧
      (∀ id, (∀ key, key? = some key → key.value.text ≠ id) →
        left.records.get? id = session.store.records.get? id) ∧
      left.size ≤ session.store.size + 1) ∧
    ∀ a b : RecordKey, a.value.isKey = true → b.value.isKey = true → (a.id = b.id ↔ a.value = b.value) := by
  constructor
  · intro request reply write success key? left
    rcases agreesBut_of_write write success with ⟨idle, kept⟩ | ⟨-, key, written, agree⟩
    · have kept : left = session.store := kept
      refine ⟨.inr ⟨idle, kept⟩, fun _ => key_of_write, fun id _ => by rw [kept], ?_⟩
      rw [kept]
      exact Nat.le_succ _
    · exact ⟨.inl (Option.isSome_iff_exists.2 ⟨key, written⟩), fun _ => key_of_write,
        fun id other => agree.others id (other key written), agree.size⟩
  · intro a b first second
    exact ⟨Json.text_injective_of_isKey first second, congrArg Json.text⟩

/-- Writing the name of a second client leaves the first one as it is. -/
theorem setting_second_client_isolated :
    ∃ t, (Table.ofSchema "clients" "id" clientSchema {}).result = .ok t ∧
      ∃ reply, result (t.handle (.set (.str "c2") "name" (.str "Bob") ∅)) clientSession = .ok reply ∧
        (after (t.handle (.set (.str "c2") "name" (.str "Bob") ∅)) clientSession).store.records.get? "\"c1\"" =
          clientSession.store.records.get? "\"c1\"" ∧
        ((RecordKey.mk "id" (.num (.int 5))).id = (RecordKey.mk "id" (.str "5")).id ↔
          Json.num (.int 5) = Json.str "5") := by
  have run : (Table.ofSchema "clients" "id" clientSchema {}).result.toOption.any (fun t =>
      (result (t.handle (.set (.str "c2") "name" (.str "Bob") ∅)) clientSession).toOption.any fun _ =>
        decide (((TableRequest.set (.str "c2") "name" (.str "Bob") ∅).writeKey? t .passThrough).all fun key =>
          key.value.text ≠ "\"c1\"")) = true := by
    decide
  obtain ⟨t, built, run⟩ := exists_eq_ok_of_any run
  obtain ⟨reply, success, other⟩ := exists_eq_ok_of_any run
  obtain ⟨writes, keys⟩ := write_isolated t clientSession
  refine ⟨t, built, reply, success, (writes _ reply rfl success).2.2.1 _ fun key written => ?_, keys _ _ rfl rfl⟩
  have other := of_decide_eq_true other
  rw [show TableRequest.writeKey? t .passThrough _ = some key from written] at other
  exact of_decide_eq_true other

end Table

end DocSchema
