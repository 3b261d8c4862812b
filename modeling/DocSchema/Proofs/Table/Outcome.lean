import DocSchema.Proofs.Table.Atomicity

/-!
# How requests end

The outcome of a request to a store in memory, in terms of what was resolved, checked and stored.
-/

namespace DocSchema

open DocSchema.Action

namespace TableM

variable {α : Type} {session : Session MemoryStore}

theorem result_checkedKey {t : Table} {given : RecordKey} :
    result (t.checkedKey given : TableM MemoryStore _) session =
      (t.checkKey session.store.coercion given.name given.value).result := by
  change (Traced.result _).mapError id = _
  cases (t.checkKey session.store.coercion given.name given.value).result <;> rfl

section Writing

variable (f : MemoryStore → Except StoreError MemoryStore) (session : Session MemoryStore)

/-- A call that writes ends as the write does. -/
theorem call_writing_of_ok {final : MemoryStore} (written : f session.store = .ok final) :
    result (call (MemoryStore.writing f)) session = .ok () ∧
      (after (call (MemoryStore.writing f)) session).store = final := by
  simp only [result, after, call, MemoryStore.writing, written, and_true]
  rfl

theorem call_writing_of_error {e : StoreError} (failed : f session.store = .error e) :
    result (call (MemoryStore.writing f)) session = .error (.store e) := by
  simp only [result, call, MemoryStore.writing, failed]
  rfl

theorem call_writing_ok (success : result (call (MemoryStore.writing f)) session = .ok ()) :
    f session.store = .ok (after (call (MemoryStore.writing f)) session).store := by
  cases written : f session.store with
  | error e => cases success.symm.trans (call_writing_of_error f session written)
  | ok final => rw [(call_writing_of_ok f session written).2]

end Writing

end TableM

namespace Table

variable {t : Table} {session : Session MemoryStore} {key : RecordKey}

/-- A read of a field gives what is stored there, validated. -/
theorem result_get {keyValue : Json} {path : String} {args : Arguments} {d : FieldDescriptor} {p : Path}
    {found : Option Json} (resolved : t.resolve path args = .ok (d, p))
    (checked : (t.checkKey session.store.coercion t.primaryKey keyValue).result = .ok key)
    (stored : session.store.getField key p = .ok found) :
    result (t.get keyValue path args) session =
      match found with
      | some v => (d.validate session.store.coercion v).result.mapError .validation
      | none => .ok .empty := by
  have first : result (TableM.ofExcept .path (t.resolve path args) : TableM MemoryStore _) session =
      .ok (d, p) := by
    rw [resolved]
    rfl
  refine (bind_of_ok first).1.trans ((bind_of_ok (TableM.result_checkedKey.trans checked)).1.trans ?_)
  have called : ∀ log, result (TableM.call (DocumentStore.getField key p) : TableM MemoryStore _)
      ⟨session.store, log⟩ = .ok found := fun _ => congrArg (Except.mapError TableError.store) stored
  refine (bind_of_ok rfl).1.trans ((bind_of_ok (called _)).1.trans ?_)
  cases found <;> rfl

/-- A deletion that ends well has erased the id of the checked key, and tells whether a record was stored there. -/
theorem deleteRecord_ok {given : RecordKey} {existed : Bool}
    (success : result (t.deleteRecord given) session = .ok existed) :
    ∃ key, (t.checkKey session.store.coercion given.name given.value).result = .ok key ∧
      existed = (session.store.find? key).isSome ∧
      (after (t.deleteRecord given) session).store = (session.store.deleteRecord key).2 := by
  have steps := success
  unfold deleteRecord at steps
  obtain ⟨key, checked, rest⟩ := bind_ok_iff.1 steps
  have kept : (after (t.checkedKey given : TableM MemoryStore _) session).store = session.store :=
    t.checkedKey_reads given session
  refine ⟨key, TableM.result_checkedKey.symm.trans checked, ?_, ?_⟩
  · cases rest
    rw [← kept]
    rfl
  · rw [← kept]
    exact congrArg Session.store (bind_of_ok checked).2

/-- A record that is put is validated as a whole, and stored under the key that the validated record has. -/
theorem putRecord_ok {record : Json} {dropped : List Mismatch}
    (success : result (t.putRecord record) session = .ok dropped) :
    ∃ given value key, record.member? t.primaryKey = some given ∧
      (t.compiled.record.validate session.store.coercion record).result = .ok ⟨some value, dropped⟩ ∧
      t.keyOfRecord given value = .ok key ∧
      session.store.putRecord key value = .ok (after (t.putRecord record) session).store := by
  unfold putRecord at success ⊢
  split at success
  · cases success
  · cases success
  · next given nonnull present =>
    simp only [present]
    obtain ⟨⟨value, ws⟩, validated, steps⟩ := bind_ok_iff.1 success
    have kept := validate_reads t.compiled.record record session
    cases value with
    | none => cases steps
    | some value =>
      obtain ⟨key, keyed, steps⟩ := bind_ok_iff.1 steps
      obtain ⟨_, ⟨⟩, steps⟩ := bind_ok_iff.1 steps
      obtain ⟨_, called, ⟨⟩⟩ := bind_ok_iff.1 steps
      have stored := TableM.call_writing_ok (·.putRecord key value) _ called
      refine ⟨given, value, key, rfl, eq_ok_of_mapError validated, eq_ok_of_mapError keyed, ?_⟩
      rw [← kept, (bind_of_ok validated).2]
      refine stored.trans (congrArg (fun now : Session MemoryStore => Except.ok now.store) (Eq.symm ?_))
      refine (bind_of_ok keyed).2.trans ?_
      exact (bind_of_ok rfl).2.trans (bind_of_ok called).2

/-- A read of a record gives what is stored under the key, validated. -/
theorem result_getRecord {keyValue record : Json}
    (checked : (t.checkKey session.store.coercion t.primaryKey keyValue).result = .ok key)
    (stored : session.store.find? key = some record) :
    result (t.getRecord keyValue) session =
      (t.compiled.record.validate session.store.coercion record).result.mapError .validation := by
  have keyed : result (t.recordKey keyValue : TableM MemoryStore _) session = .ok key :=
    TableM.result_checkedKey.trans checked
  have found : result (TableM.call (DocumentStore.getRecord key) : TableM MemoryStore _)
      (after (t.recordKey keyValue : TableM MemoryStore _) session) = .ok (some record) :=
    congrArg (fun v => Except.mapError TableError.store (Except.ok v)) stored
  exact (bind_of_ok keyed).1.trans (bind_of_ok found).1

end Table

end DocSchema
