import DocSchema.Proofs.Store.Records
import DocSchema.Proofs.Table.Atomicity

/-!
# Effects of requests

All that a request can do to a store in memory: nothing, or one call of the store with the key, the paths and
the values that the table has checked before.
-/

namespace DocSchema

open DocSchema.Action

/-- Where a write leads: to the store that it makes, or nowhere if it fails. -/
theorem TableM.leads_writing {f : MemoryStore → Except StoreError MemoryStore} {s : MemoryStore}
    {R : MemoryStore → Prop} (stay : R s) (next : ∀ s', f s = .ok s' → R s') :
    Leads Session.store s R (call (MemoryStore.writing f)) := by
  intro session shown
  change R (after (MemoryStore.writing f) session.store)
  rw [shown]
  cases written : f s with
  | error e =>
    simp only [after, MemoryStore.writing, written]
    exact stay
  | ok s' =>
    simp only [after, MemoryStore.writing, written]
    exact next s' written

namespace Table

open TableM

/-- What a request can do to the store `s`. -/
inductive Effect (t : Table) (s : MemoryStore) : TableRequest → MemoryStore → Prop
  | stay (request : TableRequest) : Effect t s request s
  | write {request : TableRequest} {keyValue : Json} {key : RecordKey} {prepared : PreparedWrite}
      {s' : MemoryStore}
      (ready : (t.prepareAll s.coercion request.setters).result = .ok prepared)
      (checked : (t.checkKey s.coercion t.primaryKey keyValue).result = .ok key)
      (written : s.setFields key prepared.updates = .ok s') : Effect t s request s'
  | remove {request : TableRequest} {keyValue : Json} {key : RecordKey} {paths : List Path} {s' : MemoryStore}
      (resolved : t.resolveRemovers request.removers = .ok paths)
      (checked : (t.checkKey s.coercion t.primaryKey keyValue).result = .ok key)
      (removed : s.removeFields key paths = .ok s') : Effect t s request s'
  | put {given record value : Json} {warnings : List Mismatch} {key : RecordKey} {s' : MemoryStore}
      (checked : (t.compiled.record.validate s.coercion record).result = .ok ⟨some value, warnings⟩)
      (keyed : t.keyOfRecord given value = .ok key)
      (stored : s.putRecord key value = .ok s') : Effect t s (.putRecord record) s'
  | delete {given key : RecordKey}
      (checked : (t.checkKey s.coercion given.name given.value).result = .ok key) :
      Effect t s (.deleteRecord given) (s.deleteRecord key).2

variable {t : Table} {s : MemoryStore} {session : Session MemoryStore}

theorem checkKey_of_result {given key : RecordKey} (shown : session.store = s)
    (ended : result (t.checkedKey given : TableM MemoryStore _) session = .ok key) :
    (t.checkKey s.coercion given.name given.value).result = .ok key := by
  subst shown
  exact eq_ok_of_mapError ended

theorem validate_of_result {d : FieldDescriptor} {v : Json} {r : Validation} (shown : session.store = s)
    (ended : result (validate d v : TableM MemoryStore _) session = .ok r) :
    (d.validate s.coercion v).result = .ok r := by
  subst shown
  exact eq_ok_of_mapError ended

theorem setMany_leads (request : TableRequest) (keyValue : Json) :
    Leads Session.store s (Effect t s request) (t.setMany keyValue request.setters) := by
  refine .bind reads_coercion (.stay _) fun coercion before shown ended => ?_
  cases shown
  cases ended
  refine .bind (reads_ofTraced id _) (.stay _) fun prepared _ shown ready => ?_
  refine .bind (t.checkedKey_reads _) (.stay _) fun key _ shown checked => ?_
  split
  · exact (Reads.pure _).leads (.stay _)
  · refine .bind (reads_note _) (.stay _) fun _ _ _ _ => .bind_pure (leads_writing (.stay _) ?_) _
    intro s' written
    exact .write (eq_ok_of_mapError ready) (checkKey_of_result shown checked) written

theorem removeMany_leads (request : TableRequest) (keyValue : Json) :
    Leads Session.store s (Effect t s request) (t.removeMany keyValue request.removers) := by
  unfold removeMany
  split
  · exact (Reads.pure _).leads (.stay _)
  · refine .bind (reads_ofExcept _ _) (.stay _) fun paths _ _ resolved => ?_
    refine .bind (t.checkedKey_reads _) (.stay _) fun key _ shown checked => ?_
    refine .bind (reads_note _) (.stay _) fun _ _ _ _ => leads_writing (.stay _) ?_
    intro s' removed
    exact .remove (eq_ok_of_mapError resolved) (checkKey_of_result shown checked) removed

theorem putRecord_leads (record : Json) :
    Leads Session.store s (Effect t s (.putRecord record)) (t.putRecord record) := by
  unfold putRecord
  split
  · exact (reads_ofExcept _ _).leads (.stay _)
  · exact (reads_ofExcept _ _).leads (.stay _)
  · next given _ _ =>
    refine .bind (validate_reads _ _) (.stay _) fun checked _ shown validated => ?_
    split
    · exact (reads_ofExcept _ _).leads (.stay _)
    · next value accepted =>
      refine .bind (reads_ofExcept _ _) (.stay _) fun key _ _ keyed => ?_
      refine .bind (reads_note _) (.stay _) fun _ _ _ _ => .bind_pure (leads_writing (.stay _) ?_) _
      intro s' stored
      obtain ⟨_, warnings⟩ := checked
      cases accepted
      exact .put (validate_of_result shown validated) (eq_ok_of_mapError keyed) stored

theorem deleteRecord_leads (key : RecordKey) :
    Leads Session.store s (Effect t s (.deleteRecord key)) (t.deleteRecord key) := by
  refine .bind (t.checkedKey_reads _) (.stay _) fun checked _ shown ended => ?_
  refine .bind (reads_note _) (.stay _) fun _ _ _ _ => ?_
  intro session shown'
  cases shown'
  exact .delete (checkKey_of_result shown ended)

theorem handle_leads (request : TableRequest) :
    Leads Session.store s (Effect t s request) (t.handle request) := by
  cases request with
  | get keyValue path arguments => exact (t.handle_reads rfl).leads (.stay _)
  | getMany keyValue getters => exact (t.handle_reads rfl).leads (.stay _)
  | query key getters limit => exact (t.handle_reads rfl).leads (.stay _)
  | getRecord keyValue => exact (t.handle_reads rfl).leads (.stay _)
  | set keyValue path value arguments => exact .bind_pure (setMany_leads (.set ..) keyValue) _
  | setRaw keyValue setter => exact .bind_pure (setMany_leads (.setRaw ..) keyValue) _
  | setMany keyValue setters => exact .bind_pure (setMany_leads (.setMany ..) keyValue) _
  | remove keyValue path arguments => exact .bind_pure (removeMany_leads (.remove ..) keyValue) _
  | removeMany keyValue removers => exact .bind_pure (removeMany_leads (.removeMany ..) keyValue) _
  | putRecord record => exact .bind_pure (putRecord_leads record) _
  | deleteRecord key => exact .bind_pure (deleteRecord_leads key) _

/-- A request has one of the effects that its kind allows. -/
theorem effect_handle (t : Table) (request : TableRequest) (session : Session MemoryStore) :
    Effect t session.store request (after (t.handle request) session).store :=
  handle_leads request session rfl

/-- No request changes what the store makes of numbers. -/
theorem Effect.coercion_eq {request : TableRequest} {s' : MemoryStore} (effect : Effect t s request s') :
    s'.coercion = s.coercion := by
  cases effect with
  | stay => rfl
  | write _ _ written =>
    obtain ⟨_, _, _, _, rfl⟩ := MemoryStore.setFields_ok written
    rfl
  | remove _ _ removed =>
    rcases MemoryStore.removeFields_ok removed with rfl | ⟨_, _, _, _, rfl⟩
    · rfl
    · rfl
  | put _ _ stored =>
    unfold MemoryStore.putRecord at stored
    split at stored
    · cases stored
      rfl
    · cases stored
  | delete => rfl

end Table

end DocSchema
