import DocSchema.Proofs.Table.Requests

/-!
# Failed requests

A request first resolves, renders and checks, which leaves the store alone, and calls the store once at the
end. A call of the store in memory that fails leaves the store as it was, so a request that fails does.
-/

namespace DocSchema

open DocSchema.Action

namespace TableM

variable {σ α : Type}

theorem reads_ofExcept {ε : Type} (wrap : ε → TableError) (r : Except ε α) :
    Reads Session.store (ofExcept wrap r : TableM σ α) :=
  fun _ => rfl

theorem reads_ofTraced {ε : Type} (wrap : ε → TableError) (y : Traced LogEntry ε α) :
    Reads Session.store (ofTraced wrap y : TableM σ α) :=
  fun _ => rfl

theorem reads_note (entry : LogEntry) : Reads Session.store (note entry : TableM σ Unit) :=
  fun _ => rfl

theorem reads_coercion [DocumentStore σ] : Reads Session.store (coercion : TableM σ Coercion) :=
  fun _ => rfl

theorem reads_call {action : StoreM σ α} (reads : Reads id action) : Reads Session.store (call action) :=
  fun session => reads session.store

theorem atomic_call {action : StoreM σ α} (atomic : Atomic id action) : Atomic Session.store (call action) := by
  intro session e failed
  change (result action session.store).mapError TableError.store = .error e at failed
  cases ended : result action session.store with
  | error e => exact atomic session.store e ended
  | ok a =>
    rw [ended] at failed
    cases failed

end TableM

namespace MemoryStore

theorem reading_reads {α : Type} (f : MemoryStore → Except StoreError α) : Reads id (reading f) :=
  fun _ => rfl

/-- A write that fails keeps the store. -/
theorem writing_atomic (f : MemoryStore → Except StoreError MemoryStore) : Atomic id (writing f) := by
  intro s e failed
  cases ended : f s with
  | error e => simp only [after, writing, ended]
  | ok s' =>
    simp only [result, writing, ended] at failed
    cases failed

/-- The store in memory reads fields one after the other. -/
theorem getFields_cons (key : RecordKey) (p : Path) (rest : List Path) :
    (DocumentStore.getFields key (p :: rest) : StoreM MemoryStore _) = (do
      let v ← DocumentStore.getField key p
      let vs ← DocumentStore.getFields key rest
      return v :: vs) :=
  List.mapM_cons

theorem getFields_reads (key : RecordKey) (paths : List Path) :
    Reads id (DocumentStore.getFields key paths : StoreM MemoryStore _) := by
  induction paths with
  | nil => exact .pure _
  | cons p rest ih =>
    rw [getFields_cons]
    exact (reading_reads _).bind fun _ => ih.bind fun _ => .pure _

end MemoryStore

namespace Table

open TableM

variable (t : Table)

section Checks

variable {σ : Type} [DocumentStore σ]

theorem checkedKey_reads (key : RecordKey) : Reads Session.store (t.checkedKey key : TableM σ _) :=
  reads_coercion.bind fun _ => reads_ofTraced id _

theorem validate_reads (d : FieldDescriptor) (v : Json) :
    Reads Session.store (validate d v : TableM σ _) :=
  reads_coercion.bind fun _ => reads_ofTraced .validation _

theorem validate?_reads (d : FieldDescriptor) (v : Option Json) :
    Reads Session.store (validate? d v : TableM σ _) := by
  cases v with
  | none => exact .pure _
  | some v => exact validate_reads d v

theorem validateRow_reads (getters : List ResolvedGetter) (values : List (Option Json)) :
    Reads Session.store (validateRow getters values : TableM σ _) := by
  induction getters generalizing values with
  | nil => exact .pure _
  | cons g rest ih =>
    cases values with
    | nil => exact .pure _
    | cons v values =>
      exact (validate?_reads g.descriptor v).bind fun _ => (ih values).bind fun _ => .pure _

theorem validateRows_reads (getters : List ResolvedGetter) (rows : List (List (Option Json))) :
    Reads Session.store (validateRows getters rows : TableM σ _) := by
  induction rows with
  | nil => exact .pure _
  | cons values rest ih => exact (validateRow_reads getters values).bind fun _ => ih.bind fun _ => .pure _

end Checks

theorem get_reads (keyValue : Json) (path : String) (arguments : Arguments) :
    Reads Session.store (t.get keyValue path arguments : TableM MemoryStore _) :=
  (reads_ofExcept _ _).bind fun _ => (t.checkedKey_reads _).bind fun _ => (reads_note _).bind fun _ =>
    (reads_call (MemoryStore.reading_reads _)).bind fun _ => validate?_reads _ _

theorem getMany_reads (keyValue : Json) (getters : SortedMap FieldGetter) :
    Reads Session.store (t.getMany keyValue getters : TableM MemoryStore _) :=
  (reads_ofExcept _ _).bind fun _ => (t.checkedKey_reads _).bind fun _ => (reads_note _).bind fun _ =>
    (reads_call (MemoryStore.getFields_reads _ _)).bind fun _ => validateRow_reads _ _

theorem query_reads (key : RecordKey) (getters : SortedMap FieldGetter) (limit : Option Nat) :
    Reads Session.store (t.query key getters limit : TableM MemoryStore _) :=
  (reads_ofExcept _ _).bind fun _ => (t.checkedKey_reads _).bind fun _ => (reads_note _).bind fun _ =>
    (reads_call (MemoryStore.reading_reads _)).bind fun _ => validateRows_reads _ _

theorem getRecord_reads (keyValue : Json) :
    Reads Session.store (t.getRecord keyValue : TableM MemoryStore _) :=
  (t.checkedKey_reads _).bind fun _ => (reads_call (MemoryStore.reading_reads _)).bind fun _ =>
    validate?_reads _ _

theorem setMany_atomic (keyValue : Json) (setters : List Setter) :
    Atomic Session.store (t.setMany keyValue setters : TableM MemoryStore _) := by
  refine .bind reads_coercion fun _ => .bind (reads_ofTraced id _) fun prepared =>
    .bind (t.checkedKey_reads _) fun key => ?_
  split
  · exact (Reads.pure _).atomic
  · exact .bind (reads_note _) fun _ => .bind_pure (atomic_call (MemoryStore.writing_atomic _)) _

theorem removeMany_atomic (keyValue : Json) (removers : List FieldRemover) :
    Atomic Session.store (t.removeMany keyValue removers : TableM MemoryStore _) := by
  unfold removeMany
  split
  · exact (Reads.pure _).atomic
  · exact .bind (reads_ofExcept _ _) fun _ => .bind (t.checkedKey_reads _) fun _ =>
      .bind (reads_note _) fun _ => atomic_call (MemoryStore.writing_atomic _)

theorem putRecord_atomic (record : Json) :
    Atomic Session.store (t.putRecord record : TableM MemoryStore _) := by
  unfold putRecord
  split
  · exact (reads_ofExcept _ _).atomic
  · exact (reads_ofExcept _ _).atomic
  · refine .bind (validate_reads _ _) fun checked => ?_
    split
    · exact (reads_ofExcept _ _).atomic
    · exact .bind (reads_ofExcept _ _) fun _ => .bind (reads_note _) fun _ =>
        .bind_pure (atomic_call (MemoryStore.writing_atomic _)) _

/-- The store call of a deletion never fails. -/
theorem deleteRecord_atomic (key : RecordKey) :
    Atomic Session.store (t.deleteRecord key : TableM MemoryStore _) :=
  .bind (t.checkedKey_reads _) fun _ => .bind (reads_note _) fun _ => atomic_call nofun

theorem handle_atomic (request : TableRequest) :
    Atomic Session.store (t.handle request : TableM MemoryStore _) := by
  cases request with
  | get keyValue path arguments => exact (t.get_reads _ _ _).atomic.bind_pure _
  | getMany keyValue getters => exact (t.getMany_reads _ _).atomic.bind_pure _
  | query key getters limit => exact (t.query_reads _ _ _).atomic.bind_pure _
  | set keyValue path value arguments => exact (t.setMany_atomic _ _).bind_pure _
  | setRaw keyValue setter => exact (t.setMany_atomic _ _).bind_pure _
  | setMany keyValue setters => exact (t.setMany_atomic _ _).bind_pure _
  | remove keyValue path arguments => exact (t.removeMany_atomic _ _).bind_pure _
  | removeMany keyValue removers => exact (t.removeMany_atomic _ _).bind_pure _
  | putRecord record => exact (t.putRecord_atomic _).bind_pure _
  | getRecord keyValue => exact (t.getRecord_reads _).atomic.bind_pure _
  | deleteRecord key => exact (t.deleteRecord_atomic _).bind_pure _

theorem handle_reads {request : TableRequest} (read : request.isRead = true) :
    Reads Session.store (t.handle request : TableM MemoryStore _) := by
  cases request with
  | get keyValue path arguments => exact (t.get_reads _ _ _).bind fun _ => .pure _
  | getMany keyValue getters => exact (t.getMany_reads _ _).bind fun _ => .pure _
  | query key getters limit => exact (t.query_reads _ _ _).bind fun _ => .pure _
  | getRecord keyValue => exact (t.getRecord_reads _).bind fun _ => .pure _
  | _ => cases read

/-- A request that fails leaves the store as it was, at whatever point it fails, and a request that only reads
leaves it as it is in every case. -/
theorem failed_request_keeps_store (t : Table) (request : TableRequest) (session : Session MemoryStore) :
    (∀ e, result (t.handle request) session = .error e →
      (after (t.handle request) session).store = session.store) ∧
    (request.isRead = true → (after (t.handle request) session).store = session.store) :=
  ⟨t.handle_atomic request session, fun read => t.handle_reads read session⟩

/-- A client with a home in a city. -/
def clientSchema : ObjectSchema :=
  ⟨"Client", none, [{ Field.plain "id" .string with required := true }, Field.plain "name" .string,
    Field.plain "home" (.object ⟨"Home", none, [Field.plain "city" .string]⟩)]⟩

/-- A table with one client, who has a name and no home. -/
def clientSession : Session MemoryStore :=
  ⟨(MemoryStore.empty .passThrough).put ⟨"id", .str "c1"⟩ [("id", .str "c1"), ("name", .str "Ann")], []⟩

/-- The second setter runs into the name, when the first one has made the home. -/
def conflictingBatch : TableRequest :=
  .setMany (.str "c1") [.checked ⟨"home.city", .str "Rome", ∅⟩, .raw ⟨"name", ["first"], .str "Ann", ∅⟩]

def isConflict : Except TableError TableReply → Bool
  | .error (.store (.pathConflict _ _)) => true
  | _ => false

theorem conflictingBatch_keeps_store :
    ∃ t, (Table.ofSchema "clients" "id" clientSchema {}).result = .ok t ∧
      ∃ e, result (t.handle conflictingBatch) clientSession = .error e ∧
        (after (t.handle conflictingBatch) clientSession).store = clientSession.store ∧
        TableRequest.isRead (.getRecord (.str "c1")) = true ∧
        (after (t.handle (.getRecord (.str "c1"))) clientSession).store = clientSession.store := by
  have run : (Table.ofSchema "clients" "id" clientSchema {}).result.toOption.any (fun t =>
      isConflict (result (t.handle conflictingBatch) clientSession)) = true := by
    decide
  obtain ⟨t, built, conflict⟩ := exists_eq_ok_of_any run
  refine ⟨t, built, ?_⟩
  cases failed : result (t.handle conflictingBatch) clientSession with
  | ok reply =>
    rw [failed] at conflict
    cases conflict
  | error e =>
    exact ⟨e, rfl, (t.failed_request_keeps_store conflictingBatch clientSession).1 e failed, rfl,
      (t.failed_request_keeps_store (.getRecord (.str "c1")) clientSession).2 rfl⟩

end Table

end DocSchema
