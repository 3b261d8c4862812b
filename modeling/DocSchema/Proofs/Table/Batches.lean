import DocSchema.Proofs.Store.Records
import DocSchema.Proofs.Store.Steps
import DocSchema.Proofs.Table.Outcome
import DocSchema.Proofs.Table.Reports

/-!
# Batches of setters

A batch comes to the same as its parts one after the other: the store takes the same updates in the same order,
and the reports are joined.
-/

namespace DocSchema

open DocSchema.Action

/-! ## Updates in parts -/

namespace MemoryStore

variable {s s' : MemoryStore} {key : RecordKey}

/-- Apply updates to the record of a key. Without updates the store is not called. -/
def update (s : MemoryStore) (key : RecordKey) (updates : List (Path × Json)) : Except StoreError MemoryStore :=
  if updates.isEmpty then .ok s else s.setFields key updates

/-- The second part of the updates finds the record that the first part has left. -/
theorem update_append (s : MemoryStore) (key : RecordKey) (first second : List (Path × Json)) :
    s.update key (first ++ second) = s.update key first >>= fun mid => mid.update key second := by
  cases first with
  | nil => rfl
  | cons u first =>
    cases second with
    | nil =>
      rw [List.append_nil]
      exact (bind_pure _).symm
    | cons v second =>
      -- The record is put twice, and the second time in place of the first.
      change s.setFields key (u :: first ++ v :: second) =
        s.setFields key (u :: first) >>= fun mid => mid.setFields key (v :: second)
      simp only [setFields, writeAll_append, bind_assoc, pure_bind, target_put, put_put]
      rfl

theorem update_coercion {updates : List (Path × Json)} (written : s.update key updates = .ok s') :
    s'.coercion = s.coercion := by
  unfold update at written
  split at written
  · cases written
    rfl
  · obtain ⟨_, _, _, _, rfl⟩ := setFields_ok written
    rfl

end MemoryStore

/-! ## Batches in parts -/

theorem WriteReport.append_assoc (a b c : WriteReport) : (a.append b).append c = a.append (b.append c) := by
  simp only [append, List.append_assoc]

namespace Table

variable {t : Table} {session : Session MemoryStore} {keyValue : Json} {key : RecordKey}
  {prepared : PreparedWrite} {final : MemoryStore}

theorem prepareAll_append (t : Table) (coercion : Coercion) (first second : List Setter) :
    t.prepareAll coercion (first ++ second) = (do
      let earlier ← t.prepareAll coercion first
      let later ← t.prepareAll coercion second
      return ⟨earlier.updates ++ later.updates, earlier.report.append later.report⟩) := by
  induction first with
  | nil => exact (bind_pure _).symm
  | cons s rest ih =>
    rw [List.cons_append, prepareAll, prepareAll, ih]
    simp only [bind_assoc, pure_bind, List.append_assoc, WriteReport.append_assoc]

/-- The end of a batch, when its setters are prepared and its key is checked. -/
def commit (t : Table) (key : RecordKey) (prepared : PreparedWrite) : TableM MemoryStore WriteReport :=
  if prepared.updates.isEmpty then pure prepared.report
  else do
    TableM.note ⟨.storeSet,
      [("count", toString prepared.updates.length), ("key", key.text), ("table", t.name)]⟩
    TableM.call (DocumentStore.setFields key prepared.updates)
    return prepared.report

theorem commit_of_ok (written : session.store.update key prepared.updates = .ok final) :
    result (t.commit key prepared) session = .ok prepared.report ∧
      (after (t.commit key prepared) session).store = final := by
  unfold MemoryStore.update at written
  unfold commit
  by_cases nothing : prepared.updates.isEmpty = true
  · rw [if_pos nothing] at written ⊢
    cases written
    exact ⟨rfl, rfl⟩
  · rw [if_neg nothing] at written ⊢
    have called (log : List LogEntry) :=
      TableM.call_writing_of_ok (·.setFields key prepared.updates) ⟨session.store, log⟩ written
    refine ⟨(bind_of_ok rfl).1.trans ((bind_of_ok (called _).1).1.trans rfl), ?_⟩
    exact (congrArg Session.store ((bind_of_ok rfl).2.trans (bind_of_ok (called _).1).2)).trans (called _).2

theorem commit_of_error {e : StoreError} (failed : session.store.update key prepared.updates = .error e) :
    result (t.commit key prepared) session = .error (.store e) := by
  unfold MemoryStore.update at failed
  unfold commit
  by_cases nothing : prepared.updates.isEmpty = true
  · rw [if_pos nothing] at failed
    cases failed
  · rw [if_neg nothing] at failed ⊢
    have called (log : List LogEntry) :=
      TableM.call_writing_of_error (·.setFields key prepared.updates) ⟨session.store, log⟩ failed
    exact (bind_of_ok rfl).1.trans (bind_of_error (called _)).1

/-- A batch whose setters are prepared and whose key is checked is committed to the store as it is. -/
theorem setMany_run {setters : List Setter}
    (ready : (t.prepareAll session.store.coercion setters).result = .ok prepared)
    (checked : (t.checkKey session.store.coercion t.primaryKey keyValue).result = .ok key) :
    ∃ now : Session MemoryStore, now.store = session.store ∧
      result (t.setMany keyValue setters) session = result (t.commit key prepared) now ∧
      after (t.setMany keyValue setters) session = after (t.commit key prepared) now := by
  let batch : TableM MemoryStore PreparedWrite :=
    TableM.ofTraced id (t.prepareAll session.store.coercion setters)
  have prepares : result batch session = .ok prepared := congrArg (Except.mapError id) ready
  have keyed : result (t.recordKey keyValue : TableM MemoryStore _) (after batch session) = .ok key :=
    TableM.result_checkedKey.trans checked
  have kept := t.checkedKey_reads ⟨t.primaryKey, keyValue⟩ (after batch session)
  refine ⟨_, kept, ?_, ?_⟩
  · exact (bind_of_ok rfl).1.trans ((bind_of_ok prepares).1.trans (bind_of_ok keyed).1)
  · exact (bind_of_ok rfl).2.trans ((bind_of_ok prepares).2.trans (bind_of_ok keyed).2)

/-- A batch ends well if its setters are prepared, its key is checked and the store takes its updates. -/
theorem setMany_ok_iff {setters : List Setter} {report : WriteReport} :
    (result (t.setMany keyValue setters) session = .ok report ∧
        (after (t.setMany keyValue setters) session).store = final) ↔
      ∃ prepared key, (t.prepareAll session.store.coercion setters).result = .ok prepared ∧
        (t.checkKey session.store.coercion t.primaryKey keyValue).result = .ok key ∧
        session.store.update key prepared.updates = .ok final ∧ report = prepared.report := by
  constructor
  · rintro ⟨success, rfl⟩
    have steps := success
    unfold setMany at steps
    obtain ⟨_, ⟨⟩, steps⟩ := bind_ok_iff.1 steps
    obtain ⟨prepared, ready, steps⟩ := bind_ok_iff.1 steps
    obtain ⟨key, checked, -⟩ := bind_ok_iff.1 steps
    have ready := eq_ok_of_mapError ready
    have checked := TableM.result_checkedKey.symm.trans checked
    obtain ⟨now, same, ended, left⟩ := setMany_run ready checked
    refine ⟨prepared, key, ready, checked, ?_⟩
    rw [ended] at success
    rw [left, ← same]
    cases written : now.store.update key prepared.updates with
    | error e => cases success.symm.trans (commit_of_error written)
    | ok final =>
      obtain ⟨reported, stored⟩ := commit_of_ok (t := t) written
      exact ⟨congrArg _ stored.symm, Except.ok.inj (success.symm.trans reported)⟩
  · rintro ⟨prepared, key, ready, checked, written, rfl⟩
    obtain ⟨now, same, ended, left⟩ := setMany_run ready checked
    rw [ended, left]
    exact commit_of_ok (same ▸ written)

/-- A batch comes to the same as its two parts, one after the other. -/
theorem setMany_append {first second : List Setter} {report : WriteReport} :
    (result (t.setMany keyValue (first ++ second)) session = .ok report ∧
        (after (t.setMany keyValue (first ++ second)) session).store = final) ↔
      ∃ earlier later, result (t.setMany keyValue first) session = .ok earlier ∧
        (result (t.setMany keyValue second) (after (t.setMany keyValue first) session) = .ok later ∧
          (after (t.setMany keyValue second) (after (t.setMany keyValue first) session)).store = final) ∧
        report = earlier.append later := by
  constructor
  · intro batch
    obtain ⟨prepared, key, ready, checked, written, rfl⟩ := setMany_ok_iff.1 batch
    rw [prepareAll_append] at ready
    obtain ⟨before, readyFirst, ready⟩ := Traced.bind_ok_iff.1 ready
    obtain ⟨rest, readySecond, ⟨⟩⟩ := Traced.bind_ok_iff.1 ready
    rw [MemoryStore.update_append] at written
    obtain ⟨mid, writtenFirst, writtenSecond⟩ := Traced.except_bind_ok_iff.1 written
    -- The second part is prepared after the first has been written, by the same coercion and under the same key.
    obtain ⟨ended, stored⟩ := setMany_ok_iff.2 ⟨before, key, readyFirst, checked, writtenFirst, rfl⟩
    refine ⟨before.report, rest.report, ended, setMany_ok_iff.2 ⟨rest, key, ?_, ?_, ?_, rfl⟩, rfl⟩
    · rw [stored, MemoryStore.update_coercion writtenFirst]
      exact readySecond
    · rw [stored, MemoryStore.update_coercion writtenFirst]
      exact checked
    · rw [stored]
      exact writtenSecond
  · rintro ⟨earlier, later, ended, parts, rfl⟩
    obtain ⟨before, key, readyFirst, checked, writtenFirst, rfl⟩ := setMany_ok_iff.1 ⟨ended, rfl⟩
    obtain ⟨rest, other, readySecond, checkedAgain, writtenSecond, rfl⟩ := setMany_ok_iff.1 parts
    rw [MemoryStore.update_coercion writtenFirst] at readySecond checkedAgain
    rw [checked] at checkedAgain
    cases checkedAgain
    let both : PreparedWrite := ⟨before.updates ++ rest.updates, before.report.append rest.report⟩
    refine setMany_ok_iff.2 ⟨both, key, ?_, checked, ?_, rfl⟩
    · rw [prepareAll_append]
      exact Traced.bind_ok_iff.2 ⟨before, readyFirst, Traced.bind_ok_iff.2 ⟨rest, readySecond, rfl⟩⟩
    · rw [MemoryStore.update_append]
      exact Traced.except_bind_ok_iff.2 ⟨_, writtenFirst, writtenSecond⟩

/-- A batch ends well, and leads to a store, exactly if its two parts do so one after the other; then its report
joins theirs. The report of any batch lists the paths of the setters with something written and the paths of the
others, both in the order of the batch, and it is complete exactly if each value is written as it was given, up to
its numbers. What is written are the updates of the setters, in their order. -/
theorem setMany_in_parts (t : Table) (session : Session MemoryStore) (keyValue : Json) :
    (∀ first second report final,
      (result (t.setMany keyValue (first ++ second)) session = .ok report ∧
          (after (t.setMany keyValue (first ++ second)) session).store = final) ↔
        ∃ earlier later, result (t.setMany keyValue first) session = .ok earlier ∧
          (result (t.setMany keyValue second) (after (t.setMany keyValue first) session) = .ok later ∧
            (after (t.setMany keyValue second) (after (t.setMany keyValue first) session)).store = final) ∧
          report = ⟨earlier.applied ++ later.applied, earlier.rejected ++ later.rejected,
            earlier.warnings ++ later.warnings⟩) ∧
    ∀ setters report, result (t.setMany keyValue setters) session = .ok report →
      let coercion := session.store.coercion
      report.applied = (setters.filter fun s => (t.update? coercion s).isSome).map Setter.path ∧
      report.rejected = (setters.filter fun s => (t.update? coercion s).isNone).map Setter.path ∧
      (report.isComplete = true ↔ ∀ s ∈ setters, ∃ p, t.location s = .ok p ∧
        t.update? coercion s = some (p, s.value.coerce coercion)) ∧
      ∃ key, (t.checkKey coercion t.primaryKey keyValue).result = .ok key ∧
        session.store.update key (setters.filterMap (t.update? coercion)) =
          .ok (after (t.setMany keyValue setters) session).store := by
  refine ⟨fun first second report final => setMany_append, fun setters report success => ?_⟩
  obtain ⟨prepared, key, ready, checked, written, rfl⟩ := setMany_ok_iff.1 ⟨success, rfl⟩
  have told := reports_of_prepareAll ready
  rw [told.updates] at written
  exact ⟨told.applied, told.rejected, told.complete, key, checked, written⟩

/-- A client moves to Rome, under a name that is no text. -/
def movingBatch : List Setter :=
  [.checked ⟨"home.city", .str "Rome", ∅⟩, .checked ⟨"name", .num (.int 5), ∅⟩]

/-- The name of a client, whatever the schema says. -/
def namingBatch : List Setter :=
  [.raw ⟨"name", [], .str "Anna", ∅⟩]

/-- The client moves and is named, in one batch or in two; the first name is left out. -/
theorem movingBatch_in_parts :
    ∃ t, (Table.ofSchema "clients" "id" clientSchema {}).result = .ok t ∧
      ∃ report, result (t.setMany (.str "c1") (movingBatch ++ namingBatch)) clientSession = .ok report ∧
        report.applied = ["home.city", "name"] ∧
        (∃ earlier later, result (t.setMany (.str "c1") movingBatch) clientSession = .ok earlier ∧
          result (t.setMany (.str "c1") namingBatch) (after (t.setMany (.str "c1") movingBatch) clientSession) =
            .ok later ∧
          report.rejected = earlier.rejected ++ later.rejected) ∧
        report.rejected = ((movingBatch ++ namingBatch).filter fun s =>
          (t.update? .passThrough s).isNone).map Setter.path := by
  have run : (Table.ofSchema "clients" "id" clientSchema {}).result.toOption.any (fun t =>
      (result (t.setMany (.str "c1") (movingBatch ++ namingBatch)) clientSession).toOption.any fun report =>
        decide (report.applied = ["home.city", "name"])) = true := by
    decide
  obtain ⟨t, built, run⟩ := exists_eq_ok_of_any run
  obtain ⟨report, success, applied⟩ := exists_eq_ok_of_any run
  obtain ⟨parts, told⟩ := setMany_in_parts t clientSession (.str "c1")
  obtain ⟨earlier, later, first, ⟨second, -⟩, joined⟩ := (parts _ _ report _).1 ⟨success, rfl⟩
  refine ⟨t, built, report, success, of_decide_eq_true applied, ⟨earlier, later, first, second, ?_⟩, ?_⟩
  · exact congrArg WriteReport.rejected joined
  · exact (told _ report success).2.1

end Table

end DocSchema
