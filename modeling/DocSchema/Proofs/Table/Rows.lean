import DocSchema.Proofs.Store.FieldWrites
import DocSchema.Proofs.Table.Locations
import DocSchema.Proofs.Table.Outcome
import Mathlib.Data.List.Forall2

/-!
# Rows of fields

Several fields are read as one is. Resolving the getters, reading the values and validating them are three passes
over lists that stay in step, so each name of a row comes with what its own getter shows of the record.
-/

namespace DocSchema

open DocSchema.Action

/-- Two relations along three lists, one after the other. -/
theorem forall₂_comp_iff {α β γ : Type} {R : α → β → Prop} {S : β → γ → Prop} {as : List α} {cs : List γ} :
    (∃ bs, List.Forall₂ R as bs ∧ List.Forall₂ S bs cs) ↔ List.Forall₂ (fun a c => ∃ b, R a b ∧ S b c) as cs := by
  constructor
  · rintro ⟨bs, first, second⟩
    induction first generalizing cs with
    | nil =>
      cases second
      exact .nil
    | cons here _ ih =>
      cases second with
      | cons there later => exact .cons ⟨_, here, there⟩ (ih later)
  · intro both
    induction both with
    | nil => exact ⟨[], .nil, .nil⟩
    | cons here _ ih =>
      obtain ⟨b, first, second⟩ := here
      obtain ⟨bs, firsts, seconds⟩ := ih
      exact ⟨b :: bs, .cons first firsts, .cons second seconds⟩

namespace Assoc

variable {α β : Type} {S : α → β → Prop} {entries : Assoc α} {row : Assoc β}

/-- The entries of two lists have the same names, and their values are related. -/
def Along (S : α → β → Prop) : Assoc α → Assoc β → Prop :=
  List.Forall₂ fun e r => r.1 = e.1 ∧ S e.2 r.2

theorem Along.names_eq (along : Along S entries row) : names row = names entries := by
  induction along with
  | nil => rfl
  | cons here _ ih => simpa [names, here.1] using ih

theorem Along.get? (along : Along S entries row) {name : String} {a : α} (found : get? name entries = some a) :
    ∃ b, Assoc.get? name row = some b ∧ S a b := by
  induction along with
  | nil => cases found
  | @cons e r rest later here _ ih =>
    obtain ⟨same, related⟩ := here
    by_cases first : e.1 = name
    · simp only [Assoc.get?, first, if_true, Option.some.injEq] at found
      subst found
      exact ⟨r.2, by simp [Assoc.get?, same, first], related⟩
    · simp only [Assoc.get?, first, if_false] at found
      obtain ⟨b, there, related⟩ := ih found
      exact ⟨b, by simp [Assoc.get?, same, first, there], related⟩

/-- Where every value has a related one, so has the whole list. -/
theorem exists_along (each : ∀ e ∈ entries, ∃ b, S e.2 b) : ∃ row, Along S entries row := by
  induction entries with
  | nil => exact ⟨[], .nil⟩
  | cons e rest ih =>
    obtain ⟨b, here⟩ := each e List.mem_cons_self
    obtain ⟨row, later⟩ := ih fun r member => each r (List.mem_cons_of_mem e member)
    exact ⟨(e.1, b) :: row, .cons ⟨rfl, here⟩ later⟩

end Assoc

/-- In a sorted map a list of related values exists if every look-up has one. -/
theorem SortedMap.exists_along_iff {α β : Type} {S : α → β → Prop} {m : SortedMap α} :
    (∃ row, Assoc.Along S m.entries row) ↔ ∀ name a, m.get? name = some a → ∃ b, S a b := by
  constructor
  · rintro ⟨row, along⟩ name a found
    obtain ⟨b, -, related⟩ := along.get? found
    exact ⟨b, related⟩
  · intro each
    exact Assoc.exists_along fun e member => each e.1 e.2 (SortedMap.mem_entries_iff.1 member)

/-! ## Reading actions -/

namespace TableM

variable {σ α : Type} {s : σ}

theorem yields_ofExcept {ε : Type} (wrap : ε → TableError) (r : Except ε α) :
    Yields Session.store s (ofExcept wrap r : TableM σ α) (r = .ok ·) := by
  intro session shown a
  refine ⟨eq_ok_of_mapError, fun ended => ?_⟩
  rw [ended]
  rfl

theorem yields_note (entry : LogEntry) : Yields Session.store s (note entry : TableM σ Unit) fun _ => True :=
  fun _ _ _ => iff_of_true rfl trivial

theorem yields_call {action : StoreM σ α} {P : α → Prop} (yields : Yields id s action P) :
    Yields Session.store s (call action) P := by
  intro session shown a
  rw [← yields session.store shown a]
  change (result action session.store).mapError TableError.store = .ok a ↔ _
  refine ⟨eq_ok_of_mapError, fun ended => ?_⟩
  rw [ended]
  rfl

theorem yields_reading {s : MemoryStore} (f : MemoryStore → Except StoreError α) :
    Yields id s (MemoryStore.reading f) (f s = .ok ·) := by
  intro _ shown a
  cases shown
  exact Iff.rfl

end TableM

namespace FieldDescriptor

/-- What is reported of a value that may be absent: its validation, or the empty one. -/
def judge (d : FieldDescriptor) (coercion : Coercion) : Option Json → Except ValidationError Validation
  | some v => (d.validate coercion v).result
  | none => .ok .empty

end FieldDescriptor

/-- Only a path that leads somewhere is rendered. -/
theorem Path.ne_nil_of_render {p q : Path} {args : Arguments} (rendered : p.render args = .ok q) : q.steps ≠ [] := by
  unfold Path.render Path.ofSteps at rendered
  obtain ⟨steps, -, rendered⟩ := Traced.except_bind_ok_iff.1 rendered
  obtain ⟨_, checked, ⟨⟩⟩ := Traced.except_bind_ok_iff.1 rendered
  rintro rfl
  cases checked

namespace Table

open TableM

variable {t : Table} {s : MemoryStore}

theorem yields_checkedKey (given : RecordKey) :
    Yields Session.store s (t.checkedKey given : TableM MemoryStore _)
      ((t.checkKey s.coercion given.name given.value).result = .ok ·) := by
  intro session shown key
  rw [result_checkedKey, shown]

theorem yields_validate? (d : FieldDescriptor) (v : Option Json) :
    Yields Session.store s (validate? d v : TableM MemoryStore _) (d.judge s.coercion v = .ok ·) := by
  cases v with
  | none => exact (Yields.pure Validation.empty).congr fun r => Except.ok.injEq _ r ▸ Iff.rfl
  | some v =>
    intro session shown r
    cases shown
    refine ⟨eq_ok_of_mapError, fun ended => ?_⟩
    change (d.validate session.store.coercion v).result = .ok r at ended
    change (d.validate session.store.coercion v).result.mapError TableError.validation = .ok r
    rw [ended]
    rfl

/-! ## Rows -/

/-- The getter is resolved as it was asked for. -/
def Resolves (t : Table) (e : String × FieldGetter) (g : ResolvedGetter) : Prop :=
  g.name = e.1 ∧ t.resolve e.2.path e.2.arguments = .ok (g.descriptor, g.path)

theorem resolveGetters_ok_iff {entries : Assoc FieldGetter} {resolved : List ResolvedGetter} :
    t.resolveGetters entries = .ok resolved ↔ List.Forall₂ t.Resolves entries resolved := by
  induction entries generalizing resolved with
  | nil =>
    rw [resolveGetters, Except.ok.injEq, List.forall₂_nil_left_iff, eq_comm]
  | cons e rest ih =>
    obtain ⟨name, g⟩ := e
    rw [resolveGetters, List.forall₂_cons_left_iff]
    constructor
    · intro success
      obtain ⟨⟨d, p⟩, here, success⟩ := Traced.except_bind_ok_iff.1 success
      obtain ⟨others, later, ⟨⟩⟩ := Traced.except_bind_ok_iff.1 success
      exact ⟨_, others, ⟨rfl, here⟩, ih.1 later, rfl⟩
    · rintro ⟨⟨_, d, p⟩, others, ⟨⟨⟩, here⟩, later, rfl⟩
      exact Traced.except_bind_ok_iff.2 ⟨_, here, Traced.except_bind_ok_iff.2 ⟨_, ih.2 later, rfl⟩⟩

/-- A rendered path has literal keys, and at least one. -/
theorem accepted_of_resolve {path : String} {args : Arguments} {d : FieldDescriptor} {p : Path}
    (resolved : t.resolve path args = .ok (d, p)) : p.IsLiteral ∧ p.steps ≠ [] := by
  unfold resolve at resolved
  obtain ⟨_, -, resolved⟩ := Traced.except_bind_ok_iff.1 resolved
  obtain ⟨_, rendered, ⟨⟩⟩ := Traced.except_bind_ok_iff.1 resolved
  refine ⟨Path.render_ok rendered ▸ Path.isLiteral_under _ args, ?_⟩
  exact Path.ne_nil_of_render rendered

theorem accepted_of_resolveGetters {entries : Assoc FieldGetter} {resolved : List ResolvedGetter}
    (success : t.resolveGetters entries = .ok resolved) :
    ∀ p ∈ resolved.map ResolvedGetter.path, p.IsLiteral ∧ p.steps ≠ [] := by
  have along := resolveGetters_ok_iff.1 success
  clear success
  induction along with
  | nil => exact nofun
  | cons here _ ih => exact List.forall_mem_cons.2 ⟨accepted_of_resolve here.2, ih⟩

/-- What a getter shows of a record, or of no record: the value at its rendered path as its descriptor judges it. -/
def Shows (t : Table) (coercion : Coercion) (record : Option Json) (g : FieldGetter) (r : Validation) : Prop :=
  ∃ d p, t.resolve g.path g.arguments = .ok (d, p) ∧
    d.judge coercion (record.bind fun record => record.at? p.keys) = .ok r

/-- The same of a getter that is resolved. -/
def ShowsAt (coercion : Coercion) (record : Option Json) (g : ResolvedGetter) (r : String × Validation) : Prop :=
  r.1 = g.name ∧ g.descriptor.judge coercion (record.bind fun record => record.at? g.path.keys) = .ok r.2

theorem exists_showsAt_iff {coercion : Coercion} {record : Option Json} {e : String × FieldGetter}
    {r : String × Validation} :
    (∃ g, t.Resolves e g ∧ ShowsAt coercion record g r) ↔ r.1 = e.1 ∧ t.Shows coercion record e.2 r.2 := by
  constructor
  · rintro ⟨g, ⟨name, resolved⟩, same, judged⟩
    exact ⟨same.trans name, g.descriptor, g.path, resolved, judged⟩
  · rintro ⟨same, d, p, resolved, judged⟩
    exact ⟨⟨e.1, d, p⟩, ⟨rfl, resolved⟩, same, judged⟩

/-- Along the getters of a row, each shows what it shows alone. -/
theorem row_iff {coercion : Coercion} {record : Option Json} {entries : Assoc FieldGetter}
    {row : Assoc Validation} :
    (∃ resolved, List.Forall₂ t.Resolves entries resolved ∧
        List.Forall₂ (ShowsAt coercion record) resolved row) ↔
      Assoc.Along (t.Shows coercion record) entries row := by
  rw [forall₂_comp_iff, Assoc.Along]
  simp only [exists_showsAt_iff]

theorem yields_validateRow {coercion : Coercion} {record : Option Json} {getters : List ResolvedGetter}
    {values : List (Option Json)} (same : s.coercion = coercion)
    (read : (getters.map ResolvedGetter.path).map (fun p => record.bind fun record => record.at? p.keys) = values) :
    Yields Session.store s (validateRow getters values : TableM MemoryStore _)
      (List.Forall₂ (ShowsAt coercion record) getters) := by
  subst same read
  induction getters with
  | nil => exact (Yields.pure []).congr fun row => by rw [List.forall₂_nil_left_iff, eq_comm]
  | cons g rest ih =>
    have steps := (yields_validate? g.descriptor (record.bind fun record => record.at? g.path.keys)).bind
      (validate?_reads _ _) fun r _ => ih.bind (validateRow_reads _ _) fun row _ =>
        (Yields.pure _ : Yields Session.store s (pure ((g.name, r) :: row)) _)
    refine steps.congr fun row => ?_
    rw [List.forall₂_cons_left_iff]
    constructor
    · rintro ⟨r, judged, later, along, rfl⟩
      exact ⟨_, _, ⟨rfl, judged⟩, along, rfl⟩
    · rintro ⟨⟨_, r⟩, later, ⟨⟨⟩, judged⟩, along, rfl⟩
      exact ⟨r, judged, later, along, rfl⟩

/-! ## One record -/

theorem yields_getFields {key : RecordKey} {paths : List Path}
    (accepted : ∀ p ∈ paths, p.IsLiteral ∧ p.steps ≠ []) :
    Yields id s (DocumentStore.getFields key paths : StoreM MemoryStore _)
      (paths.map (fun p => (s.find? key).bind fun record => record.at? p.keys) = ·) := by
  induction paths with
  | nil => exact Yields.pure []
  | cons p rest ih =>
    obtain ⟨⟨literal, start⟩, later⟩ := List.forall_mem_cons.1 accepted
    have steps := (yields_reading fun s => s.getField key p).bind (MemoryStore.reading_reads _) fun v _ =>
      (ih later).bind (MemoryStore.getFields_reads key rest) fun vs _ =>
        (Yields.pure _ : Yields id s (pure (v :: vs)) _)
    rw [MemoryStore.getFields_cons]
    refine steps.congr fun values => ?_
    rw [MemoryStore.getField_eq literal start]
    simp

/-- A read of one field shows what the getter shows of the record under the key. -/
theorem yields_get (keyValue : Json) (g : FieldGetter) :
    Yields Session.store s (t.get keyValue g.path g.arguments : TableM MemoryStore _) fun r =>
      ∃ key, (t.checkKey s.coercion t.primaryKey keyValue).result = .ok key ∧
        t.Shows s.coercion (s.find? key) g r := by
  have steps : Yields Session.store s (t.get keyValue g.path g.arguments : TableM MemoryStore _) _ :=
    (yields_ofExcept TableError.path _).bind (reads_ofExcept _ _) fun dp _ =>
      (yields_checkedKey ⟨t.primaryKey, keyValue⟩).bind (t.checkedKey_reads _) fun key _ =>
        (yields_note _).bind (reads_note _) fun _ _ =>
          (yields_call (yields_reading fun s => s.getField key dp.2)).bind
            (reads_call (MemoryStore.reading_reads _)) fun v _ => yields_validate? dp.1 v
  refine steps.congr fun r => ?_
  constructor
  · rintro ⟨⟨d, p⟩, resolved, key, checked, -, -, v, found, judged⟩
    obtain ⟨literal, start⟩ := accepted_of_resolve resolved
    rw [MemoryStore.getField_eq literal start] at found
    cases found
    exact ⟨key, checked, d, p, resolved, judged⟩
  · rintro ⟨key, checked, d, p, resolved, judged⟩
    obtain ⟨literal, start⟩ := accepted_of_resolve resolved
    exact ⟨(d, p), resolved, key, checked, (), trivial, _, MemoryStore.getField_eq literal start, judged⟩

/-- A row of one record shows what each of its getters shows of the record. -/
theorem yields_getMany (keyValue : Json) (getters : SortedMap FieldGetter) :
    Yields Session.store s (t.getMany keyValue getters : TableM MemoryStore _) fun row =>
      ∃ key, (t.checkKey s.coercion t.primaryKey keyValue).result = .ok key ∧
        Assoc.Along (t.Shows s.coercion (s.find? key)) getters.entries row := by
  have steps : Yields Session.store s (t.getMany keyValue getters : TableM MemoryStore _) _ :=
    (yields_ofExcept TableError.path _).bind (reads_ofExcept _ _) fun resolved success =>
      (yields_checkedKey ⟨t.primaryKey, keyValue⟩).bind (t.checkedKey_reads _) fun key _ =>
        (yields_note _).bind (reads_note _) fun _ _ =>
          (yields_call (yields_getFields (accepted_of_resolveGetters success))).bind
            (reads_call (MemoryStore.getFields_reads _ _)) fun values found =>
              yields_validateRow rfl found
  refine steps.congr fun row => ?_
  constructor
  · rintro ⟨resolved, success, key, checked, -, -, values, -, along⟩
    exact ⟨key, checked, row_iff.1 ⟨resolved, resolveGetters_ok_iff.1 success, along⟩⟩
  · rintro ⟨key, checked, along⟩
    obtain ⟨resolved, success, along⟩ := row_iff.2 along
    exact ⟨resolved, resolveGetters_ok_iff.2 success, key, checked, (), trivial, _, rfl, along⟩

/-- A row is read exactly if its key is a key of the table and each of its getters can be read alone. It has the
names that were asked for, and under each name what its getter reads alone, whatever the record holds. -/
theorem getMany_pointwise (t : Table) (session : Session MemoryStore) (keyValue : Json)
    (getters : SortedMap FieldGetter) :
    let alone : FieldGetter → Except TableError Validation :=
      fun g => result (t.get keyValue g.path g.arguments) session
    ((∃ row, result (t.getMany keyValue getters) session = .ok row) ↔
      (∃ key, (t.checkKey session.store.coercion t.primaryKey keyValue).result = .ok key) ∧
        ∀ name g, getters.get? name = some g → ∃ r, alone g = .ok r) ∧
    ∀ row, result (t.getMany keyValue getters) session = .ok row →
      Assoc.names row = getters.names ∧
      ∀ name g, getters.get? name = some g → ∃ r, Assoc.get? name row = some r ∧ alone g = .ok r := by
  intro alone
  have single (g : FieldGetter) := yields_get (t := t) keyValue g session rfl
  have whole := yields_getMany (t := t) keyValue getters session rfl
  refine ⟨⟨?_, ?_⟩, ?_⟩
  · rintro ⟨row, success⟩
    obtain ⟨key, checked, along⟩ := (whole row).1 success
    refine ⟨⟨key, checked⟩, fun name g asked => ?_⟩
    obtain ⟨r, -, shown⟩ := along.get? asked
    exact ⟨r, (single g r).2 ⟨key, checked, shown⟩⟩
  · rintro ⟨⟨key, checked⟩, each⟩
    obtain ⟨row, along⟩ := SortedMap.exists_along_iff.2 fun name g asked => by
      obtain ⟨r, read⟩ := each name g asked
      obtain ⟨same, again, shown⟩ := (single g r).1 read
      cases checked.symm.trans again
      exact ⟨r, shown⟩
    exact ⟨row, (whole row).2 ⟨key, checked, along⟩⟩
  · intro row success
    obtain ⟨key, checked, along⟩ := (whole row).1 success
    refine ⟨along.names_eq, fun name g asked => ?_⟩
    obtain ⟨r, held, shown⟩ := along.get? asked
    exact ⟨r, held, (single g r).2 ⟨key, checked, shown⟩⟩

/-- Twice the name of a client, and the city, which is not known. -/
def portrait : SortedMap FieldGetter :=
  .ofList [("name", ⟨"name", ∅⟩), ("called", ⟨"name", ∅⟩), ("city", ⟨"home.city", ∅⟩)]

/-- The name is read under both of its names, and the city is left empty. -/
theorem portrait_pointwise :
    ∃ t, (Table.ofSchema "clients" "id" clientSchema {}).result = .ok t ∧
      ∃ row, result (t.getMany (.str "c1") portrait) clientSession = .ok row ∧
        Assoc.names row = ["called", "city", "name"] ∧
        Assoc.get? "city" row = some .empty ∧
        (∃ r, Assoc.get? "called" row = some r ∧
          result (t.get (.str "c1") "name" ∅) clientSession = .ok r) ∧
        ∃ r, Assoc.get? "name" row = some r ∧ result (t.get (.str "c1") "name" ∅) clientSession = .ok r := by
  have run : (Table.ofSchema "clients" "id" clientSchema {}).result.toOption.any (fun t =>
      (result (t.getMany (.str "c1") portrait) clientSession).toOption.any fun row =>
        decide (Assoc.get? "city" row = some .empty)) = true := by
    decide
  obtain ⟨t, built, run⟩ := exists_eq_ok_of_any run
  obtain ⟨row, success, absent⟩ := exists_eq_ok_of_any run
  obtain ⟨names, each⟩ := (getMany_pointwise t clientSession (.str "c1") portrait).2 row success
  exact ⟨t, built, row, success, names, of_decide_eq_true absent, each "called" _ rfl, each "name" _ rfl⟩

end Table

end DocSchema
