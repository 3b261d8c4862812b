import DocSchema.Proofs.Table.Isolation
import DocSchema.Proofs.Table.Rows
import DocSchema.Proofs.TextOrder

/-!
# Queries

A query shows the records that have its key, in the order of their ids, and a limit cuts off what comes after. What
it shows depends on what is stored, and not on how it came to be stored there.
-/

namespace DocSchema

open DocSchema.Action

/-! ## The records with a key -/

namespace MemoryStore

variable {s : MemoryStore} {key other : RecordKey} {paths : List Path}

/-- The stored records with the key, each under its id. -/
def matching (s : MemoryStore) (key : RecordKey) : Assoc Json :=
  s.records.entries.filter fun e => hasKey key e.2

theorem matching_ascending (s : MemoryStore) (key : RecordKey) :
    (s.matching key).Pairwise fun a b => octets a.1 < octets b.1 :=
  (s.records.sorted.filter _).imp octets_lt_iff.2

theorem mem_matching_iff {id : String} {record : Json} :
    (id, record) ∈ s.matching key ↔
      s.records.get? id = some record ∧ ∃ v, record.member? key.name = some v ∧ key.value.same v = true := by
  rw [matching, List.mem_filter, SortedMap.mem_entries_iff, hasKey, Option.any_eq_true]

/-- A limit selects the first of the records with the key. -/
theorem selected_eq (s : MemoryStore) (key : RecordKey) (limit : Option Nat) :
    s.selected key limit = (limit.elim (s.matching key) fun n => (s.matching key).take n).map Prod.snd := by
  have found : s.records.values.filter (hasKey key) = (s.matching key).map Prod.snd := List.filter_map
  cases limit with
  | none => exact found
  | some n => exact (congrArg (List.take n) found).trans List.map_take.symm

theorem readAll_eq (literal : ∀ p ∈ paths, p.IsLiteral) (record : Json) :
    readAll record paths = .ok (paths.map fun p => record.at? p.keys) := by
  induction paths with
  | nil => rfl
  | cons p rest ih =>
    obtain ⟨first, later⟩ := List.forall_mem_cons.1 literal
    rw [readAll, Json.readSteps_of_literal first, ih later]
    rfl

theorem readRows_eq (literal : ∀ p ∈ paths, p.IsLiteral) (records : List Json) :
    readRows paths records = .ok (records.map fun record => paths.map fun p => record.at? p.keys) := by
  induction records with
  | nil => rfl
  | cons record rest ih =>
    rw [readRows, readAll_eq literal, ih]
    rfl

theorem queryByKey_eq (accepted : ∀ p ∈ paths, p.IsLiteral ∧ p.steps ≠ []) (limit : Option Nat) :
    s.queryByKey key paths limit =
      .ok ((s.selected key limit).map fun record => paths.map fun p => record.at? p.keys) := by
  have entered : paths.any Path.isRoot = false :=
    List.any_eq_false.2 fun p member => by simpa [Path.isRoot] using (accepted p member).2
  rw [queryByKey, entered]
  exact readRows_eq (fun p member => (accepted p member).1) _

/-! ## Insertions in any order -/

theorem put_comm (apart : key.id ≠ other.id) (s : MemoryStore) (before after : Json.Members) :
    (s.put key before).put other after = (s.put other after).put key before := by
  simp only [put, SortedMap.insert, Assoc.insert_comm apart]

/-- Records with different ids can be put in any order. -/
theorem foldl_put_perm {entries others : List (RecordKey × Json.Members)} (same : entries.Perm others)
    (distinct : (entries.map fun e => e.1.id).Nodup) (s : MemoryStore) :
    entries.foldl (fun s e => s.put e.1 e.2) s = others.foldl (fun s e => s.put e.1 e.2) s := by
  refine same.foldl_eq' (fun e first f second s => ?_) s
  by_cases ids : e.1.id = f.1.id
  · rw [List.inj_on_of_nodup_map distinct first second ids]
  · exact put_comm ids s _ _

theorem ext {s s' : MemoryStore} (coercion : s.coercion = s'.coercion)
    (records : ∀ id, s.records.get? id = s'.records.get? id) : s = s' := by
  obtain ⟨⟨entries, sorted⟩, _⟩ := s
  obtain ⟨⟨others, sortedOthers⟩, _⟩ := s'
  cases coercion
  cases sorted.ext sortedOthers records
  rfl

end MemoryStore

namespace TableM

variable {σ α : Type}

theorem dependsOn_ofExcept {ε : Type} (wrap : ε → TableError) (r : Except ε α) :
    DependsOn Session.store (ofExcept wrap r : TableM σ α) :=
  fun _ _ _ => rfl

theorem dependsOn_ofTraced {ε : Type} (wrap : ε → TableError) (y : Traced LogEntry ε α) :
    DependsOn Session.store (ofTraced wrap y : TableM σ α) :=
  fun _ _ _ => rfl

theorem dependsOn_note (entry : LogEntry) : DependsOn Session.store (note entry : TableM σ Unit) :=
  fun _ _ _ => rfl

theorem dependsOn_coercion [DocumentStore σ] : DependsOn Session.store (coercion : TableM σ Coercion) :=
  fun _ _ same => congrArg (fun s => Except.ok (DocumentStore.coercion s)) same

theorem dependsOn_call (action : StoreM σ α) : DependsOn Session.store (call action) :=
  fun _ _ same => congrArg (fun s => (result action s).mapError TableError.store) same

end TableM

namespace Table

open TableM

/-! ## What a query depends on -/

section DependsOn

variable (t : Table)

theorem dependsOn_validate? (d : FieldDescriptor) (v : Option Json) :
    DependsOn Session.store (validate? d v : TableM MemoryStore _) := by
  cases v with
  | none => exact .pure _
  | some v => exact dependsOn_coercion.bind reads_coercion fun _ => dependsOn_ofTraced .validation _

theorem dependsOn_validateRow (getters : List ResolvedGetter) (values : List (Option Json)) :
    DependsOn Session.store (validateRow getters values : TableM MemoryStore _) := by
  induction getters generalizing values with
  | nil => exact .pure _
  | cons g rest ih =>
    cases values with
    | nil => exact .pure _
    | cons v values =>
      exact (dependsOn_validate? _ _).bind (validate?_reads _ _) fun _ =>
        (ih values).bind (validateRow_reads _ _) fun _ => .pure _

theorem dependsOn_validateRows (getters : List ResolvedGetter) (rows : List (List (Option Json))) :
    DependsOn Session.store (validateRows getters rows : TableM MemoryStore _) := by
  induction rows with
  | nil => exact .pure _
  | cons values rest ih =>
    exact (dependsOn_validateRow _ _).bind (validateRow_reads _ _) fun _ =>
      ih.bind (validateRows_reads _ _) fun _ => .pure _

/-- The answer to a query depends on the store alone. -/
theorem dependsOn_query (given : RecordKey) (getters : SortedMap FieldGetter) (limit : Option Nat) :
    DependsOn Session.store (t.query given getters limit : TableM MemoryStore _) :=
  (dependsOn_ofExcept _ _).bind (reads_ofExcept _ _) fun _ =>
    (dependsOn_coercion.bind reads_coercion fun _ => dependsOn_ofTraced id _).bind (t.checkedKey_reads _) fun _ =>
      (dependsOn_note _).bind (reads_note _) fun _ =>
        (dependsOn_call _).bind (reads_call (MemoryStore.reading_reads _)) fun _ => dependsOn_validateRows _ _

end DependsOn

variable {t : Table} {s : MemoryStore}

/-! ## What a query answers -/

theorem yields_validateRows {coercion : Coercion} {getters : List ResolvedGetter} {records : List Json}
    {rows : List (List (Option Json))} (same : s.coercion = coercion)
    (read : (records.map fun record => (getters.map ResolvedGetter.path).map fun p => record.at? p.keys) = rows) :
    Yields Session.store s (validateRows getters rows : TableM MemoryStore _)
      (List.Forall₂ (fun record => List.Forall₂ (ShowsAt coercion (some record)) getters) records) := by
  subst read
  induction records with
  | nil => exact (Yields.pure []).congr fun row => by rw [List.forall₂_nil_left_iff, eq_comm]
  | cons record rest ih =>
    let values := (getters.map ResolvedGetter.path).map fun p => record.at? p.keys
    have first : Yields Session.store s (validateRow getters values : TableM MemoryStore _)
        (List.Forall₂ (ShowsAt coercion (some record)) getters) :=
      yields_validateRow same rfl
    have steps := first.bind (validateRow_reads _ _) fun row _ =>
      ih.bind (validateRows_reads _ _) fun rows _ =>
        (Yields.pure _ : Yields Session.store s (pure (row :: rows)) _)
    refine steps.congr fun rows => ?_
    rw [List.forall₂_cons_left_iff]
    constructor
    · rintro ⟨row, here, later, along, rfl⟩
      exact ⟨row, later, here, along, rfl⟩
    · rintro ⟨row, later, here, along, rfl⟩
      exact ⟨row, here, later, along, rfl⟩

/-- A query is answered with one row for each record that is selected. -/
theorem yields_query (given : RecordKey) (getters : SortedMap FieldGetter) (limit : Option Nat) :
    Yields Session.store s (t.query given getters limit : TableM MemoryStore _) fun rows =>
      ∃ resolved key, t.resolveGetters getters.entries = .ok resolved ∧
        (t.checkKey s.coercion given.name given.value).result = .ok key ∧
        List.Forall₂ (fun record => List.Forall₂ (ShowsAt s.coercion (some record)) resolved)
          (s.selected key limit) rows := by
  have steps : Yields Session.store s (t.query given getters limit : TableM MemoryStore _) _ :=
    (yields_ofExcept TableError.path _).bind (reads_ofExcept _ _) fun resolved success =>
      (yields_checkedKey given).bind (t.checkedKey_reads _) fun key _ =>
        (yields_note _).bind (reads_note _) fun _ _ =>
          (yields_call (yields_reading fun s => s.queryByKey key (resolved.map ResolvedGetter.path) limit)).bind
            (reads_call (MemoryStore.reading_reads _)) fun rows found => yields_validateRows rfl <|
              Except.ok.inj ((MemoryStore.queryByKey_eq (accepted_of_resolveGetters success) limit).symm.trans found)
  refine steps.congr fun rows => ?_
  constructor
  · rintro ⟨resolved, success, key, checked, -, -, values, -, along⟩
    exact ⟨resolved, key, success, checked, along⟩
  · rintro ⟨resolved, key, success, checked, along⟩
    exact ⟨resolved, success, key, checked, (), trivial, _,
      MemoryStore.queryByKey_eq (accepted_of_resolveGetters success) limit, along⟩

/-! ## Records that are put -/

/-- A history of whole records leaves the store with each of them that has a place, put there one after the other. -/
theorem store_serve_puts (t : Table) (records : List Json) (session : Session MemoryStore) :
    (t.serve (records.map .putRecord) session).store =
      (records.filterMap (t.placed? session.store.coercion)).foldl (fun s e => s.put e.1 e.2) session.store := by
  induction records generalizing session with
  | nil => rfl
  | cons record rest ih =>
    have step : after (t.handle (.putRecord record)) session = after (t.putRecord record) session :=
      after_bind_pure _ _ _
    rw [List.map_cons, serve, ih, step]
    cases ended : result (t.putRecord record) session with
    | ok dropped =>
      obtain ⟨key, members, placed, left⟩ := store_putRecord ended
      rw [left, List.filterMap_cons_some placed]
      rfl
    | error e =>
      have nowhere : t.placed? session.store.coercion record = none := by
        cases placed : t.placed? session.store.coercion record with
        | none => rfl
        | some entry =>
          obtain ⟨dropped, success⟩ := putRecord_ok_of_placed placed
          cases success.symm.trans ended
      rw [t.putRecord_atomic record session e ended, List.filterMap_cons_none nowhere]

/-- A query that is answered has a row for each of the first records with its key, as many as its limit allows, in
the order of the bytes of their ids, and the row has what each getter shows of the record. The key is the given one
with its number coerced, if its field accepts that. A limit only cuts off the answer that there is without it. The
answer depends on what is stored, and not on the order in which it was put. -/
theorem query_selects_in_order (t : Table) (session : Session MemoryStore) (given : RecordKey)
    (getters : SortedMap FieldGetter) :
    let coercion := session.store.coercion
    let answer : Option Nat → Session MemoryStore → Except TableError (List (Assoc Validation)) :=
      fun limit => result (t.query given getters limit)
    (∀ limit rows, answer limit session = .ok rows →
      ∃ key found, (t.checkKey coercion given.name given.value).result = .ok key ∧
        key.value = given.value.coerce coercion ∧ found.Pairwise (fun a b => octets a.1 < octets b.1) ∧
        (∀ id record, (id, record) ∈ found ↔ session.store.records.get? id = some record ∧
          ∃ v, record.member? given.name = some v ∧ key.value.same v = true) ∧
        List.Forall₂ (fun e row => Assoc.names row = getters.names ∧
            ∀ name g, getters.get? name = some g →
              ∃ r, Assoc.get? name row = some r ∧ t.Shows coercion (some e.2) g r)
          (limit.elim found fun n => found.take n) rows) ∧
    (∀ rows, answer none session = .ok rows → ∀ n, answer (some n) session = .ok (rows.take n)) ∧
    (∀ limit other, other.store.coercion = coercion →
      (∀ id, other.store.records.get? id = session.store.records.get? id) →
      answer limit other = answer limit session) ∧
    ∀ (limit : Option Nat) (records others : List Json), records.Perm others →
      ((records.filterMap (t.placed? coercion)).map fun e => e.1.id).Nodup →
      answer limit (t.serve (records.map .putRecord) session) =
        answer limit (t.serve (others.map .putRecord) session) := by
  intro coercion answer
  have yields (limit : Option Nat) (rows : List (Assoc Validation)) :=
    yields_query (t := t) given getters limit session rfl rows
  refine ⟨fun limit rows success => ?_, fun rows success n => ?_, fun limit other numbers same => ?_, ?_⟩
  · obtain ⟨resolved, key, resolves, checked, along⟩ := (yields limit rows).1 success
    obtain ⟨named, -⟩ := checkKey_ok checked
    refine ⟨key, session.store.matching key, checked, value_of_checkKey checked,
      MemoryStore.matching_ascending _ key, fun id record => ?_, ?_⟩
    · rw [MemoryStore.mem_matching_iff, named]
    · rw [MemoryStore.selected_eq, List.forall₂_map_left_iff] at along
      refine along.imp fun e row shown => ?_
      have row := row_iff.1 ⟨resolved, resolveGetters_ok_iff.1 resolves, shown⟩
      exact ⟨row.names_eq, fun name g asked => row.get? asked⟩
  · obtain ⟨resolved, key, resolves, checked, along⟩ := (yields none rows).1 success
    exact (yields (some n) (rows.take n)).2 ⟨resolved, key, resolves, checked, List.forall₂_take n along⟩
  · exact t.dependsOn_query given getters limit _ _ (MemoryStore.ext numbers same)
  · intro limit records others same distinct
    refine t.dependsOn_query given getters limit _ _ ?_
    rw [store_serve_puts, store_serve_puts]
    exact MemoryStore.foldl_put_perm (same.filterMap _) distinct session.store

/-- Three clients, two of them with one name. -/
def threeClients : List Json :=
  [.obj [("id", .str "c3"), ("name", .str "Ann")], .obj [("id", .str "c2"), ("name", .str "Bob")],
    .obj [("home", .obj [("city", .str "Rome")]), ("id", .str "c10"), ("name", .str "Ann")]]

/-- The id and the city of a client. -/
def address : SortedMap FieldGetter :=
  .ofList [("id", ⟨"id", ∅⟩), ("city", ⟨"home.city", ∅⟩)]

/-- The addresses of the clients that are called Ann, once the records have been put. -/
def addressesOfAnn (t : Table) (limit : Option Nat) (records : List Json) :
    Except TableError (List (Assoc Validation)) :=
  let filled : Session MemoryStore := t.serve (records.map .putRecord) ⟨.empty .passThrough, []⟩
  result (t.query ⟨"name", .str "Ann"⟩ address limit) filled

/-- Of the two clients that are called Ann, the one with the lesser id comes first and is left if only one may come,
in whatever order the clients were put. -/
theorem threeClients_selected_in_order :
    ∃ t, (Table.ofSchema "clients" "id" clientSchema {}).result = .ok t ∧
      ∃ rows, addressesOfAnn t none threeClients = .ok rows ∧
        rows.map (fun row => (Assoc.get? "id" row).bind Validation.value) = [some (.str "c10"), some (.str "c3")] ∧
        (∃ found : Assoc Json, found.Pairwise (fun a b => octets a.1 < octets b.1) ∧ found.length = rows.length) ∧
        addressesOfAnn t (some 1) threeClients = .ok (rows.take 1) ∧
        addressesOfAnn t none threeClients.reverse = .ok rows := by
  have run : (Table.ofSchema "clients" "id" clientSchema {}).result.toOption.any (fun t =>
      decide (((threeClients.reverse.filterMap (t.placed? .passThrough)).map fun e => e.1.id).Nodup) &&
        (addressesOfAnn t none threeClients).toOption.any fun rows =>
          decide (rows.map (fun row => (Assoc.get? "id" row).bind Validation.value) =
            [some (.str "c10"), some (.str "c3")])) = true := by
    decide
  obtain ⟨t, built, run⟩ := exists_eq_ok_of_any run
  obtain ⟨distinct, run⟩ := (Bool.and_eq_true _ _).mp run
  obtain ⟨rows, success, ids⟩ := exists_eq_ok_of_any run
  let start : Session MemoryStore := ⟨.empty .passThrough, []⟩
  let filled := t.serve (threeClients.map .putRecord) start
  obtain ⟨-, -, -, inOrder⟩ := query_selects_in_order t start ⟨"name", .str "Ann"⟩ address
  obtain ⟨selects, limited, -⟩ := query_selects_in_order t filled ⟨"name", .str "Ann"⟩ address
  obtain ⟨_, found, -, -, ascending, -, shown⟩ := selects none rows success
  refine ⟨t, built, rows, success, of_decide_eq_true ids, ⟨found, ascending, shown.length_eq⟩,
    limited rows success 1, ?_⟩
  exact (inOrder none _ _ threeClients.reverse_perm (of_decide_eq_true distinct)).trans success

end Table

end DocSchema
