import DocSchema.Proofs.Table.Atomicity
import DocSchema.Proofs.Table.Locations
import DocSchema.Proofs.Table.Reports
import DocSchema.Store.Journal

/-!
# The one call of a request

A request calls its store at most once, after all of its locations have been found, its values prepared and its key
checked. The call names the paths of the locations in order, and a write gives to each path what the setter there has
for it. A request with a location that is not found fails, and does not call the store.
-/

namespace DocSchema

open DocSchema.Action

/-! ## Loops that stop at an error -/

section Loop

variable {ε α β : Type} {f : α → Except ε β}

theorem map_eq_of_mapM {l : List α} {bs : List β} (success : l.mapM f = .ok bs) : l.map f = bs.map .ok := by
  induction l generalizing bs with
  | nil =>
    cases success
    rfl
  | cons a rest ih =>
    rw [List.mapM_cons] at success
    obtain ⟨b, here, success⟩ := Traced.except_bind_ok_iff.1 success
    obtain ⟨others, later, ⟨⟩⟩ := Traced.except_bind_ok_iff.1 success
    simp [here, ih later]

theorem mapM_append_error {before later : List α} {a : α} {e : ε} (found : ∀ b ∈ before, ∃ c, f b = .ok c)
    (failed : f a = .error e) : (before ++ a :: later).mapM f = .error e := by
  induction before with
  | nil =>
    rw [List.nil_append, List.mapM_cons, failed]
    rfl
  | cons b rest ih =>
    obtain ⟨c, here⟩ := found b List.mem_cons_self
    have onward := ih fun d member => found d (List.mem_cons_of_mem b member)
    rw [List.cons_append, List.mapM_cons, here, onward]
    rfl

end Loop

/-! ## Calls of a store -/

/-- A call of a store: one that a journal notes as it is, or the read of several fields. -/
inductive Access where
  | call (call : StoreCall)
  | getFields (key : RecordKey) (paths : List Path)

theorem TableM.result_ofExcept_of_error {σ ε α : Type} (wrap : ε → TableError) {x : Except ε α} {e : ε}
    (failed : x = .error e) (session : Session σ) : result (ofExcept wrap x) session = .error (wrap e) := by
  cases failed
  rfl

section Effects

variable {σ : Type} [DocumentStore σ]

/-- The store after a call. -/
def StoreCall.effect : StoreCall → σ → σ
  | .getField key path => after (DocumentStore.getField key path)
  | .setFields key updates => after (DocumentStore.setFields key updates)
  | .removeFields key paths => after (DocumentStore.removeFields key paths)
  | .putRecord key record => after (DocumentStore.putRecord key record)
  | .getRecord key => after (DocumentStore.getRecord key)
  | .deleteRecord key => after (DocumentStore.deleteRecord key)
  | .queryByKey key paths limit => after (DocumentStore.queryByKey key paths limit)

namespace Access

def paths : Access → List Path
  | .call c => c.paths
  | .getFields _ paths => paths

def effect : Access → σ → σ
  | .call c => c.effect
  | .getFields key paths => after (DocumentStore.getFields key paths)

end Access

end Effects

namespace Table

variable {t : Table}

/-! ## Locations and what is prepared at them -/

theorem location_eq (bounded : t.IsBounded) (s : Setter) : t.location s = t.locate s.location := by
  cases s with
  | checked s => exact resolve_locates bounded s.path s.arguments
  | raw s => exact resolveRaw_locates bounded s

theorem resolveGetters_paths (bounded : t.IsBounded) (getters : Assoc FieldGetter) :
    (t.resolveGetters getters).map (List.map ResolvedGetter.path) =
      ((getters.map Prod.snd).map FieldGetter.location).mapM t.locate := by
  induction getters with
  | nil => rfl
  | cons e rest ih =>
    obtain ⟨name, g⟩ := e
    have here : t.locate g.location = (t.resolve g.path g.arguments).map Prod.snd :=
      (resolve_locates bounded g.path g.arguments).symm
    rw [List.map_cons, List.map_cons, List.mapM_cons, ← ih, here, resolveGetters]
    cases t.resolve g.path g.arguments with
    | error e => rfl
    | ok dp => cases t.resolveGetters rest <;> rfl

theorem resolveRemovers_eq (bounded : t.IsBounded) (removers : List FieldRemover) :
    t.resolveRemovers removers = (removers.map FieldRemover.location).mapM t.locate := by
  induction removers with
  | nil => rfl
  | cons r rest ih =>
    have here : t.locate r.location = (t.resolve r.path r.arguments).map Prod.snd :=
      (resolve_locates bounded r.path r.arguments).symm
    rw [List.map_cons, List.mapM_cons, ← ih, here, resolveRemovers]
    cases t.resolve r.path r.arguments <;> rfl

theorem locate_of_resolve (bounded : t.IsBounded) {path : String} {args : Arguments} {d : FieldDescriptor}
    {p : Path} (resolved : t.resolve path args = .ok (d, p)) : t.locate ⟨path, [], args⟩ = .ok p := by
  rw [← resolve_locates bounded, resolved]
  rfl

/-- The resolved getters stand for their locations. -/
theorem locate_of_resolveGetters (bounded : t.IsBounded) {getters : SortedMap FieldGetter}
    {resolved : List ResolvedGetter} (success : t.resolveGetters getters.toList = .ok resolved) :
    (getters.values.map FieldGetter.location).map t.locate = (resolved.map ResolvedGetter.path).map .ok := by
  have paths := resolveGetters_paths bounded getters.toList
  rw [success] at paths
  exact map_eq_of_mapM paths.symm

/-- What a setter has for its path: what is accepted of a checked value, and a raw value with its numbers coerced. -/
def Makes (t : Table) (coercion : Coercion) : Setter → Json → Prop
  | .checked s, v => ∃ d ws, t.descriptor? s.path = some d ∧ (d.validate coercion s.value).result = .ok ⟨some v, ws⟩
  | .raw s, v => v = s.value.coerce coercion

/-- An update is what a setter has for the path of its location. -/
theorem update?_eq_some_iff (bounded : t.IsBounded) {coercion : Coercion} {s : Setter} {p : Path} {v : Json} :
    t.update? coercion s = some (p, v) ↔ t.locate s.location = .ok p ∧ t.Makes coercion s v := by
  rw [← location_eq bounded]
  cases s with
  | checked s =>
    constructor
    · intro update
      obtain ⟨d, ws, resolved, validated⟩ := update?_checked_eq_some update
      refine ⟨by simp [location, resolved, Except.map], d, ws, (resolve_ok resolved).1, validated⟩
    · rintro ⟨located, d, ws, registered, validated⟩
      have located : (t.resolve s.path s.arguments).map Prod.snd = .ok p := located
      cases resolved : t.resolve s.path s.arguments with
      | error e =>
        rw [resolved] at located
        cases located
      | ok found =>
        obtain ⟨e, q⟩ := found
        rw [resolved] at located
        cases located
        cases registered.symm.trans (resolve_ok resolved).1
        simp [update?, resolved, validated]
  | raw s =>
    cases resolved : t.resolveRaw s <;> simp [update?, location, Makes, resolved, eq_comm]

/-- A setter is prepared at its location, unless its value is rejected. -/
theorem prepare_located (bounded : t.IsBounded) {coercion : Coercion} {s : Setter} {prepared : PreparedWrite}
    (success : (t.prepare coercion s).result = .ok prepared) :
    ∃ p, t.locate s.location = .ok p ∧ (prepared.updates.map Prod.fst).Sublist [p] := by
  rw [← location_eq bounded]
  cases s with
  | checked s =>
    unfold prepare at success
    obtain ⟨⟨d, p⟩, resolved, success⟩ := Traced.bind_ok_iff.1 success
    obtain ⟨⟨value, ws⟩, -, success⟩ := Traced.bind_ok_iff.1 success
    have resolved := eq_ok_of_mapError resolved
    refine ⟨p, by simp [location, resolved, Except.map], ?_⟩
    cases value <;> cases success <;> simp
  | raw s =>
    unfold prepare at success
    obtain ⟨p, resolved, ⟨⟩⟩ := Traced.bind_ok_iff.1 success
    exact ⟨p, eq_ok_of_mapError resolved, List.Sublist.refl _⟩

theorem prepareAll_located (bounded : t.IsBounded) {coercion : Coercion} {setters : List Setter}
    {prepared : PreparedWrite} (success : (t.prepareAll coercion setters).result = .ok prepared) :
    ∃ paths : List Path, (setters.map Setter.location).map t.locate = paths.map .ok ∧
      (prepared.updates.map Prod.fst).Sublist paths := by
  induction setters generalizing prepared with
  | nil =>
    cases success
    exact ⟨[], rfl, List.nil_sublist _⟩
  | cons s rest ih =>
    unfold prepareAll at success
    obtain ⟨first, ready, success⟩ := Traced.bind_ok_iff.1 success
    obtain ⟨others, onward, ⟨⟩⟩ := Traced.bind_ok_iff.1 success
    obtain ⟨p, located, here⟩ := prepare_located bounded ready
    obtain ⟨paths, rest, later⟩ := ih onward
    refine ⟨p :: paths, ?_, ?_⟩
    · rw [List.map_cons, List.map_cons, List.map_cons, located, rest]
    · rw [List.map_append]
      exact here.append later

/-- A setter fails where its location is not found, and otherwise only if its value is refused. -/
theorem prepare_fails (bounded : t.IsBounded) (coercion : Coercion) (s : Setter) :
    (∀ e, t.locate s.location = .error e → (t.prepare coercion s).result = .error (.path e)) ∧
    ∀ p, t.locate s.location = .ok p →
      (∃ prepared, (t.prepare coercion s).result = .ok prepared) ∨
        ∃ refused, (t.prepare coercion s).result = .error (.validation refused) := by
  rw [← location_eq bounded]
  cases s with
  | checked s =>
    cases resolved : t.resolve s.path s.arguments with
    | error e => simp [location, prepare, resolved, Traced.ofExcept, Except.map, Except.mapError]
    | ok found =>
      obtain ⟨d, p⟩ := found
      refine ⟨by simp [location, resolved, Except.map], fun _ _ => ?_⟩
      cases checked : (d.validate coercion s.value).result with
      | error refused =>
        have failed : ((d.validate coercion s.value).mapError TableError.validation).result =
            .error (.validation refused) := congrArg (Except.mapError _) checked
        exact .inr ⟨refused, Traced.bind_error_iff.2
          (.inr ⟨(d, p), congrArg (Except.mapError _) resolved, Traced.bind_error_iff.2 (.inl failed)⟩)⟩
      | ok r =>
        obtain ⟨value, ws⟩ := r
        have ended : ((d.validate coercion s.value).mapError TableError.validation).result = .ok ⟨value, ws⟩ :=
          congrArg (Except.mapError _) checked
        left
        cases value <;> exact ⟨_, Traced.bind_ok_iff.2
          ⟨(d, p), congrArg (Except.mapError _) resolved, Traced.bind_ok_iff.2 ⟨_, ended, rfl⟩⟩⟩
  | raw s =>
    cases resolved : t.resolveRaw s with
    | error e => simp [location, prepare, resolved, Traced.ofExcept, Except.mapError]
    | ok p => simp [location, prepare, resolved, Traced.ofExcept, Except.mapError]

/-- An end for the reason that a location is not found, or that a value of one of the first setters is refused. -/
def EndsLost {α : Type} (t : Table) (coercion : Coercion) (first : List Setter) (e : PathError)
    (ending : Except TableError α) : Prop :=
  ending = .error (.path e) ∨
    ∃ s ∈ first, ∃ refused, (t.prepare coercion s).result = .error (.validation refused) ∧
      ending = .error (.validation refused)

section Lost

variable {coercion : Coercion} {first : List Setter} {e : PathError} {α β : Type}

/-- What stops one computation stops another that depends on it. -/
theorem EndsLost.of_stops {x : Except TableError α} {y : Except TableError β} (ends : t.EndsLost coercion first e x)
    (stops : ∀ err, x = .error err → y = .error err) : t.EndsLost coercion first e y := by
  rcases ends with failed | ⟨s, inside, refused, own, failed⟩
  · exact .inl (stops _ failed)
  · exact .inr ⟨s, inside, refused, own, stops _ failed⟩

/-- A batch stops at the first location that is not found, unless the value of an earlier setter is refused. -/
theorem prepareAll_fails (bounded : t.IsBounded) (coercion : Coercion) {setters : List Setter}
    {before later : List Location} {l : Location} (split : setters.map Setter.location = before ++ l :: later)
    (found : ∀ k ∈ before, ∃ p, t.locate k = .ok p) (lost : t.locate l = .error e) :
    t.EndsLost coercion (setters.take before.length) e (t.prepareAll coercion setters).result := by
  induction before generalizing setters with
  | nil =>
    obtain ⟨s, rest, rfl, rfl, -⟩ := List.map_eq_cons_iff.1 split
    have failed := (prepare_fails bounded coercion s).1 e lost
    exact .inl (Traced.bind_error_iff.2 (.inl failed))
  | cons k before ih =>
    obtain ⟨s, rest, rfl, rfl, remaining⟩ := List.map_eq_cons_iff.1 split
    obtain ⟨p, here⟩ := found _ List.mem_cons_self
    rcases (prepare_fails bounded coercion s).2 p here with ⟨prepared, ready⟩ | ⟨refused, failed⟩
    · have onward := (ih remaining fun d member => found d (List.mem_cons_of_mem _ member)).of_stops
        (y := (t.prepareAll coercion (s :: rest)).result) fun err failed =>
          Traced.bind_error_iff.2 (.inr ⟨_, ready, Traced.bind_error_iff.2 (.inl failed)⟩)
      rcases onward with failed | ⟨r, inside, refused, own, failed⟩
      · exact .inl failed
      · exact .inr ⟨r, List.mem_cons_of_mem s inside, refused, own, failed⟩
    · exact .inr ⟨s, List.mem_cons_self, refused, failed, Traced.bind_error_iff.2 (.inl failed)⟩

end Lost

/-! ## What a request asks of its store -/

/-- The call that a request makes when all of its locations are found: it names their paths in order, and as a write
it takes to each path what the setter there has for it, leaving out the setters that have nothing. -/
structure Asks (t : Table) (coercion : Coercion) (request : TableRequest) (access : Access) : Prop where
  located : ∃ paths : List Path, request.locations.map t.locate = paths.map .ok ∧ access.paths.Sublist paths ∧
    (request.setters = [] → access.paths = paths)
  updates : request.setters ≠ [] →
    ∃ key, access = .call (.setFields key (request.setters.filterMap (t.update? coercion)))

theorem Asks.of_located {coercion : Coercion} {request : TableRequest} {access : Access}
    (plain : request.setters = []) (located : request.locations.map t.locate = access.paths.map .ok) :
    t.Asks coercion request access :=
  ⟨⟨access.paths, located, List.Sublist.refl _, fun _ => rfl⟩, fun some => absurd plain some⟩

section Calls

open TableM

variable {σ α : Type} [DocumentStore σ]

/-- What a request can do to a store: nothing, or the one call that it asks for. -/
def Reaches (t : Table) (request : TableRequest) (s s' : σ) : Prop :=
  s' = s ∨ ∃ access, t.Asks (DocumentStore.coercion s) request access ∧ s' = access.effect s

variable {request : TableRequest} {s : σ}

theorem leads_access {access : Access} {action : StoreM σ α} (asks : t.Asks (DocumentStore.coercion s) request access)
    (effect : ∀ s : σ, after action s = access.effect s) :
    Leads Session.store s (t.Reaches request s) (TableM.call action) := by
  intro session shown
  cases shown
  exact .inr ⟨access, asks, effect session.store⟩

variable (bounded : t.IsBounded)
include bounded

theorem get_reaches (keyValue : Json) (path : String) (args : Arguments) :
    Leads Session.store s (t.Reaches (.get keyValue path args) s) (t.get keyValue path args) := by
  refine .bind (reads_ofExcept _ _) (.inl rfl) fun (d, p) _ _ resolved => ?_
  refine .bind (t.checkedKey_reads _) (.inl rfl) fun key _ _ _ => ?_
  refine .bind (reads_note _) (.inl rfl) fun _ _ _ _ => ?_
  have located := locate_of_resolve bounded (eq_ok_of_mapError resolved)
  have asks : t.Asks (DocumentStore.coercion s) (.get keyValue path args) (.call (.getField key p)) :=
    .of_located rfl (congrArg (· :: []) located)
  exact .bind_reads (leads_access asks fun _ => rfl) fun _ => validate?_reads _ _

theorem getMany_reaches (keyValue : Json) (getters : SortedMap FieldGetter) :
    Leads Session.store s (t.Reaches (.getMany keyValue getters) s) (t.getMany keyValue getters) := by
  refine .bind (reads_ofExcept _ _) (.inl rfl) fun resolved _ _ success => ?_
  refine .bind (t.checkedKey_reads _) (.inl rfl) fun key _ _ _ => ?_
  refine .bind (reads_note _) (.inl rfl) fun _ _ _ _ => ?_
  have located := locate_of_resolveGetters bounded (eq_ok_of_mapError success)
  rw [← TableRequest.locations_getMany keyValue] at located
  have asks : t.Asks (DocumentStore.coercion s) (.getMany keyValue getters)
      (.getFields key (resolved.map ResolvedGetter.path)) := .of_located rfl located
  exact .bind_reads (leads_access asks fun _ => rfl) fun _ => validateRow_reads _ _

theorem query_reaches (key : RecordKey) (getters : SortedMap FieldGetter) (limit : Option Nat) :
    Leads Session.store s (t.Reaches (.query key getters limit) s) (t.query key getters limit) := by
  refine .bind (reads_ofExcept _ _) (.inl rfl) fun resolved _ _ success => ?_
  refine .bind (t.checkedKey_reads _) (.inl rfl) fun checked _ _ _ => ?_
  refine .bind (reads_note _) (.inl rfl) fun _ _ _ _ => ?_
  have located := locate_of_resolveGetters bounded (eq_ok_of_mapError success)
  rw [← TableRequest.locations_query key getters limit] at located
  have asks : t.Asks (DocumentStore.coercion s) (.query key getters limit)
      (.call (.queryByKey checked (resolved.map ResolvedGetter.path) limit)) := .of_located rfl located
  exact .bind_reads (leads_access asks fun _ => rfl) fun _ => validateRows_reads _ _

theorem setMany_reaches (request : TableRequest) (only : request.locations = request.setters.map Setter.location)
    (keyValue : Json) : Leads Session.store s (t.Reaches request s) (t.setMany keyValue request.setters) := by
  refine .bind reads_coercion (.inl rfl) fun coercion before shown ended => ?_
  cases shown
  cases ended
  refine .bind (reads_ofTraced id _) (.inl rfl) fun prepared _ _ ready => ?_
  have ready := eq_ok_of_mapError ready
  refine .bind (t.checkedKey_reads _) (.inl rfl) fun key _ _ _ => ?_
  split
  · exact (Reads.pure _).leads (.inl rfl)
  · refine .bind (reads_note _) (.inl rfl) fun _ _ _ _ => .bind_pure ?_ _
    have updates := (reports_of_prepareAll ready).updates
    obtain ⟨paths, located, part⟩ := prepareAll_located bounded ready
    have asks : t.Asks (DocumentStore.coercion before.store) request (.call (.setFields key prepared.updates)) := by
      refine ⟨⟨paths, only ▸ located, part, fun none => ?_⟩, fun _ => ⟨key, by rw [updates]⟩⟩
      rw [none] at located updates
      cases List.map_eq_nil_iff.1 located.symm
      simp [Access.paths, StoreCall.paths, updates]
    exact leads_access asks fun _ => rfl

theorem removeMany_reaches (request : TableRequest) (plain : request.setters = [])
    (only : request.locations = request.removers.map FieldRemover.location) (keyValue : Json) :
    Leads Session.store s (t.Reaches request s) (t.removeMany keyValue request.removers) := by
  unfold removeMany
  split
  · exact (Reads.pure _).leads (.inl rfl)
  · refine .bind (reads_ofExcept _ _) (.inl rfl) fun paths _ _ resolved => ?_
    have resolved := eq_ok_of_mapError resolved
    rw [resolveRemovers_eq bounded, ← only] at resolved
    refine .bind (t.checkedKey_reads _) (.inl rfl) fun key _ _ _ => ?_
    refine .bind (reads_note _) (.inl rfl) fun _ _ _ _ => ?_
    have asks : t.Asks (DocumentStore.coercion s) request (.call (.removeFields key paths)) :=
      .of_located plain (map_eq_of_mapM resolved)
    exact leads_access asks fun _ => rfl

omit bounded

theorem putRecord_reaches (record : Json) :
    Leads Session.store s (t.Reaches (.putRecord record) s) (t.putRecord record) := by
  unfold putRecord
  split
  · exact (reads_ofExcept _ _).leads (.inl rfl)
  · exact (reads_ofExcept _ _).leads (.inl rfl)
  · refine .bind (validate_reads _ _) (.inl rfl) fun checked _ _ _ => ?_
    split
    · exact (reads_ofExcept _ _).leads (.inl rfl)
    · next value _ =>
      refine .bind (reads_ofExcept _ _) (.inl rfl) fun key _ _ _ => ?_
      refine .bind (reads_note _) (.inl rfl) fun _ _ _ _ => .bind_pure ?_ _
      have asks : t.Asks (DocumentStore.coercion s) (.putRecord record) (.call (.putRecord key value)) :=
        .of_located rfl rfl
      exact leads_access asks fun _ => rfl

theorem getRecord_reaches (keyValue : Json) :
    Leads Session.store s (t.Reaches (.getRecord keyValue) s) (t.getRecord keyValue) := by
  refine .bind (t.checkedKey_reads _) (.inl rfl) fun key _ _ _ => ?_
  have asks : t.Asks (DocumentStore.coercion s) (.getRecord keyValue) (.call (.getRecord key)) := .of_located rfl rfl
  exact .bind_reads (leads_access asks fun _ => rfl) fun _ => validate?_reads _ _

theorem deleteRecord_reaches (key : RecordKey) :
    Leads Session.store s (t.Reaches (.deleteRecord key) s) (t.deleteRecord key) := by
  refine .bind (t.checkedKey_reads _) (.inl rfl) fun checked _ _ _ => ?_
  refine .bind (reads_note _) (.inl rfl) fun _ _ _ _ => ?_
  have asks : t.Asks (DocumentStore.coercion s) (.deleteRecord key) (.call (.deleteRecord checked)) :=
    .of_located rfl rfl
  exact leads_access asks fun _ => rfl

include bounded

theorem handle_reaches (request : TableRequest) :
    Leads Session.store s (t.Reaches request s) (t.handle request) := by
  cases request with
  | get keyValue path args => exact .bind_pure (get_reaches bounded keyValue path args) _
  | getMany keyValue getters => exact .bind_pure (getMany_reaches bounded keyValue getters) _
  | query key getters limit => exact .bind_pure (query_reaches bounded key getters limit) _
  | set keyValue path value args => exact .bind_pure (setMany_reaches bounded (.set ..) rfl keyValue) _
  | setRaw keyValue setter => exact .bind_pure (setMany_reaches bounded (.setRaw ..) rfl keyValue) _
  | setMany keyValue setters =>
    exact .bind_pure (setMany_reaches bounded _ (TableRequest.locations_setMany keyValue setters) keyValue) _
  | remove keyValue path args => exact .bind_pure (removeMany_reaches bounded (.remove ..) rfl rfl keyValue) _
  | removeMany keyValue removers => exact .bind_pure (removeMany_reaches bounded (.removeMany ..) rfl rfl keyValue) _
  | putRecord record => exact .bind_pure (putRecord_reaches record) _
  | getRecord keyValue => exact .bind_pure (getRecord_reaches keyValue) _
  | deleteRecord key => exact .bind_pure (deleteRecord_reaches key) _

/-! ## Locations that are not found -/

theorem resolve_of_lost {path : String} {args : Arguments} {e : PathError}
    (lost : [Location.mk path [] args].mapM t.locate = .error e) : t.resolve path args = .error e := by
  have located := resolve_locates bounded path args
  cases resolved : t.resolve path args with
  | error e' =>
    rw [List.mapM_cons, ← located, resolved] at lost
    cases lost
    rfl
  | ok found =>
    rw [List.mapM_cons, ← located, resolved] at lost
    cases lost

theorem resolveGetters_of_lost {getters : SortedMap FieldGetter} {e : PathError}
    (lost : (getters.values.map FieldGetter.location).mapM t.locate = .error e) :
    t.resolveGetters getters.toList = .error e := by
  have paths := (resolveGetters_paths bounded getters.toList).trans lost
  cases resolved : t.resolveGetters getters.toList with
  | error e' =>
    rw [resolved] at paths
    cases paths
    rfl
  | ok found =>
    rw [resolved] at paths
    cases paths

theorem setMany_fails {setters : List Setter} {before later : List Location} {l : Location} {e : PathError}
    (split : setters.map Setter.location = before ++ l :: later) (found : ∀ k ∈ before, ∃ p, t.locate k = .ok p)
    (lost : t.locate l = .error e) (keyValue : Json) (session : Session σ) :
    t.EndsLost (DocumentStore.coercion session.store) (setters.take before.length) e
      (result (do return TableReply.report (← t.setMany keyValue setters)) session) := by
  refine (prepareAll_fails bounded _ split found lost).of_stops fun err failed => ?_
  have stopped : result (ofTraced id (t.prepareAll (DocumentStore.coercion session.store) setters)) session =
      .error err := congrArg (Except.mapError id) failed
  exact (bind_of_error ((bind_of_ok rfl).1.trans (bind_of_error stopped).1)).1

theorem removeMany_fails {removers : List FieldRemover} {e : PathError}
    (lost : (removers.map FieldRemover.location).mapM t.locate = .error e) (keyValue : Json) (session : Session σ) :
    result (t.removeMany keyValue removers) session = .error (.path e) := by
  unfold removeMany
  split
  · next none =>
    rw [List.isEmpty_iff.1 none] at lost
    cases lost
  · have failed := (resolveRemovers_eq bounded removers).trans lost
    exact (bind_of_error (result_ofExcept_of_error .path failed session)).1

/-- A request fails at the first of its locations that is not found, or before that at a value of a setter that is
refused. It leaves the store alone. -/
theorem handle_fails {request : TableRequest} {before later : List Location} {l : Location} {e : PathError}
    (split : request.locations = before ++ l :: later) (found : ∀ k ∈ before, ∃ p, t.locate k = .ok p)
    (lost : t.locate l = .error e) (session : Session σ) :
    (after (t.handle request) session).store = session.store ∧
    t.EndsLost (DocumentStore.coercion session.store) (request.setters.take before.length) e
      (result (t.handle request) session) := by
  have stopped : request.locations.mapM t.locate = .error e := split ▸ mapM_append_error found lost
  constructor
  · rcases handle_reaches bounded request session rfl with stay | ⟨access, asks, -⟩
    · exact stay
    · obtain ⟨paths, located, -⟩ := asks.located
      have member : t.locate l ∈ request.locations.map t.locate := List.mem_map_of_mem (by simp [split])
      rw [located, lost] at member
      obtain ⟨_, _, ⟨⟩⟩ := List.mem_map.1 member
  · cases request with
    | get keyValue path args =>
      have first := result_ofExcept_of_error .path (resolve_of_lost bounded stopped) session
      exact .inl (bind_of_error (bind_of_error first).1).1
    | getMany keyValue getters =>
      rw [TableRequest.locations_getMany] at stopped
      have first := result_ofExcept_of_error .path (resolveGetters_of_lost bounded stopped) session
      exact .inl (bind_of_error (bind_of_error first).1).1
    | query key getters limit =>
      rw [TableRequest.locations_query] at stopped
      have first := result_ofExcept_of_error .path (resolveGetters_of_lost bounded stopped) session
      exact .inl (bind_of_error (bind_of_error first).1).1
    | set keyValue path value args =>
      have only : [Setter.checked ⟨path, value, args⟩].map Setter.location = before ++ l :: later := split
      exact setMany_fails bounded only found lost keyValue session
    | setRaw keyValue setter =>
      have only : [Setter.raw setter].map Setter.location = before ++ l :: later := split
      exact setMany_fails bounded only found lost keyValue session
    | setMany keyValue setters =>
      rw [TableRequest.locations_setMany] at split
      exact setMany_fails bounded split found lost keyValue session
    | remove keyValue path args =>
      exact .inl (bind_of_error (removeMany_fails bounded stopped keyValue session)).1
    | removeMany keyValue removers =>
      exact .inl (bind_of_error (removeMany_fails bounded stopped keyValue session)).1
    | putRecord record => cases before <;> cases split
    | getRecord keyValue => cases before <;> cases split
    | deleteRecord key => cases before <;> cases split

end Calls

end Table

end DocSchema
