import DocSchema.Proofs.Table.Accesses

/-!
# What a store gets to see

A request does to a store what one call of it does, and this call names the locations of the request. A journal in
front of a store notes the calls, so the paths that it notes are those of the locations, in their order.
-/

namespace DocSchema

open DocSchema.Action

/-! ## Calls that are noted -/

namespace Journal

variable {σ α : Type}

/-- A call is noted whether it is passed on or not. -/
theorem calls_attempt (call : StoreCall) (action : StoreM σ α) (j : Journal σ) :
    (after (attempt call action) j).calls = j.calls ++ [call] := by
  unfold after attempt
  dsimp only
  split <;> rfl

theorem getFields_cons [DocumentStore σ] (key : RecordKey) (p : Path) (rest : List Path) :
    (DocumentStore.getFields key (p :: rest) : StoreM (Journal σ) _) = (do
      let v ← DocumentStore.getField key p
      let vs ← DocumentStore.getFields key rest
      return v :: vs) :=
  List.mapM_cons

/-- Fields are read one after the other, up to a read that fails. -/
theorem calls_getFields [DocumentStore σ] (key : RecordKey) (paths : List Path) (j : Journal σ) :
    ∃ read, read <+: paths ∧
      (after (DocumentStore.getFields key paths : StoreM (Journal σ) _) j).calls =
        j.calls ++ read.map (StoreCall.getField key) := by
  induction paths generalizing j with
  | nil => exact ⟨[], List.prefix_rfl, (List.append_nil _).symm⟩
  | cons p rest ih =>
    have first := calls_attempt (.getField key p) (DocumentStore.getField key p) j
    rw [getFields_cons]
    cases ended : result (DocumentStore.getField key p : StoreM (Journal σ) _) j with
    | error e =>
      rw [(bind_of_error ended).2]
      exact ⟨[p], List.prefix_append [p] rest, first⟩
    | ok v =>
      rw [(bind_of_ok ended).2]
      obtain ⟨read, before, calls⟩ := ih (after (DocumentStore.getField key p : StoreM (Journal σ) _) j)
      refine ⟨p :: read, List.cons_prefix_cons.2 ⟨rfl, before⟩, ?_⟩
      rw [after_bind_pure, calls]
      change (after (attempt _ _) j).calls ++ _ = _
      rw [first, List.append_assoc]
      rfl

/-- A journal notes a call as it is, and the read of several fields field by field. -/
theorem calls_effect [DocumentStore σ] (access : Access) (j : Journal σ) :
    ∃ calls, (access.effect j).calls = j.calls ++ calls ∧ (calls.flatMap StoreCall.paths).Sublist access.paths := by
  cases access with
  | call c =>
    refine ⟨[c], ?_, ?_⟩
    · cases c <;> exact calls_attempt _ _ _
    · rw [List.flatMap_singleton]
      exact List.Sublist.refl _
  | getFields key paths =>
    obtain ⟨read, part, calls⟩ := calls_getFields key paths j
    refine ⟨read.map (StoreCall.getField key), calls, ?_⟩
    rw [List.flatMap_map]
    change (read.flatMap fun p => [p]).Sublist paths
    rw [List.flatMap_singleton']
    exact part.sublist

end Journal

/-- The calls that the store of a session has received. -/
def Session.calls {σ : Type} (session : Session (Journal σ)) : List StoreCall :=
  session.store.calls

namespace Table

variable {t : Table}

/-- What is asked of a store names paths that it accepts, with literal keys only. -/
theorem Asks.accepted (bounded : t.IsBounded) {coercion : Coercion} {request : TableRequest} {access : Access}
    (asks : t.Asks coercion request access) {p : Path} (named : p ∈ access.paths) :
    p.IsLiteral ∧ 1 ≤ p.depth ∧ p.depth ≤ Path.maxDepth := by
  obtain ⟨paths, located, part, -⟩ := asks.located
  have member : Except.ok p ∈ request.locations.map t.locate := located ▸ List.mem_map_of_mem (part.subset named)
  obtain ⟨l, -, there⟩ := List.mem_map.1 member
  exact locate_ok bounded there

/-- A store gets to see nothing but paths that it accepts, with literal keys only, and all of them at locations that
the request names. A path text and its arguments are resolved to their location, and so is a raw setter with its
continuation; a setter has an update for the path of its location, with what is accepted of a checked value and a raw
value as it is. A request calls the store at most once, and only when all of its locations have been found: the paths
of the call are those of the locations, in order, and a write takes the updates of the setters to their paths. At a
location that is not found a request fails with its error, unless an earlier value has been refused, and does not
call the store. The keys of variables that are not on a registered path have no influence, neither on how a request
ends nor on what happens to the store. So a journal notes paths of the locations, in order, or nothing. -/
theorem store_sees_named_locations (c : Compiler) (name : String) (schema : ObjectSchema) (base : Path) (t : Table)
    (success : (c.compileAt name schema base).result = .ok t.compiled) :
    (∀ path args, (t.resolve path args).map Prod.snd = t.locate ⟨path, [], args⟩) ∧
    (∀ s, t.resolveRaw s = t.locate ⟨s.basePath, s.continuation, s.arguments⟩) ∧
    (∀ coercion s p v, t.update? coercion s = some (p, v) ↔ t.locate s.location = .ok p ∧ t.Makes coercion s v) ∧
    ∀ (σ : Type) [DocumentStore σ] (request : TableRequest),
      (∀ session : Session σ,
        ((after (t.handle request) session).store = session.store ∨
          ∃ access, t.Asks (DocumentStore.coercion session.store) request access ∧
            (∀ p ∈ access.paths, p.IsLiteral ∧ 1 ≤ p.depth ∧ p.depth ≤ Path.maxDepth) ∧
            (after (t.handle request) session).store = access.effect session.store) ∧
        (∀ before l later e, request.locations = before ++ l :: later →
          (∀ k ∈ before, ∃ p, t.locate k = .ok p) → t.locate l = .error e →
            (after (t.handle request) session).store = session.store ∧
              t.EndsLost (DocumentStore.coercion session.store) (request.setters.take before.length) e
                (result (t.handle request) session)) ∧
        ∀ f, t.Respects f → t.handle (request.rebind f) session = t.handle request session) ∧
      ∀ session : Session (Journal σ),
        ∃ calls, (after (t.handle request) session).calls = session.calls ++ calls ∧
          (∀ call ∈ calls, ∀ p ∈ call.paths, p.IsLiteral ∧ 1 ≤ p.depth ∧ p.depth ≤ Path.maxDepth) ∧
          (calls = [] ∨ ∃ paths : List Path, request.locations.map t.locate = paths.map .ok ∧
            (calls.flatMap StoreCall.paths).Sublist paths) := by
  have bounded := isBounded_of_compileAt success
  refine ⟨resolve_locates bounded, resolveRaw_locates bounded, fun _ _ _ _ => update?_eq_some_iff bounded, ?_⟩
  intro σ _ request
  refine ⟨fun session => ⟨?_, ?_, ?_⟩, fun session => ?_⟩
  · rcases handle_reaches bounded request session rfl with stay | ⟨access, asks, reached⟩
    · exact .inl stay
    · exact .inr ⟨access, asks, fun p named => asks.accepted bounded named, reached⟩
  · intro before l later e split found lost
    exact handle_fails bounded split found lost session
  · intro f respects
    exact congrFun (respects.handle_eq request) session
  · rcases handle_reaches bounded request session rfl with stay | ⟨access, asks, reached⟩
    · exact ⟨[], by simp [Session.calls, stay], nofun, .inl rfl⟩
    · obtain ⟨calls, added, part⟩ := Journal.calls_effect access session.store
      refine ⟨calls, (congrArg Journal.calls reached).trans added, fun call made p named => ?_, ?_⟩
      · exact asks.accepted bounded (part.subset (List.mem_flatMap.2 ⟨call, made, named⟩))
      · obtain ⟨paths, located, within, -⟩ := asks.located
        exact .inr ⟨paths, located, part.trans within⟩

/-- A batch that counts a tag, and writes below the children under a key that looks like a variable. -/
def taggingBatch : TableRequest :=
  .setMany (.str "n1") [.checked ⟨"tags.\x7b\x7btagsKey\x7d\x7d", .num (.int 1), .ofList [("tagsKey", "red")]⟩,
    .raw ⟨"children", ["\x7b\x7bchild0\x7d\x7d"], .null, ∅⟩]

/-- The paths of the batch. -/
def taggingPaths : List Path :=
  [⟨[.literal "tags" .map, .literal "red" .int]⟩,
    ⟨[.literal "children" .map, .literal "\x7b\x7bchild0\x7d\x7d" .any]⟩]

def emptyJournal : Session (Journal MemoryStore) :=
  ⟨.ofStore (.empty .passThrough), []⟩

theorem taggingBatch_shows_paths :
    ∃ (t : Table) (access : Access),
      (Compiler.standard.compileAt "nodes" Compiler.treeSchema Path.root).result = .ok t.compiled ∧
      (after (t.handle taggingBatch) emptyJournal).calls.flatMap StoreCall.paths = taggingPaths ∧
      t.Asks .passThrough taggingBatch access ∧
      (∀ p ∈ access.paths, p.IsLiteral ∧ 1 ≤ p.depth ∧ p.depth ≤ Path.maxDepth) ∧
      (after (t.handle taggingBatch) emptyJournal).store = access.effect emptyJournal.store := by
  have run : (Compiler.standard.compileAt "nodes" Compiler.treeSchema Path.root).result.toOption.any (fun compiled =>
      decide ((after (Table.handle ⟨"name", compiled⟩ taggingBatch) emptyJournal).calls.flatMap StoreCall.paths =
        taggingPaths)) = true := by
    decide +kernel
  obtain ⟨compiled, success, shown⟩ := exists_eq_ok_of_any run
  have shown := of_decide_eq_true shown
  obtain ⟨-, -, -, named⟩ := store_sees_named_locations Compiler.standard "nodes" Compiler.treeSchema Path.root
    ⟨"name", compiled⟩ success
  rcases ((named (Journal MemoryStore) taggingBatch).1 emptyJournal).1 with stay | ⟨access, asks, accepted, reached⟩
  · rw [Session.calls, stay] at shown
    cases shown
  · exact ⟨⟨"name", compiled⟩, access, success, shown, asks, accepted, reached⟩

end Table

end DocSchema
