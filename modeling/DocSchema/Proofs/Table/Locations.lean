import DocSchema.Proofs.Assoc
import DocSchema.Proofs.Table.Requests
import DocSchema.Proofs.Table.Resolution

/-!
# Locations

A request names locations in the records of a table: each by the text of a registered path, by literal keys that
lead on from there, and by the keys of the variables on the way. Where a location is does not depend on how the
request reaches it, and of the keys of variables only those count whose variable is on the registered path.
-/

namespace DocSchema

structure Location where
  path : String
  continuation : List String
  arguments : Arguments

namespace FieldGetter

def location (g : FieldGetter) : Location :=
  ⟨g.path, [], g.arguments⟩

end FieldGetter

namespace FieldRemover

def location (r : FieldRemover) : Location :=
  ⟨r.path, [], r.arguments⟩

end FieldRemover

namespace Setter

/-- Only a raw setter leads on from a registered path. -/
def location : Setter → Location
  | .checked s => ⟨s.path, [], s.arguments⟩
  | .raw s => ⟨s.basePath, s.continuation, s.arguments⟩

end Setter

namespace TableRequest

/-- The getters of the request, those of a row in the order of their names. -/
def getters : TableRequest → List FieldGetter
  | .get _ path arguments => [⟨path, arguments⟩]
  | .getMany _ getters => getters.values
  | .query _ getters _ => getters.values
  | _ => []

/-- All that the request reads, writes or removes of a record. -/
def locations (request : TableRequest) : List Location :=
  request.getters.map FieldGetter.location ++ request.setters.map Setter.location ++
    request.removers.map FieldRemover.location

theorem locations_getMany (keyValue : Json) (getters : SortedMap FieldGetter) :
    locations (.getMany keyValue getters) = getters.values.map FieldGetter.location := by
  simp [locations, TableRequest.getters, setters, removers]

theorem locations_query (key : RecordKey) (getters : SortedMap FieldGetter) (limit : Option Nat) :
    locations (.query key getters limit) = getters.values.map FieldGetter.location := by
  simp [locations, TableRequest.getters, setters, removers]

theorem locations_setMany (keyValue : Json) (setters : List Setter) :
    locations (.setMany keyValue setters) = setters.map Setter.location := by
  simp [locations, getters, TableRequest.setters, removers]

end TableRequest

namespace Table

/-- Where a location is: at the registered path, its variables replaced by their keys, and from there on along the
literal keys. The depth counts before the variables do. -/
def locate (t : Table) (l : Location) : Except PathError Path :=
  match t.descriptor? l.path with
  | none => .error (.unknownPath l.path)
  | some d =>
    if Path.maxDepth < d.path.depth + l.continuation.length then
      .error (.tooDeep (d.path.depth + l.continuation.length))
    else
      match d.path.unbound? l.arguments with
      | some name => .error (.missingArgument name)
      | none => .ok ((d.path.under l.arguments).extend (continuationSteps l.continuation))

/-- What is registered are paths that a store accepts. -/
def IsBounded (t : Table) : Prop :=
  ∀ path d, t.descriptor? path = some d → d.path.steps ≠ [] ∧ d.path.depth ≤ Path.maxDepth

variable {t : Table}

theorem isBounded_of_compileAt {c : Compiler} {name : String} {schema : ObjectSchema} {base : Path}
    (success : (c.compileAt name schema base).result = .ok t.compiled) : t.IsBounded := by
  intro path d registered
  obtain ⟨place, -, room⟩ := (Compiler.get?_registry_iff_isPlace rfl success path d).1 registered
  exact ⟨place.steps_ne_nil, room⟩

/-! ## Continuations -/

theorem length_continuationSteps (keys : List String) : (continuationSteps keys).length = keys.length := by
  fun_induction continuationSteps keys with
  | case1 => rfl
  | case2 last => rfl
  | case3 key rest _ ih => rw [List.length_cons, List.length_cons, ih]

/-- The keys of a continuation are literal, whatever they look like. -/
theorem literal_continuationSteps (keys : List String) :
    ∀ s ∈ continuationSteps keys, s.isPlaceholder = false := by
  fun_induction continuationSteps keys with
  | case1 => exact nofun
  | case2 last => exact List.forall_mem_singleton.2 rfl
  | case3 key rest _ ih => exact List.forall_mem_cons.2 ⟨rfl, ih⟩

end Table

theorem PathStep.under_of_literal {s : PathStep} (literal : s.isPlaceholder = false) (args : Arguments) :
    s.under args = s := by
  obtain ⟨key, type, custom⟩ := s
  cases key with
  | literal name => rfl
  | placeholder name => cases literal

namespace Path

variable {p : Path} {args : Arguments} {steps : List PathStep}

/-- What follows a path in literal steps is not rendered, and binds no variables. -/
theorem under_extend (literal : ∀ s ∈ steps, s.isPlaceholder = false) (p : Path) (args : Arguments) :
    (p.extend steps).under args = (p.under args).extend steps := by
  have same : steps.map (PathStep.under args) = steps.map id :=
    List.map_congr_left fun s member => PathStep.under_of_literal (literal s member) args
  rw [under, extend, List.map_append, same, List.map_id]
  rfl

theorem variableNames_extend (literal : ∀ s ∈ steps, s.isPlaceholder = false) (p : Path) :
    (p.extend steps).variableNames = p.variableNames := by
  have none : steps.filter PathStep.isPlaceholder = [] :=
    List.filter_eq_nil_iff.2 fun s member => by simp [literal s member]
  rw [variableNames, extend, List.filter_append, none, List.append_nil]
  rfl

theorem unbound?_extend (literal : ∀ s ∈ steps, s.isPlaceholder = false) (p : Path) (args : Arguments) :
    (p.extend steps).unbound? args = p.unbound? args := by
  rw [unbound?, variableNames_extend literal, unbound?]

theorem isLiteral_under (p : Path) (args : Arguments) : (p.under args).IsLiteral := by
  intro s member
  obtain ⟨r, -, rfl⟩ := List.mem_map.1 member
  rfl

@[simp] theorem depth_under (p : Path) (args : Arguments) : (p.under args).depth = p.depth := by
  simp [under, depth]

end Path

namespace Table

variable {t : Table}

/-! ## How a table resolves locations -/

theorem lookup_of_registered {path : String} {d : FieldDescriptor} (registered : t.descriptor? path = some d) :
    t.compiled.resolve path = .ok d := by
  unfold CompiledSchema.resolve
  rw [show t.compiled.registry.get? path = some d from registered]

theorem lookup_of_unknown {path : String} (unknown : t.descriptor? path = none) :
    t.compiled.resolve path = .error (.unknownPath path) := by
  unfold CompiledSchema.resolve
  rw [show t.compiled.registry.get? path = none from unknown]

theorem resolve_eq (bounded : t.IsBounded) (path : String) (args : Arguments) :
    t.resolve path args = match t.descriptor? path with
      | none => .error (.unknownPath path)
      | some d => match d.path.unbound? args with
        | some name => .error (.missingArgument name)
        | none => .ok (d, d.path.under args) := by
  unfold resolve
  cases registered : t.descriptor? path with
  | none =>
    rw [lookup_of_unknown registered]
    rfl
  | some d =>
    obtain ⟨start, room⟩ := bounded path d registered
    rw [lookup_of_registered registered]
    change (d.path.render args >>= fun p => pure (d, p)) = _
    rw [Path.render_eq start room]
    cases found : d.path.unbound? args <;> simp only [found] <;> rfl

/-- A registered path is resolved to its location; it is never too deep. -/
theorem resolve_locates (bounded : t.IsBounded) (path : String) (args : Arguments) :
    (t.resolve path args).map Prod.snd = t.locate ⟨path, [], args⟩ := by
  rw [resolve_eq bounded]
  unfold locate
  cases registered : t.descriptor? path with
  | none => rfl
  | some d =>
    have room : ¬ Path.maxDepth < d.path.depth := Nat.not_lt.2 (bounded path d registered).2
    simp only [List.length_nil, Nat.add_zero, if_neg room]
    cases d.path.unbound? args with
    | some name => rfl
    | none => exact congrArg (fun steps => Except.ok (Path.mk steps)) (List.append_nil _).symm

/-- A raw setter is resolved to its location. -/
theorem resolveRaw_locates (bounded : t.IsBounded) (s : RawSetter) :
    t.resolveRaw s = t.locate ⟨s.basePath, s.continuation, s.arguments⟩ := by
  unfold resolveRaw locate
  cases registered : t.descriptor? s.basePath with
  | none =>
    rw [lookup_of_unknown registered]
    rfl
  | some d =>
    have start : (d.path.extend (continuationSteps s.continuation)).steps ≠ [] :=
      List.append_ne_nil_of_left_ne_nil (bounded _ d registered).1 _
    have depth : (d.path.extend (continuationSteps s.continuation)).depth =
        d.path.depth + s.continuation.length := by
      rw [Path.depth_extend, length_continuationSteps]
    rw [lookup_of_registered registered]
    change (do Path.checkDepth _; Path.render _ _) = _
    dsimp only
    by_cases deep : Path.maxDepth < d.path.depth + s.continuation.length
    · rw [if_pos deep, Path.checkDepth, if_neg (by simpa using start), depth, if_pos deep]
      rfl
    · have room := Nat.not_lt.1 (depth ▸ deep)
      rw [if_neg deep, Path.checkDepth_ok start room]
      change Path.render _ _ = _
      rewrite [Path.render_eq start room, Path.unbound?_extend (literal_continuationSteps _),
        Path.under_extend (literal_continuationSteps _)]
      cases d.path.unbound? s.arguments <;> rfl

/-- A location is at a path that a store accepts and that has literal keys only. -/
theorem locate_ok (bounded : t.IsBounded) {l : Location} {p : Path} (located : t.locate l = .ok p) :
    p.IsLiteral ∧ 1 ≤ p.depth ∧ p.depth ≤ Path.maxDepth := by
  unfold locate at located
  split at located
  · cases located
  · next d registered =>
    obtain ⟨start, -⟩ := bounded _ d registered
    have first : 0 < d.path.depth := List.length_pos_iff.2 start
    split at located
    · cases located
    · next room =>
      split at located
      · cases located
      · cases located
        rw [Path.depth_extend, Path.depth_under, length_continuationSteps]
        refine ⟨List.forall_mem_append.2 ⟨d.path.isLiteral_under _, literal_continuationSteps _⟩, ?_, ?_⟩
        · omega
        · omega

/-! ## Keys of other variables -/

/-- Arguments are changed, but only for variables that are not on the registered path. -/
def Respects (t : Table) (f : String → Arguments → Arguments) : Prop :=
  ∀ path d, t.descriptor? path = some d → ∀ args, ∀ name ∈ d.path.variableNames,
    (f path args).get? name = args.get? name

variable {f : String → Arguments → Arguments}

theorem Respects.resolve_eq (respects : t.Respects f) (path : String) (args : Arguments) :
    t.resolve path (f path args) = t.resolve path args := by
  unfold resolve
  cases registered : t.descriptor? path with
  | none =>
    rw [lookup_of_unknown registered]
    rfl
  | some d =>
    rw [lookup_of_registered registered]
    change (d.path.render _ >>= fun p => pure (d, p)) = (d.path.render _ >>= fun p => pure (d, p))
    rw [Path.render_congr (respects path d registered args)]

theorem Respects.resolveRaw_eq (respects : t.Respects f) (s : RawSetter) :
    t.resolveRaw { s with arguments := f s.basePath s.arguments } = t.resolveRaw s := by
  unfold resolveRaw
  dsimp only
  cases registered : t.descriptor? s.basePath with
  | none =>
    rw [lookup_of_unknown registered]
    rfl
  | some d =>
    have same : ∀ name ∈ (d.path.extend (continuationSteps s.continuation)).variableNames,
        (f s.basePath s.arguments).get? name = s.arguments.get? name := by
      rw [Path.variableNames_extend (literal_continuationSteps _)]
      exact respects _ d registered _
    rw [lookup_of_registered registered]
    change (do Path.checkDepth _; Path.render _ _) = (do Path.checkDepth _; Path.render _ _)
    rw [Path.render_congr same]

end Table

section Rebinding

variable (f : String → Arguments → Arguments)

def FieldGetter.rebind (g : FieldGetter) : FieldGetter :=
  { g with arguments := f g.path g.arguments }

def FieldRemover.rebind (r : FieldRemover) : FieldRemover :=
  { r with arguments := f r.path r.arguments }

def RawSetter.rebind (s : RawSetter) : RawSetter :=
  { s with arguments := f s.basePath s.arguments }

def Setter.rebind : Setter → Setter
  | .checked s => .checked { s with arguments := f s.path s.arguments }
  | .raw s => .raw (s.rebind f)

/-- The request with other arguments for each of its paths. -/
def TableRequest.rebind : TableRequest → TableRequest
  | .get keyValue path arguments => .get keyValue path (f path arguments)
  | .getMany keyValue getters => .getMany keyValue (getters.map (FieldGetter.rebind f))
  | .query key getters limit => .query key (getters.map (FieldGetter.rebind f)) limit
  | .set keyValue path value arguments => .set keyValue path value (f path arguments)
  | .setRaw keyValue setter => .setRaw keyValue (setter.rebind f)
  | .setMany keyValue setters => .setMany keyValue (setters.map (Setter.rebind f))
  | .remove keyValue path arguments => .remove keyValue path (f path arguments)
  | .removeMany keyValue removers => .removeMany keyValue (removers.map (FieldRemover.rebind f))
  | .putRecord record => .putRecord record
  | .getRecord keyValue => .getRecord keyValue
  | .deleteRecord key => .deleteRecord key

end Rebinding

namespace Table.Respects

variable {t : Table} {f : String → Arguments → Arguments} (respects : t.Respects f)
include respects

theorem resolveGetters_eq (getters : Assoc FieldGetter) :
    t.resolveGetters (getters.map fun e => (e.1, e.2.rebind f)) = t.resolveGetters getters := by
  induction getters with
  | nil => rfl
  | cons e rest ih =>
    rw [List.map_cons, resolveGetters, resolveGetters, ih]
    dsimp only [FieldGetter.rebind]
    rw [respects.resolve_eq]

theorem resolveNamed_eq (getters : SortedMap FieldGetter) :
    t.resolveGetters (getters.map (FieldGetter.rebind f)).toList = t.resolveGetters getters.toList :=
  respects.resolveGetters_eq getters.entries

theorem resolveRemovers_eq (removers : List FieldRemover) :
    t.resolveRemovers (removers.map (FieldRemover.rebind f)) = t.resolveRemovers removers := by
  induction removers with
  | nil => rfl
  | cons r rest ih =>
    rw [List.map_cons, resolveRemovers, resolveRemovers, ih]
    dsimp only [FieldRemover.rebind]
    rw [respects.resolve_eq]

theorem prepare_eq (coercion : Coercion) (setter : Setter) :
    t.prepare coercion (setter.rebind f) = t.prepare coercion setter := by
  cases setter with
  | checked s => rw [Setter.rebind, prepare, prepare, respects.resolve_eq]
  | raw s =>
    rw [Setter.rebind, prepare, prepare, RawSetter.rebind, respects.resolveRaw_eq]

theorem prepareAll_eq (coercion : Coercion) (setters : List Setter) :
    t.prepareAll coercion (setters.map (Setter.rebind f)) = t.prepareAll coercion setters := by
  induction setters with
  | nil => rfl
  | cons s rest ih => rw [List.map_cons, prepareAll, prepareAll, respects.prepare_eq, ih]

variable {σ : Type} [DocumentStore σ]

theorem setMany_eq (keyValue : Json) (setters : List Setter) :
    (t.setMany keyValue (setters.map (Setter.rebind f)) : TableM σ _) = t.setMany keyValue setters := by
  unfold setMany
  simp only [respects.prepareAll_eq]

theorem removeMany_eq (keyValue : Json) (removers : List FieldRemover) :
    (t.removeMany keyValue (removers.map (FieldRemover.rebind f)) : TableM σ _) =
      t.removeMany keyValue removers := by
  unfold removeMany
  rw [List.isEmpty_map, respects.resolveRemovers_eq]

/-- Whatever is asked, the keys of other variables change neither the outcome nor what happens to the store. -/
theorem handle_eq (request : TableRequest) :
    (t.handle (request.rebind f) : TableM σ _) = t.handle request := by
  cases request with
  | get keyValue path arguments =>
    rw [TableRequest.rebind, handle, handle, get, get, respects.resolve_eq]
  | getMany keyValue getters =>
    rw [TableRequest.rebind, handle, handle, getMany, getMany, respects.resolveNamed_eq]
  | query key getters limit =>
    rw [TableRequest.rebind, handle, handle, query, query, respects.resolveNamed_eq]
  | set keyValue path value arguments =>
    have same := respects.setMany_eq (σ := σ) keyValue [.checked ⟨path, value, arguments⟩]
    rw [TableRequest.rebind, handle, handle, set, set]
    exact same ▸ rfl
  | setRaw keyValue setter =>
    have same := respects.setMany_eq (σ := σ) keyValue [.raw setter]
    rw [TableRequest.rebind, handle, handle, setRaw, setRaw]
    exact same ▸ rfl
  | setMany keyValue setters =>
    rw [TableRequest.rebind, handle, handle, respects.setMany_eq]
  | remove keyValue path arguments =>
    have same := respects.removeMany_eq (σ := σ) keyValue [⟨path, arguments⟩]
    rw [TableRequest.rebind, handle, handle, remove, remove]
    exact same ▸ rfl
  | removeMany keyValue removers =>
    rw [TableRequest.rebind, handle, handle, respects.removeMany_eq]
  | putRecord record => rfl
  | getRecord keyValue => rfl
  | deleteRecord key => rfl

end Table.Respects

end DocSchema
