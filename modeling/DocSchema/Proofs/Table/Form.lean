import DocSchema.Config
import DocSchema.Proofs.Path.Form
import DocSchema.Proofs.Schema.Form
import DocSchema.Store.Basic
import DocSchema.Table.Request

/-!
# Requests, keys and settings written and read back

With these all declared types can be written and read back. Where a type has JSON values of its own they have to be
in canonical form, and numbers have to fit the words that hold them; both is true of all that is read.
-/

namespace DocSchema

open Json (Tree RoundTrips)

/-! ## Keys and settings -/

namespace RecordKey

def IsExact (k : RecordKey) : Prop :=
  k.value.Ordered

theorem roundTrips : RoundTrips toJson ofTree? IsExact := by
  refine .of (fun k exact => ?_) fun t k read => ?_
  · obtain ⟨parts, read, found⟩ := Json.parts?_written
      (show (Assoc.names [("name", Json.str k.name), ("value", k.value)]).Nodup by simp [Assoc.names])
      ["name", "value"]
    have name : parts.require Tree.str? "name" = some k.name :=
      Tree.Parts.require_of_find? (found "name" (by decide)) rfl
    have value : parts.require Tree.value? "value" = some k.value :=
      Tree.Parts.require_of_find? (found "value" (by decide)) (Json.spelling_written.value?_of_ordered exact)
    rw [toJson, ofTree?, read]
    simp only [Option.bind_eq_bind, Option.bind_some, name, value]
    rfl
  · obtain ⟨parts, _, read⟩ := Option.bind_eq_some_iff.1 read
    obtain ⟨name, _, read⟩ := Option.bind_eq_some_iff.1 read
    obtain ⟨value, given, read⟩ := Option.bind_eq_some_iff.1 read
    cases read
    obtain ⟨t, _, held⟩ := Option.bind_eq_some_iff.1 given
    exact Tree.ordered_of_value? held

end RecordKey

namespace EngineConfig

structure IsExact (c : EngineConfig) : Prop where
  maxNestedDepth : c.maxNestedDepth < Word.unsignedBound
  numericScale : ∀ n, c.numericScale = some n → n < Word.shortBound

def toMembers (c : EngineConfig) : Json.Members :=
  [("max_nested_depth", .num (.int c.maxNestedDepth)), ("strict_depth", .bool c.strictDepth),
    ("numeric_scale", (c.numericScale.map fun n => Json.num (.int n)).getD .null)]

theorem names_toMembers_nodup (c : EngineConfig) : (Assoc.names c.toMembers).Nodup := by
  simp [toMembers, Assoc.names]

theorem roundTrips : RoundTrips toJson ofTree? IsExact := by
  refine .of (fun c exact => ?_) fun t c read => ?_
  · obtain ⟨parts, read, found⟩ :=
      Json.parts?_written c.names_toMembers_nodup ["max_nested_depth", "strict_depth", "numeric_scale"]
    have maxNestedDepth : parts.get (Tree.nat? Word.unsignedBound) "max_nested_depth" Path.maxDepth =
        some c.maxNestedDepth :=
      Tree.Parts.get_of_find? (found "max_nested_depth" (by decide)) (Json.spelling_written.nat? exact.maxNestedDepth) _
    have strictDepth : parts.get Tree.bool? "strict_depth" false = some c.strictDepth :=
      Tree.Parts.get_of_find? (found "strict_depth" (by decide)) (Json.spelling_written.bool? c.strictDepth) _
    have numericScale : parts.optional (Tree.nat? Word.shortBound) "numeric_scale" = some c.numericScale := by
      have part : parts.find? "numeric_scale" =
          some ((c.numericScale.map fun n => Json.num (.int n)).getD .null).written :=
        found "numeric_scale" (by decide)
      cases scale : c.numericScale with
      | none =>
        rw [scale] at part
        rw [Tree.Parts.optional, part]
        rfl
      | some n =>
        rw [scale] at part
        have back := Json.spelling_written.nat? (exact.numericScale n scale)
        rw [Tree.Parts.optional, part]
        exact congrArg (Option.map some) back
    have written : c.toJson = .obj c.toMembers := rfl
    rw [written, ofTree?, read]
    simp only [Option.bind_eq_bind, Option.bind_some, maxNestedDepth, strictDepth, numericScale]
    rfl
  · obtain ⟨parts, _, read⟩ := Option.bind_eq_some_iff.1 read
    obtain ⟨maxNestedDepth, depth, read⟩ := Option.bind_eq_some_iff.1 read
    obtain ⟨strictDepth, _, read⟩ := Option.bind_eq_some_iff.1 read
    obtain ⟨numericScale, scale, read⟩ := Option.bind_eq_some_iff.1 read
    cases read
    refine ⟨?_, ?_⟩
    · unfold Tree.Parts.get at depth
      split at depth
      · cases depth
        exact show Path.maxDepth < Word.unsignedBound by decide
      · exact Tree.lt_of_nat? depth
    · rintro n rfl
      obtain ⟨t, value⟩ := Tree.Parts.exists_of_optional scale
      exact Tree.lt_of_nat? value

end EngineConfig

/-! ## Requests -/

namespace FieldGetter

theorem roundTrips : RoundTrips toJson ofTree? fun _ => True := by
  refine .of (fun g _ => ?_) fun _ _ _ => trivial
  obtain ⟨parts, read, found⟩ := Json.parts?_written
    (show (Assoc.names [("path", Json.str g.path), ("query_args", Arguments.toJson g.arguments)]).Nodup by
      simp [Assoc.names]) ["path", "query_args"]
  have path : parts.require Tree.str? "path" = some g.path :=
    Tree.Parts.require_of_find? (found "path" (by decide)) rfl
  have arguments : parts.get Arguments.ofTree? "query_args" ∅ = some g.arguments :=
    Tree.Parts.get_of_find? (found "query_args" (by decide)) g.arguments.ofTree?_written _
  rw [toJson, ofTree?, read]
  simp only [Option.bind_eq_bind, Option.bind_some, path, arguments]
  rfl

end FieldGetter

/-- A remover has the form of a getter. -/
theorem FieldRemover.roundTrips : RoundTrips toJson ofTree? fun _ => True := by
  refine .of (fun r _ => ?_) fun _ _ _ => trivial
  have read : FieldGetter.ofTree? r.toJson.written = some ⟨r.path, r.arguments⟩ :=
    FieldGetter.roundTrips.back ⟨r.path, r.arguments⟩ trivial
  rw [ofTree?, read]
  rfl

namespace FieldSetter

def IsExact (s : FieldSetter) : Prop :=
  s.value.Ordered

/-- A setter is read back from an object that has its members. -/
theorem ofTree?_written {s : FieldSetter} (exact : s.IsExact) {parts : Json.Members}
    (distinct : (Assoc.names parts).Nodup)
    (same : ∀ name ∈ ["path", "value", "query_args"], Assoc.get? name parts = Assoc.get? name s.toMembers) :
    ofTree? (Json.obj parts).written = some s := by
  obtain ⟨known, read, found⟩ := Json.parts?_written distinct ["path", "value", "query_args"]
  have found : ∀ name ∈ ["path", "value", "query_args"],
      known.find? name = (Assoc.get? name s.toMembers).map Json.written :=
    fun name listed => same name listed ▸ found name listed
  have path : known.require Tree.str? "path" = some s.path :=
    Tree.Parts.require_of_find? (found "path" (by decide)) rfl
  have value : known.require Tree.value? "value" = some s.value :=
    Tree.Parts.require_of_find? (found "value" (by decide)) (Json.spelling_written.value?_of_ordered exact)
  have arguments : known.get Arguments.ofTree? "query_args" ∅ = some s.arguments :=
    Tree.Parts.get_of_find? (found "query_args" (by decide)) s.arguments.ofTree?_written _
  rw [ofTree?, read]
  simp only [Option.bind_eq_bind, Option.bind_some, path, value, arguments]
  rfl

theorem isExact_of_ofTree? {t : Tree} {s : FieldSetter} (read : ofTree? t = some s) : s.IsExact := by
  obtain ⟨parts, _, read⟩ := Option.bind_eq_some_iff.1 read
  obtain ⟨path, _, read⟩ := Option.bind_eq_some_iff.1 read
  obtain ⟨value, given, read⟩ := Option.bind_eq_some_iff.1 read
  obtain ⟨arguments, _, read⟩ := Option.bind_eq_some_iff.1 read
  cases read
  obtain ⟨t, _, held⟩ := Option.bind_eq_some_iff.1 given
  exact Tree.ordered_of_value? held

theorem names_toMembers_nodup (s : FieldSetter) : (Assoc.names s.toMembers).Nodup := by
  simp [toMembers, Assoc.names]

theorem roundTrips : RoundTrips toJson ofTree? IsExact :=
  .of (fun s exact => ofTree?_written exact s.names_toMembers_nodup fun _ _ => rfl) fun _ _ => isExact_of_ofTree?

end FieldSetter

namespace RawSetter

def IsExact (s : RawSetter) : Prop :=
  s.value.Ordered

/-- A setter is read back from an object that has its members. -/
theorem ofTree?_written {s : RawSetter} (exact : s.IsExact) {parts : Json.Members}
    (distinct : (Assoc.names parts).Nodup)
    (same : ∀ name ∈ ["base_path", "continuation", "value", "query_args"],
      Assoc.get? name parts = Assoc.get? name s.toMembers) :
    ofTree? (Json.obj parts).written = some s := by
  obtain ⟨known, read, found⟩ :=
    Json.parts?_written distinct ["base_path", "continuation", "value", "query_args"]
  have found : ∀ name ∈ ["base_path", "continuation", "value", "query_args"],
      known.find? name = (Assoc.get? name s.toMembers).map Json.written :=
    fun name listed => same name listed ▸ found name listed
  have basePath : known.require Tree.str? "base_path" = some s.basePath :=
    Tree.Parts.require_of_find? (found "base_path" (by decide)) rfl
  have continuation : known.get continuation? "continuation" [] = some s.continuation := by
    refine Tree.Parts.get_of_find? (found "continuation" (by decide)) ?_ _
    have back : ((s.continuation.map Json.str).map Json.written).mapM Tree.str? = some s.continuation :=
      Json.mapM_spelled fun _ _ => rfl
    rw [Json.written_arr]
    exact back
  have value : known.require Tree.value? "value" = some s.value :=
    Tree.Parts.require_of_find? (found "value" (by decide)) (Json.spelling_written.value?_of_ordered exact)
  have arguments : known.get Arguments.ofTree? "query_args" ∅ = some s.arguments :=
    Tree.Parts.get_of_find? (found "query_args" (by decide)) s.arguments.ofTree?_written _
  rw [ofTree?, read]
  simp only [Option.bind_eq_bind, Option.bind_some, basePath, continuation, value, arguments]
  rfl

theorem isExact_of_ofTree? {t : Tree} {s : RawSetter} (read : ofTree? t = some s) : s.IsExact := by
  obtain ⟨parts, _, read⟩ := Option.bind_eq_some_iff.1 read
  obtain ⟨basePath, _, read⟩ := Option.bind_eq_some_iff.1 read
  obtain ⟨continuation, _, read⟩ := Option.bind_eq_some_iff.1 read
  obtain ⟨value, given, read⟩ := Option.bind_eq_some_iff.1 read
  obtain ⟨arguments, _, read⟩ := Option.bind_eq_some_iff.1 read
  cases read
  obtain ⟨t, _, held⟩ := Option.bind_eq_some_iff.1 given
  exact Tree.ordered_of_value? held

theorem names_toMembers_nodup (s : RawSetter) : (Assoc.names s.toMembers).Nodup := by
  simp [toMembers, Assoc.names]

theorem roundTrips : RoundTrips toJson ofTree? IsExact :=
  .of (fun s exact => ofTree?_written exact s.names_toMembers_nodup fun _ _ => rfl) fun _ _ => isExact_of_ofTree?

end RawSetter

namespace Setter

def IsExact (s : Setter) : Prop :=
  s.value.Ordered

section Tagged

variable {kind : String} {members : Json.Members}

/-- The members of a setter, with its kind in front. -/
def tagged (kind : String) (members : Json.Members) : Json.Members :=
  ("kind", .str kind) :: members

theorem names_tagged_nodup (fresh : "kind" ∉ Assoc.names members) (distinct : (Assoc.names members).Nodup) :
    (Assoc.names (tagged kind members)).Nodup :=
  List.nodup_cons.2 ⟨fresh, distinct⟩

/-- The kind does not hide the members of a setter. -/
theorem get?_tagged {name : String} (other : "kind" ≠ name) :
    Assoc.get? name (tagged kind members) = Assoc.get? name members :=
  if_neg other

theorem ofTree?_tagged (distinct : (Assoc.names (tagged kind members)).Nodup) :
    ofTree? (Json.obj (tagged kind members)).written =
      ofKind? (.str kind) (Json.obj (tagged kind members)).written := by
  obtain ⟨trees, tree, spelled⟩ := Json.written_obj distinct
  have readable : (Tree.obj trees).readable = true := tree ▸ Json.spelling_written.readable _
  rw [tree, ofTree?, if_pos readable, Tree.unique?_eq spelled.distinct, spelled.get?]
  rfl

end Tagged

theorem isExact_of_ofKind? {kind t : Tree} {s : Setter} (read : ofKind? kind t = some s) : s.IsExact := by
  unfold ofKind? at read
  split at read
  · obtain ⟨setter, found, rfl⟩ := Option.map_eq_some_iff.1 read
    exact FieldSetter.isExact_of_ofTree? found
  · obtain ⟨setter, found, rfl⟩ := Option.map_eq_some_iff.1 read
    exact RawSetter.isExact_of_ofTree? found
  · cases read

theorem roundTrips : RoundTrips toJson ofTree? IsExact := by
  refine .of (fun s exact => ?_) fun t s read => ?_
  · cases s with
    | checked s =>
      have distinct : (Assoc.names (tagged "safe" s.toMembers)).Nodup :=
        names_tagged_nodup (by simp [FieldSetter.toMembers, Assoc.names]) s.names_toMembers_nodup
      have apart : ∀ name ∈ ["path", "value", "query_args"], "kind" ≠ name := by decide
      have back := FieldSetter.ofTree?_written exact distinct fun name listed => get?_tagged (apart name listed)
      have written : toJson (.checked s) = .obj (tagged "safe" s.toMembers) := rfl
      rw [written, ofTree?_tagged distinct, ofKind?, back]
      rfl
    | raw s =>
      have distinct : (Assoc.names (tagged "unsafe" s.toMembers)).Nodup :=
        names_tagged_nodup (by simp [RawSetter.toMembers, Assoc.names]) s.names_toMembers_nodup
      have apart : ∀ name ∈ ["base_path", "continuation", "value", "query_args"], "kind" ≠ name := by decide
      have back := RawSetter.ofTree?_written exact distinct fun name listed => get?_tagged (apart name listed)
      have written : toJson (.raw s) = .obj (tagged "unsafe" s.toMembers) := rfl
      rw [written, ofTree?_tagged distinct, ofKind?, back]
      rfl
  · unfold ofTree? at read
    split at read
    · split at read
      · obtain ⟨_, _, read⟩ := Option.bind_eq_some_iff.1 read
        obtain ⟨_, _, read⟩ := Option.bind_eq_some_iff.1 read
        exact isExact_of_ofKind? read
      · exact isExact_of_ofKind? read
      · cases read
    · cases read

end Setter

/-- Every declared type is read back as it was written, unless a custom default is null or a value is not one that
a text can say, and nothing of the sort is ever read. So whatever is read is the same when it is written and read
once more. -/
theorem declared_types_round_trip :
    RoundTrips Model.toJson Model.ofTree? Model.IsExact ∧
    RoundTrips Field.toJson Field.ofTree? Field.IsExact ∧
    RoundTrips FieldType.toJson FieldType.ofTree? FieldType.IsExact ∧
    RoundTrips Path.toJson Path.ofTree? Path.IsExact ∧
    RoundTrips PathStep.toJson PathStep.ofTree? PathStep.IsExact ∧
    RoundTrips Arguments.toJson Arguments.ofTree? (fun _ => True) ∧
    RoundTrips RecordKey.toJson RecordKey.ofTree? RecordKey.IsExact ∧
    RoundTrips FieldGetter.toJson FieldGetter.ofTree? (fun _ => True) ∧
    RoundTrips FieldSetter.toJson FieldSetter.ofTree? FieldSetter.IsExact ∧
    RoundTrips RawSetter.toJson RawSetter.ofTree? RawSetter.IsExact ∧
    RoundTrips FieldRemover.toJson FieldRemover.ofTree? (fun _ => True) ∧
    RoundTrips Setter.toJson Setter.ofTree? Setter.IsExact ∧
    RoundTrips EngineConfig.toJson EngineConfig.ofTree? EngineConfig.IsExact :=
  ⟨Model.roundTrips, Field.roundTrips, FieldType.roundTrips, Path.roundTrips, PathStep.roundTrips,
    Arguments.roundTrips, RecordKey.roundTrips, FieldGetter.roundTrips, FieldSetter.roundTrips,
    RawSetter.roundTrips, FieldRemover.roundTrips, Setter.roundTrips, EngineConfig.roundTrips⟩

end DocSchema
