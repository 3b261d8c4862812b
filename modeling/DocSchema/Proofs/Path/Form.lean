import DocSchema.Path.Form
import DocSchema.Proofs.Json.Written

/-!
# Paths and arguments written and read back
-/

namespace DocSchema

open Json (Tree RoundTrips)

/-- The custom default of a step is such as a text can say. -/
def PathStep.IsExact (s : PathStep) : Prop :=
  Json.ExactDefault s.custom

def Path.IsExact (p : Path) : Prop :=
  ∀ s ∈ p.steps, s.IsExact

theorem StepKey.ofTree?_written (key : StepKey) : ofTree? key.toJson.written = some key := by
  have read : ∀ kind name, StepKey.ofTree? (Json.obj [("kind", .str kind), ("name", .str name)]).written =
      ofKind? kind name := by
    intro kind name
    obtain ⟨members, tree, spelled⟩ := Json.written_obj
      (show (Assoc.names [("kind", Json.str kind), ("name", .str name)]).Nodup by simp [Assoc.names])
    rw [tree, ofTree?, Tree.unique?_eq spelled.distinct, Tree.unique?_eq spelled.distinct, spelled.get?,
      spelled.get?]
    rfl
  cases key with
  | literal name => exact read "attribute" name
  | placeholder name => exact read "placeholder" name

theorem StorageType.ofTree?_written (type : StorageType) : ofTree? (Json.str type.name).written = some type := by
  cases type <;> rfl

namespace PathStep

/-- The members of a step in the order in which they are written. -/
def toMembers (s : PathStep) : Json.Members :=
  [("key", s.key.toJson), ("default_type", .str s.type.name)] ++ Assoc.optional "default_value" s.custom

theorem names_toMembers_nodup (s : PathStep) : (Assoc.names s.toMembers).Nodup := by
  have fewer : (Assoc.names s.toMembers).Sublist (["key", "default_type"] ++ ["default_value"]) := by
    rw [toMembers, Assoc.names_append]
    exact .append (.refl _) (Assoc.names_optional ..)
  exact fewer.nodup (by decide)

theorem ofTree?_written {s : PathStep} (exact : s.IsExact) : ofTree? s.toJson.written = some s := by
  obtain ⟨parts, read, found⟩ :=
    Json.parts?_written s.names_toMembers_nodup ["key", "default_type", "default_value"]
  have key : parts.require StepKey.ofTree? "key" = some s.key :=
    Tree.Parts.require_of_find? (found "key" (by decide)) s.key.ofTree?_written
  have type : parts.require StorageType.ofTree? "default_type" = some s.type :=
    Tree.Parts.require_of_find? (found "default_type" (by decide)) s.type.ofTree?_written
  have custom : parts.optional Tree.value? "default_value" = some s.custom := by
    have part : Assoc.get? "default_value" s.toMembers = s.custom := by simp [toMembers, Assoc.get?]
    exact Json.ExactDefault.optional Json.spelling_written exact (part ▸ found "default_value" (by decide))
  have written : s.toJson = .obj s.toMembers := rfl
  rw [ofTree?, written, read]
  simp only [Option.bind_eq_bind, Option.bind_some, key, type, custom]
  rfl

theorem isExact_of_ofTree? {t : Tree} {s : PathStep} (read : ofTree? t = some s) : s.IsExact := by
  obtain ⟨parts, _, read⟩ := Option.bind_eq_some_iff.1 read
  obtain ⟨key, _, read⟩ := Option.bind_eq_some_iff.1 read
  obtain ⟨type, _, read⟩ := Option.bind_eq_some_iff.1 read
  obtain ⟨custom, default, read⟩ := Option.bind_eq_some_iff.1 read
  cases read
  exact Json.exactDefault_of_optional default

theorem roundTrips : RoundTrips toJson ofTree? IsExact :=
  .of (fun _ => ofTree?_written) fun _ _ => isExact_of_ofTree?

/-- A null default is not read back. -/
example : ofTree? (toJson ⟨.literal "x", .any, some .null⟩).written = some ⟨.literal "x", .any, none⟩ := by
  decide

end PathStep

theorem Path.roundTrips : RoundTrips toJson ofTree? IsExact := by
  refine .of (fun p exact => ?_) fun t p read s member => ?_
  · have back := Json.mapM_spelled fun s member => PathStep.ofTree?_written (exact s member)
    rw [toJson, Json.written_arr, ofTree?]
    simp only [Tree.items?, Option.bind_eq_bind, Option.bind_some, back]
    rfl
  · obtain ⟨items, _, read⟩ := Option.bind_eq_some_iff.1 read
    obtain ⟨steps, found, read⟩ := Option.bind_eq_some_iff.1 read
    cases read
    obtain ⟨t, _, value⟩ := exists_of_mapM found member
    exact PathStep.isExact_of_ofTree? value

/-- Arguments have ascending names, so they are written as they are. -/
theorem Arguments.ofTree?_written (args : Arguments) : ofTree? (Arguments.toJson args).written = some args := by
  have ordered : (Arguments.toJson args).Ordered := by
    refine .obj (args.sorted.of_names_sublist ?_) fun name v member => ?_
    · rw [Assoc.names, List.map_map]
      exact .refl _
    · obtain ⟨_, _, same⟩ := List.mem_map.1 member
      cases same
      exact .str _
  have bindings : ((args.toList.map fun a => (a.1, Json.str a.2)).map fun m => (m.1, Tree.ofJson m.2)).mapM
      (fun m => m.2.str?.map fun s => (m.1, s)) = some args.entries := by
    rw [List.map_map, List.mapM_map]
    exact (mapM_eq_some_map fun _ _ => rfl).trans (congrArg some (List.map_id args.entries))
  rw [Json.written, Json.canonical_of_ordered ordered, toJson, Tree.ofJson, Tree.ofMembers_eq, ofTree?, bindings]
  exact congrArg some args.ofList_entries

theorem Arguments.roundTrips : RoundTrips Arguments.toJson Arguments.ofTree? fun _ => True :=
  .of (fun args _ => args.ofTree?_written) fun _ _ _ => trivial

end DocSchema
