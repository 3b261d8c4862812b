import DocSchema.Proofs.Validation.Pruning

/-!
# Checking again

What a check keeps of a value passes the check again as it is, without a warning, if the coercion leaves alone what
it has made of a number.
-/

namespace DocSchema

/-- The coercion leaves alone what it has made of a number. -/
def Coercion.Idempotent (f : Coercion) : Prop :=
  ∀ n, (f n).coerce f = f n

theorem Coercion.passThrough_idempotent : passThrough.Idempotent :=
  fun n => Json.coerce_passThrough (.num n)

/-- A store that leaves numbers alone, or rounds them once and for all, does so at some scale. -/
theorem Coercion.exists_scale {f : Coercion}
    (numbers : f = .passThrough ∨ ∃ scale, f = .fixedPoint scale ∧ (fixedPoint scale).Idempotent) :
    ∃ scale, f = .ofScale scale ∧ (ofScale scale).Idempotent := by
  rcases numbers with rfl | ⟨scale, rfl, idempotent⟩
  · exact ⟨none, rfl, passThrough_idempotent⟩
  · exact ⟨some scale, rfl, idempotent⟩

namespace Json

variable {f : Coercion}

theorem coerce_coerce (idempotent : f.Idempotent) (v : Json) : (v.coerce f).coerce f = v.coerce f := by
  induction v using Json.induct with
  | num n => exact idempotent n
  | arr items ih =>
    simp only [coerce, coerceItems_eq_map, List.map_map]
    exact congrArg Json.arr (List.map_congr_left ih)
  | obj members ih =>
    simp only [coerce, coerceMembers_eq_map, List.map_map]
    refine congrArg Json.obj (List.map_congr_left fun m member => ?_)
    exact congrArg (m.1, ·) (ih m.1 m.2 member)
  | _ => rfl

/-- A list is left alone if its items are. -/
theorem coerce_concat_item {items : List Json} {v : Json} :
    (Json.arr (items ++ [v])).coerce f = .arr (items ++ [v]) ↔
      (Json.arr items).coerce f = .arr items ∧ v.coerce f = v := by
  simp only [coerce, coerceItems_eq_map, List.map_append, List.map_singleton, Json.arr.injEq]
  constructor
  · intro same
    obtain ⟨rest, last⟩ := List.append_inj' same rfl
    exact ⟨rest, List.singleton_inj.1 last⟩
  · rintro ⟨rest, last⟩
    rw [rest, last]

/-- An object is left alone if its members are. -/
theorem coerce_concat_member {members : Members} {key : String} {v : Json} :
    (Json.obj (members ++ [(key, v)])).coerce f = .obj (members ++ [(key, v)]) ↔
      (Json.obj members).coerce f = .obj members ∧ v.coerce f = v := by
  simp only [coerce, coerceMembers_eq_map, List.map_append, List.map_singleton, Json.obj.injEq]
  constructor
  · intro same
    obtain ⟨rest, last⟩ := List.append_inj' same rfl
    exact ⟨rest, (Prod.mk.inj (List.singleton_inj.1 last)).2⟩
  · rintro ⟨rest, last⟩
    rw [rest, last]

end Json

/-- Nothing that is left of a value has to be coerced if nothing in the value has. -/
theorem Pruned.coerce_eq {f : Coercion} {field : String} {v w : Json} {warnings : List Mismatch}
    (pruned : Pruned field v w warnings) (fixed : v.coerce f = v) : w.coerce f = w := by
  induction pruned with
  | whole => exact fixed
  | keepItem _ _ ihBefore ihItem =>
    obtain ⟨rest, last⟩ := Json.coerce_concat_item.1 fixed
    exact Json.coerce_concat_item.2 ⟨ihBefore rest, ihItem last⟩
  | deleteItem _ _ _ ih => exact ih (Json.coerce_concat_item.1 fixed).1
  | keepMember _ _ ihBefore ihMember =>
    obtain ⟨rest, last⟩ := Json.coerce_concat_member.1 fixed
    exact Json.coerce_concat_member.2 ⟨ihBefore rest, ihMember last⟩
  | deleteMember _ _ _ _ ih => exact ih (Json.coerce_concat_member.1 fixed).1

namespace Validator

variable {required : Bool} {field : String}

/-- What a check keeps passes the check again as it is, at any place, required or not. -/
theorem check_again {scale : Option Nat} {t : FieldType} {v w : Json} {ws : List Mismatch}
    (idempotent : (Coercion.ofScale scale).Idempotent)
    (distinct : ∀ model, t.Holds model → (model.fields.map Field.name).Nodup)
    (success : (check (.ofScale scale) t required field v).result = .ok ⟨some w, ws⟩) (needed : Bool)
    (place : String) : (check (.ofScale scale) t needed place w).result = .ok ⟨some w, []⟩ := by
  have pruned : Pruned field (v.coerce (.ofScale scale)) w ws := check_prunes _ required field success
  have fixed := pruned.coerce_eq (Json.coerce_coerce idempotent v)
  exact (check_lossless_iff _ needed place t w w).2 ⟨conforms_of_check distinct success, fixed.symm⟩

/-- A value that is accepted as a whole is accepted alike at any place, required or not. -/
theorem check_elsewhere {coercion : Coercion} {t : FieldType} {v w : Json} {ws : List Mismatch}
    (success : (check coercion t required field v).result = .ok ⟨some w, ws⟩) (whole : w = v.coerce coercion)
    (needed : Bool) (place : String) : (check coercion t needed place v).result = .ok ⟨some w, []⟩ := by
  have silent := (check_silent_iff _ _ _ success).2 whole
  rw [silent] at success
  exact (check_lossless_iff _ _ _ _ _ _).2 ((check_lossless_iff _ _ _ _ _ _).1 success)

/-- Each member that is kept of an object comes from the member of its name, by its declaration. -/
theorem member_of_kept {coercion : Coercion} {model : ObjectSchema} {members kept : Json.Members}
    {ws : List Mismatch} (sorted : Assoc.Sorted members)
    (success : (check coercion (.object model) required field (.obj members)).result = .ok ⟨some (.obj kept), ws⟩)
    {key : String} {w : Json} (present : Assoc.get? key kept = some w) :
    ∃ v f inside, Assoc.get? key members = some v ∧ model.find? key = some f ∧
      (check coercion (f.type.within model) f.required (join field key) v).result = .ok ⟨some w, inside⟩ := by
  obtain ⟨_, looped, -, ⟨⟩⟩ := (check_object_ok_iff coercion required field).1 success
  obtain ⟨⟨_, v⟩, member, _, inside, checked, ⟨⟩⟩ := exists_of_mem_kept looped (Assoc.mem_of_get? present)
  obtain ⟨f, found, checked⟩ := checkMember_accepted checked
  exact ⟨v, f, inside, sorted.mem_iff_get?.1 member, found, checked⟩

end Validator

end DocSchema
