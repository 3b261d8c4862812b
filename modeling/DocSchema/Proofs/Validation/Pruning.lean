import DocSchema.Proofs.Validation.Conformance

/-!
# Pruning

What a check keeps of a value is the value without some of its members and items, and each entry that is gone
is reported once, under the name of its place (`Pruned`). No assumption is needed for that. What is kept
conforms to the type if no object model in it declares a name twice: of two declarations of one name only the
first is looked up, so it could drop what the second requires.
-/

namespace DocSchema

/-- What is left of a value found at `field`, and the warnings about what is gone. Members and items are visited
in order. An entry that stays is pruned itself; an entry that goes leaves one warning, which names its place,
and nothing is reported inside it. -/
inductive Pruned : String → Json → Json → List Mismatch → Prop
  | whole (field : String) (v : Json) : Pruned field v v []
  | keepItem {field : String} {items kept : List Json} {v w : Json} {before inside : List Mismatch}
      (earlier : Pruned field (.arr items) (.arr kept) before)
      (item : Pruned s!"{field}[{items.length}]" v w inside) :
      Pruned field (.arr (items ++ [v])) (.arr (kept ++ [w])) (before ++ inside)
  | deleteItem {field : String} {items kept : List Json} {before : List Mismatch}
      (earlier : Pruned field (.arr items) (.arr kept) before) (v : Json) {m : Mismatch}
      (place : m.field = s!"{field}[{items.length}]") :
      Pruned field (.arr (items ++ [v])) (.arr kept) (before ++ [m])
  | keepMember {field key : String} {members kept : List (String × Json)} {v w : Json}
      {before inside : List Mismatch} (earlier : Pruned field (.obj members) (.obj kept) before)
      (member : Pruned (Validator.join field key) v w inside) :
      Pruned field (.obj (members ++ [(key, v)])) (.obj (kept ++ [(key, w)])) (before ++ inside)
  | deleteMember {field : String} {members kept : List (String × Json)} {before : List Mismatch}
      (earlier : Pruned field (.obj members) (.obj kept) before) (key : String) (v : Json) {m : Mismatch}
      (place : m.field = Validator.join field key) :
      Pruned field (.obj (members ++ [(key, v)])) (.obj kept) (before ++ [m])

namespace Pruned

variable {field : String} {v w : Json} {warnings : List Mismatch}

/-- Pruning neither renames nor reorders members. -/
theorem names_sublist (pruned : Pruned field v w warnings) {members kept : List (String × Json)}
    (before : v = .obj members) (after : w = .obj kept) :
    (Assoc.names kept).Sublist (Assoc.names members) := by
  induction pruned generalizing members kept with
  | whole =>
    subst before
    cases after
    exact List.Sublist.refl _
  | keepItem => cases before
  | deleteItem => cases before
  | keepMember _ _ ih =>
    cases before
    cases after
    rw [Assoc.names, Assoc.names, List.map_append, List.map_append]
    exact (ih rfl rfl).append (List.Sublist.refl _)
  | deleteMember _ _ _ _ ih =>
    cases before
    cases after
    rw [Assoc.names, Assoc.names, List.map_append]
    exact (ih rfl rfl).trans (List.sublist_append_left _ _)

theorem items_length_le (pruned : Pruned field v w warnings) {items kept : List Json} (before : v = .arr items)
    (after : w = .arr kept) : kept.length ≤ items.length := by
  induction pruned generalizing items kept with
  | whole =>
    subst before
    cases after
    exact Nat.le_refl _
  | keepItem _ _ ih =>
    cases before
    cases after
    simpa using ih rfl rfl
  | deleteItem _ _ _ ih =>
    cases before
    cases after
    rw [List.length_append]
    exact Nat.le_add_right_of_le (ih rfl rfl)
  | keepMember => cases before
  | deleteMember => cases before

/-- Where pruning takes nothing away there is nothing to report. -/
theorem silent_of_eq (pruned : Pruned field v w warnings) (same : w = v) : warnings = [] := by
  induction pruned with
  | whole => rfl
  | keepItem _ _ ihBefore ihItem =>
    obtain ⟨rest, last⟩ := List.append_inj' (Json.arr.inj same) rfl
    rw [ihBefore (congrArg Json.arr rest), ihItem (List.singleton_inj.1 last), List.append_nil]
  | deleteItem earlier =>
    cases same
    have shorter := earlier.items_length_le rfl rfl
    simp only [List.length_append, List.length_singleton] at shorter
    omega
  | keepMember _ _ ihBefore ihMember =>
    obtain ⟨rest, last⟩ := List.append_inj' (Json.obj.inj same) rfl
    have member := (Prod.mk.inj (List.singleton_inj.1 last)).2
    rw [ihBefore (congrArg Json.obj rest), ihMember member, List.append_nil]
  | deleteMember earlier =>
    cases same
    have shorter := (earlier.names_sublist rfl rfl).length_le
    simp only [Assoc.names, List.length_map, List.length_append, List.length_singleton] at shorter
    omega

theorem ordered (pruned : Pruned field v w warnings) (ordered : v.Ordered) : w.Ordered := by
  induction pruned with
  | whole => exact ordered
  | keepItem _ _ ihBefore ihItem =>
    cases ordered with
    | arr inside =>
      obtain ⟨insideBefore, insideItem⟩ := List.forall_mem_append.1 inside
      cases ihBefore (.arr insideBefore) with
      | arr keptInside =>
        refine .arr (List.forall_mem_append.2 ⟨keptInside, ?_⟩)
        simpa using ihItem (insideItem _ List.mem_cons_self)
  | deleteItem _ _ _ ih =>
    cases ordered with
    | arr inside => exact ih (.arr (List.forall_mem_append.1 inside).1)
  | keepMember earlier member ihBefore ihMember =>
    cases ordered with
    | obj ascending inside =>
      have names := (earlier.keepMember member).names_sublist rfl rfl
      have insideBefore := ihBefore (.obj (List.pairwise_append.1 ascending).1 fun name u found =>
        inside name u (List.mem_append_left _ found))
      cases insideBefore with
      | obj _ keptInside =>
        refine .obj (ascending.of_names_sublist names) fun name u found => ?_
        rcases List.mem_append.1 found with found | found
        · exact keptInside name u found
        · cases List.mem_singleton.1 found
          exact ihMember (inside _ _ (List.mem_append_right _ List.mem_cons_self))
  | deleteMember _ _ _ _ ih =>
    cases ordered with
    | obj ascending inside =>
      exact ih (.obj (List.pairwise_append.1 ascending).1 fun name u member =>
        inside name u (List.mem_append_left _ member))

end Pruned

namespace Validator

/-- What the check of one value reports: how it was pruned, or one warning that names its place. -/
def Prunes (place : String) (v : Json) (r : Validation) : Prop :=
  match r.value with
  | some w => Pruned place v w r.warnings
  | none => ∃ m : Mismatch, r.warnings = [m] ∧ m.field = place

section Loop

variable {α β : Type} {step : α → Checked Validation} {keep : α → Json → β} {entries : List α}
  {kept : List β} {warnings : List Mismatch}

theorem exists_of_mem_kept (looped : (checkEach step keep entries).result = .ok (kept, warnings)) {b : β}
    (member : b ∈ kept) : ∃ a ∈ entries, ∃ w ws, (step a).result = .ok ⟨some w, ws⟩ ∧ b = keep a w := by
  induction entries generalizing kept warnings with
  | nil =>
    cases looped
    cases member
  | cons a rest ih =>
    obtain ⟨⟨value, ws⟩, later, checked, onward, rfl, -⟩ := checkEach_cons_ok_iff.1 looped
    rcases List.mem_append.1 member with here | member
    · obtain ⟨w, rfl, same⟩ : ∃ w, value = some w ∧ b = keep a w := by simpa [eq_comm] using here
      exact ⟨a, List.mem_cons_self, w, ws, checked, same⟩
    · obtain ⟨a', inside, found⟩ := ih onward member
      exact ⟨a', List.mem_cons_of_mem a inside, found⟩

theorem mem_kept_of_mem (looped : (checkEach step keep entries).result = .ok (kept, warnings)) {a : α}
    (member : a ∈ entries) : ∃ r, (step a).result = .ok r ∧ ∀ w, r.value = some w → keep a w ∈ kept := by
  induction entries generalizing kept warnings with
  | nil => cases member
  | cons first rest ih =>
    obtain ⟨entry, later, checked, onward, rfl, -⟩ := checkEach_cons_ok_iff.1 looped
    rcases List.mem_cons.1 member with rfl | member
    · refine ⟨entry, checked, fun w accepted => ?_⟩
      simp [accepted]
    · obtain ⟨r, found, stays⟩ := ih onward member
      exact ⟨r, found, fun w accepted => List.mem_append_right _ (stays w accepted)⟩

end Loop

variable (coercion : Coercion) (required : Bool) (field : String)

/-- One turn of the loop over a list lengthens what is pruned so far by one item. -/
theorem items_pruned {element : FieldType} {items done keptDone kept : List Json}
    {before warnings : List Mismatch}
    (each : ∀ v ∈ items, ∀ place r, (check coercion element false place v).result = .ok r →
      Prunes place (v.coerce coercion) r)
    (earlier : Pruned field (.arr done) (.arr keptDone) before)
    (looped : (checkEach (checkItem coercion element field) (fun _ w => w)
      (items.zipIdx done.length)).result = .ok (kept, warnings)) :
    Pruned field (.arr (done ++ items.map (Json.coerce coercion))) (.arr (keptDone ++ kept))
      (before ++ warnings) := by
  induction items generalizing done keptDone kept before warnings with
  | nil =>
    cases looped
    simpa using earlier
  | cons v rest ih =>
    have each' := fun u member => each u (List.mem_cons_of_mem v member)
    rw [List.zipIdx_cons] at looped
    obtain ⟨⟨value, ws⟩, ⟨later, laterWarnings⟩, checked, onward, rfl, rfl⟩ := checkEach_cons_ok_iff.1 looped
    have here := each v List.mem_cons_self _ _ checked
    have counted : (done ++ [v.coerce coercion]).length = done.length + 1 := List.length_append
    rw [← counted] at onward
    cases value with
    | some w => simpa using ih each' (.keepItem earlier here) onward
    | none =>
      obtain ⟨m, rfl, place⟩ := here
      simpa using ih each' (.deleteItem earlier (v.coerce coercion) place) onward

/-- One turn of the loop over an object lengthens what is pruned so far by one member. -/
theorem members_pruned {step : String × Json → Checked Validation}
    {members done keptDone kept : List (String × Json)} {before warnings : List Mismatch}
    (each : ∀ member ∈ members, ∀ r, (step member).result = .ok r →
      Prunes (join field member.1) (member.2.coerce coercion) r)
    (earlier : Pruned field (.obj done) (.obj keptDone) before)
    (looped : (checkEach step (fun member w => (member.1, w)) members).result = .ok (kept, warnings)) :
    Pruned field (.obj (done ++ members.map fun m => (m.1, m.2.coerce coercion))) (.obj (keptDone ++ kept))
      (before ++ warnings) := by
  induction members generalizing done keptDone kept before warnings with
  | nil =>
    cases looped
    simpa using earlier
  | cons member rest ih =>
    have each' := fun u inside => each u (List.mem_cons_of_mem member inside)
    obtain ⟨⟨value, ws⟩, ⟨later, laterWarnings⟩, checked, onward, rfl, rfl⟩ := checkEach_cons_ok_iff.1 looped
    have here := each member List.mem_cons_self _ checked
    cases value with
    | some w => simpa using ih each' (.keepMember earlier here) onward
    | none =>
      obtain ⟨m, rfl, place⟩ := here
      simpa using ih each' (.deleteMember earlier member.1 (member.2.coerce coercion) place) onward

/-- A check keeps a value pruned, or drops it with one warning. -/
theorem check_prunes {t : FieldType} {v : Json} {r : Validation}
    (success : (check coercion t required field v).result = .ok r) :
    Prunes field (v.coerce coercion) r := by
  induction t, v using induct generalizing required field r with
  | mismatch t v other =>
    rw [check_of_not_admits other] at success
    unfold mismatch at success
    split at success
    · cases success
    · cases success
      exact ⟨_, rfl, rfl⟩
  | list element items ih =>
    obtain ⟨value, warnings⟩ := r
    obtain ⟨kept, looped, rfl⟩ := (check_list_ok_iff coercion required field).1 success
    rw [Json.coerce, Json.coerceItems_eq_map]
    exact items_pruned coercion field (fun v member place r => ih v member false place)
      (.whole field (.arr [])) looped
  | object model members ih =>
    obtain ⟨value, warnings⟩ := r
    obtain ⟨kept, looped, -, rfl⟩ := (check_object_ok_iff coercion required field).1 success
    rw [Json.coerce, Json.coerceMembers_eq_map]
    refine members_pruned coercion field (fun member inside r checked => ?_) (.whole field (.obj [])) looped
    unfold checkMember at checked
    split at checked
    · next f found => exact ih _ _ f inside found _ _ checked
    · cases checked
      exact ⟨_, rfl, rfl⟩
  | dict keyType valueType members ih =>
    obtain ⟨value, warnings⟩ := r
    obtain ⟨kept, looped, rfl⟩ := (check_dict_ok_iff coercion required field).1 success
    rw [Json.coerce, Json.coerceMembers_eq_map]
    refine members_pruned coercion field (fun member inside r checked => ?_) (.whole field (.obj [])) looped
    unfold checkEntry at checked
    split at checked
    · exact ih _ _ inside _ _ checked
    · cases checked
      exact ⟨_, rfl, rfl⟩
  | leaf t v leaf admitted =>
    rw [check_of_leaf leaf admitted] at success
    cases success
    exact .whole field _

/-- An accepted value is all that was given exactly if nothing is reported. -/
theorem check_silent_iff {t : FieldType} {v w : Json} {ws : List Mismatch}
    (success : (check coercion t required field v).result = .ok ⟨some w, ws⟩) :
    ws = [] ↔ w = v.coerce coercion := by
  constructor
  · rintro rfl
    exact ((check_lossless_iff coercion required field t v w).1 success).2
  · intro same
    have pruned : Pruned field (v.coerce coercion) w ws := check_prunes coercion required field success
    exact pruned.silent_of_eq same

/-! ## What is kept conforms -/

variable {coercion required field}

theorem checkMember_accepted {model : ObjectSchema} {key : String} {v w : Json} {ws : List Mismatch}
    (success : (checkMember coercion model field (key, v)).result = .ok ⟨some w, ws⟩) :
    ∃ f, model.find? key = some f ∧
      (check coercion (f.type.within model) f.required (join field key) v).result = .ok ⟨some w, ws⟩ := by
  unfold checkMember at success
  split at success
  · next f found => exact ⟨f, found, success⟩
  · cases success

theorem checkEntry_accepted {keyType : KeyType} {valueType : FieldType} {key : String} {v w : Json}
    {ws : List Mismatch}
    (success : (checkEntry coercion keyType valueType field (key, v)).result = .ok ⟨some w, ws⟩) :
    keyType.accepts key = true ∧
      (check coercion valueType false (join field key) v).result = .ok ⟨some w, ws⟩ := by
  unfold checkEntry at success
  split at success
  · next accepted => exact ⟨accepted, success⟩
  · cases success

/-- A required member is not dropped, if its declaration is the first of its name. -/
theorem required_kept {model : ObjectSchema} {members kept : List (String × Json)} {ws : List Mismatch}
    (looped : (checkEach (checkMember coercion model field) (fun member w => (member.1, w)) members).result =
      .ok (kept, ws))
    {f : FieldDecl} (found : model.find? f.name = some f) (needed : f.required = true) {v : Json}
    (inside : (f.name, v) ∈ members) : ∃ w, (f.name, w) ∈ kept := by
  obtain ⟨⟨value, warnings⟩, checked, stays⟩ := mem_kept_of_mem looped inside
  cases value with
  | some w => exact ⟨w, stays w rfl⟩
  | none =>
    simp only [checkMember, found] at checked
    obtain ⟨-, optional, -⟩ := check_dropped coercion f.required _ checked
    rw [needed] at optional
    cases optional

/-- What a check keeps conforms to the type, if numbers are kept as numbers. -/
theorem conforms_of_keepsKinds {coercion : Coercion} (kinds : coercion.KeepsKinds) {t : FieldType} {v w : Json}
    {ws : List Mismatch} (distinct : ∀ model, t.Holds model → (model.fields.map Field.name).Nodup)
    (success : (check coercion t required field v).result = .ok ⟨some w, ws⟩) : Conforms t w := by
  induction t, v using induct generalizing required field w ws with
  | mismatch t v other =>
    rw [check_of_not_admits other] at success
    unfold mismatch at success
    split at success <;> cases success
  | list element items ih =>
    obtain ⟨kept, looped, ⟨⟩⟩ := (check_list_ok_iff _ _ _).1 success
    refine .list fun w member => ?_
    obtain ⟨item, inside, w, ws, checked, rfl⟩ := exists_of_mem_kept looped member
    exact ih item.1 (List.fst_mem_of_mem_zipIdx inside) (fun model held => distinct model (.element held)) checked
  | object model members ih =>
    obtain ⟨kept, looped, complete, ⟨⟩⟩ := (check_object_ok_iff _ _ _).1 success
    have accepted : ∀ key w, (key, w) ∈ kept → ∃ v f ws, (key, v) ∈ members ∧ model.find? key = some f ∧
        (check coercion (f.type.within model) f.required (join field key) v).result = .ok ⟨some w, ws⟩ := by
      intro key w member
      obtain ⟨⟨key, v⟩, inside, w, ws, checked, ⟨⟩⟩ := exists_of_mem_kept looped member
      obtain ⟨f, found, checked⟩ := checkMember_accepted checked
      exact ⟨v, f, ws, inside, found, checked⟩
    refine .object (fun key w member => ?_) (fun key w f member found => ?_) fun f declared needed => ?_
    · obtain ⟨v, f, ws, inside, found, checked⟩ := accepted key w member
      exact ⟨f, found⟩
    · obtain ⟨v, g, ws, inside, foundFirst, checked⟩ := accepted key w member
      rw [found] at foundFirst
      cases foundFirst
      refine ih key v f inside found (fun model held => distinct model ?_) checked
      exact .of_within (Model.mem_of_find? found) held
    · obtain ⟨v, inside⟩ := (requirePresent_ok_iff field).1 complete f declared needed
      exact required_kept looped (Model.find?_of_nodup (distinct model (.here model)) declared) needed inside
  | dict keyType valueType members ih =>
    obtain ⟨kept, looped, ⟨⟩⟩ := (check_dict_ok_iff _ _ _).1 success
    have accepted : ∀ key w, (key, w) ∈ kept → keyType.accepts key = true ∧ Conforms valueType w := by
      intro key w member
      obtain ⟨⟨key, v⟩, inside, w, ws, checked, ⟨⟩⟩ := exists_of_mem_kept looped member
      obtain ⟨accepted, checked⟩ := checkEntry_accepted checked
      exact ⟨accepted, ih key v inside (fun model held => distinct model (.value held)) checked⟩
    exact .dict (fun key w member => (accepted key w member).1) fun key w member => (accepted key w member).2
  | leaf t v leaf admitted =>
    rw [check_of_leaf leaf admitted] at success
    cases success
    exact .of_leaf leaf (FieldType.admits_coerce kinds admitted)

/-- In particular where numbers are left alone or rounded. -/
theorem conforms_of_check {scale : Option Nat} {t : FieldType} {v w : Json} {ws : List Mismatch}
    (distinct : ∀ model, t.Holds model → (model.fields.map Field.name).Nodup)
    (success : (check (.ofScale scale) t required field v).result = .ok ⟨some w, ws⟩) : Conforms t w :=
  conforms_of_keepsKinds (Coercion.ofScale_keepsKinds scale) distinct success

end Validator

namespace FieldDescriptor

/-- A validation that keeps a value keeps one that conforms to the type of the descriptor: the value with its
numbers as the store keeps them, pruned, with one warning for each entry that is gone. In a value whose objects
list their members by ascending name that is also the order of the warnings, and it stays. A validation that
drops the value reports the value and nothing else. -/
theorem validate_prunes (d : FieldDescriptor) (scale : Option Nat) (v : Json)
    (distinct : ∀ model, d.type.Holds model → (model.fields.map Field.name).Nodup) :
    (∀ w ws, (d.validate (.ofScale scale) v).result = .ok ⟨some w, ws⟩ →
      Conforms d.type w ∧ Pruned d.fieldText (v.coerce (.ofScale scale)) w ws ∧
        (v.Ordered → (v.coerce (.ofScale scale)).Ordered ∧ w.Ordered)) ∧
    ∀ ws, (d.validate (.ofScale scale) v).result = .ok ⟨none, ws⟩ →
      ws = [.ofType d.fieldText d.type.name v.typeName] := by
  rw [d.validate_result]
  refine ⟨fun w ws success => ?_, fun ws dropped => ?_⟩
  · have pruned : Pruned d.fieldText (v.coerce (.ofScale scale)) w ws :=
      Validator.check_prunes _ d.required d.fieldText success
    refine ⟨Validator.conforms_of_check distinct success, pruned, fun ordered => ?_⟩
    have coerced := ordered.coerce (Coercion.exists_ofScale_eq_num scale)
    exact ⟨coerced, pruned.ordered coerced⟩
  · exact (Validator.check_dropped _ _ _ dropped).2.2

/-- A title that has to be present, and whole numbers under the keys of an integer collection. -/
def rankedSchema : ObjectSchema :=
  ⟨"Ranked", none,
    [{ Field.plain "title" FieldType.string with required := true },
      Field.plain "ranks" (.dict .int .int)]⟩

/-- A key that is no integer, a value of another type and an undeclared member go; the rest stays. -/
theorem ranked_validate_prunes :
    let d := record "ranked" rankedSchema
    let v : Json := .obj
      [("extra", .bool true),
        ("ranks", .obj [("1", .num (.int 10)), ("3", .str "x"), ("two", .num (.int 20))]),
        ("title", .str "t")]
    let w : Json := .obj [("ranks", .obj [("1", .num (.int 10))]), ("title", .str "t")]
    let ws := [Mismatch.unknown "extra", .ofType "ranks.3" "int" "string", .ofKey "ranks.two" "int" "two"]
    (∀ model, d.type.Holds model → (model.fields.map Field.name).Nodup) ∧
      (d.validate (.ofScale (some 2)) v).result = .ok ⟨some w, ws⟩ ∧
      Conforms d.type w ∧ Pruned "$root" v w ws := by
  intro d v w ws
  have distinct : ∀ model, d.type.Holds model → (model.fields.map Field.name).Nodup := by
    decide
  have kept : (d.validate (.ofScale (some 2)) v).result = .ok ⟨some w, ws⟩ := by rfl
  obtain ⟨conforms, pruned, -⟩ := (validate_prunes d (some 2) v distinct).1 w ws kept
  exact ⟨distinct, kept, conforms, pruned⟩

end FieldDescriptor

end DocSchema
