import DocSchema.Assoc
import Mathlib.Data.List.Nodup

/-!
# Association lists without repeated names

In a list of different names every entry is found, so the list is known by its look-ups up to the order of its
entries. Sorting it changes nothing for a look-up, and sorted lists with the same look-ups are equal.
-/

namespace DocSchema

namespace Assoc

variable {α β : Type}

@[simp] theorem get?_append (name : String) (entries others : Assoc α) :
    get? name (entries ++ others) = (get? name entries).or (get? name others) := by
  induction entries with
  | nil => rfl
  | cons e rest ih =>
    by_cases same : e.1 = name
    · simp [get?, same]
    · simpa [get?, same] using ih

theorem get?_map (f : α → β) (name : String) (entries : Assoc α) :
    get? name (entries.map fun e => (e.1, f e.2)) = (get? name entries).map f := by
  induction entries with
  | nil => rfl
  | cons e rest ih =>
    by_cases same : e.1 = name
    · simp [get?, same]
    · simpa [get?, same] using ih

/-- The member of a part that may be left out. -/
def optional (name : String) (part : Option α) : Assoc α :=
  (part.map fun a => (name, a)).toList

@[simp] theorem get?_optional (name other : String) (part : Option α) :
    get? other (optional name part) = if name = other then part else none := by
  cases part <;> simp [optional, get?]

theorem names_optional (name : String) (part : Option α) : (names (optional name part)).Sublist [name] := by
  cases part with
  | none => exact List.nil_sublist _
  | some a => exact List.Sublist.refl _

theorem forall_mem_optional {P : String × α → Prop} {name : String} {part : Option α} :
    (∀ m ∈ optional name part, P m) ↔ ∀ a, part = some a → P (name, a) := by
  cases part <;> simp [optional]

@[simp] theorem names_append (entries others : Assoc α) :
    names (entries ++ others) = names entries ++ names others :=
  List.map_append

theorem get?_filter {name : String} {keep : String × α → Bool} (kept : ∀ a, keep (name, a) = true)
    (entries : Assoc α) : get? name (entries.filter keep) = get? name entries := by
  induction entries with
  | nil => rfl
  | cons e rest ih =>
    obtain ⟨n, a⟩ := e
    by_cases same : n = name
    · subst same
      rw [List.filter_cons_of_pos (kept a)]
      simp [get?]
    · cases here : keep (n, a) with
      | true =>
        rw [List.filter_cons_of_pos here]
        simpa [get?, same] using ih
      | false =>
        rw [List.filter_cons_of_neg (by simp [here])]
        simpa [get?, same] using ih

theorem get?_eq_none_iff {name : String} {entries : Assoc α} :
    get? name entries = none ↔ name ∉ names entries := by
  induction entries with
  | nil => simp [get?, names]
  | cons e rest ih =>
    by_cases same : e.1 = name
    · simp [get?, names, same]
    · have other : name ≠ e.1 := fun eq => same eq.symm
      simpa [get?, names, same, other] using ih

theorem Sorted.names_nodup {entries : Assoc α} (sorted : Sorted entries) : (names entries).Nodup := by
  have ascending : entries.Pairwise fun a b => a.1 < b.1 := sorted
  rw [names, List.Nodup, List.pairwise_map]
  refine ascending.imp fun {a b} below same => ?_
  rw [same] at below
  exact String.lt_irrefl b.1 below

/-- In a list of different names, order does not matter to look-ups. -/
theorem get?_ofList {entries : Assoc α} (distinct : (names entries).Nodup) (name : String) :
    get? name (ofList entries) = get? name entries := by
  have step : ∀ es acc : Assoc α, (names es).Nodup →
      get? name (es.foldl (fun acc e => insert e.1 e.2 acc) acc) = (get? name es).or (get? name acc) := by
    intro es
    induction es with
    | nil => exact fun _ _ => rfl
    | cons e rest ih =>
      intro acc distinct
      obtain ⟨fresh, distinct⟩ := List.nodup_cons.1 distinct
      rw [List.foldl_cons, ih _ distinct]
      by_cases same : e.1 = name
      · subst same
        rw [get?_eq_none_iff.2 fresh, get?_insert_self]
        simp [get?]
      · rw [get?_insert_of_ne same]
        simp [get?, same]
  rw [ofList, step entries [] distinct]
  exact Option.or_none

/-- Sorted lists whose names are the same have them in the same order. -/
theorem Sorted.names_eq {entries : Assoc α} {others : Assoc β} (sorted : Sorted entries) (sortedOthers : Sorted others)
    (same : ∀ name, name ∈ names entries ↔ name ∈ names others) : names entries = names others := by
  have perm := (List.perm_ext_iff_of_nodup sorted.names_nodup sortedOthers.names_nodup).2 same
  have ascending := List.pairwise_map.2 sorted
  have ascendingOthers := List.pairwise_map.2 sortedOthers
  exact perm.eq_of_pairwise (fun a b _ _ below above =>
    absurd (String.lt_trans below above) (String.lt_irrefl _)) ascending ascendingOthers

/-- Sorted lists with the same look-ups are equal. -/
theorem Sorted.ext {entries others : Assoc α} (sorted : Sorted entries) (sortedOthers : Sorted others)
    (same : ∀ name, get? name entries = get? name others) : entries = others := by
  have nodup {es : Assoc α} (sorted : Sorted es) : es.Nodup :=
    .of_map Prod.fst sorted.names_nodup
  have perm : entries.Perm others := by
    refine (List.perm_ext_iff_of_nodup (nodup sorted) (nodup sortedOthers)).2 fun e => ?_
    rw [sorted.mem_iff_get?, sortedOthers.mem_iff_get?, same]
  exact perm.eq_of_pairwise (fun a b _ _ below above =>
    absurd (String.lt_trans below above) (String.lt_irrefl _)) sorted sortedOthers

theorem ofList_of_sorted {entries : Assoc α} (sorted : Sorted entries) : ofList entries = entries :=
  (Sorted.ofList entries).ext sorted (get?_ofList sorted.names_nodup)

theorem mem_of_mem_ofList {entries : Assoc α} {e : String × α} (member : e ∈ ofList entries) : e ∈ entries := by
  have step : ∀ es acc : Assoc α, e ∈ es.foldl (fun acc e => insert e.1 e.2 acc) acc → e ∈ es ∨ e ∈ acc := by
    intro es
    induction es with
    | nil => exact fun _ held => .inr held
    | cons first rest ih =>
      intro acc held
      rcases ih _ held with later | inserted
      · exact .inl (List.mem_cons_of_mem _ later)
      · rcases mem_insert inserted with rfl | before
        · exact .inl List.mem_cons_self
        · exact .inr before
  simpa using step entries [] member

end Assoc

/-- The same names with other values. -/
def SortedMap.map {α β : Type} (f : α → β) (m : SortedMap α) : SortedMap β :=
  ⟨m.entries.map fun e => (e.1, f e.2), m.sorted.of_names_sublist (by simp [Assoc.names, Function.comp_def])⟩

theorem SortedMap.ofList_entries {α : Type} (m : SortedMap α) : ofList m.entries = m := by
  obtain ⟨entries, sorted⟩ := m
  simp only [ofList, Assoc.ofList_of_sorted sorted]

end DocSchema
