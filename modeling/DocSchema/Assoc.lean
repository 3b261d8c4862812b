/-!
# Association lists and sorted maps

`Assoc α` is a list of named entries. Insertion keeps a sorted list sorted and replaces an entry of the
same name; its look-up laws hold for every list, sorted or not. `SortedMap α` carries the proof that its
names ascend strictly, so two maps with the same look-ups are equal.
-/

namespace DocSchema

/-- Named entries in the order in which they are visited. -/
abbrev Assoc (α : Type) := List (String × α)

namespace Assoc

variable {α β : Type}

/-- The value of the first entry of this name. -/
def get? (name : String) : Assoc α → Option α
  | [] => none
  | (n, a) :: rest => if n = name then some a else get? name rest

def contains (name : String) (entries : Assoc α) : Bool :=
  (get? name entries).isSome

/-- Replace the entry of this name, or add it in front of the first greater name. -/
def insert (name : String) (a : α) : Assoc α → Assoc α
  | [] => [(name, a)]
  | (n, b) :: rest =>
    if n = name then (name, a) :: rest
    else if name < n then (name, a) :: (n, b) :: rest
    else (n, b) :: insert name a rest

def erase (name : String) (entries : Assoc α) : Assoc α :=
  entries.filter fun e => e.1 ≠ name

def names (entries : Assoc α) : List String :=
  entries.map Prod.fst

/-- Names ascend strictly; in particular none is repeated. -/
def Sorted (entries : Assoc α) : Prop :=
  entries.Pairwise fun a b => a.1 < b.1

/-- Entries inserted one after the other: sorted, and the last of equal names wins. -/
def ofList (entries : Assoc α) : Assoc α :=
  entries.foldl (fun acc e => insert e.1 e.2 acc) []

@[simp] theorem get?_insert_self (name : String) (a : α) (entries : Assoc α) :
    get? name (insert name a entries) = some a := by
  induction entries with
  | nil => simp [insert, get?]
  | cons e rest ih =>
    obtain ⟨n, b⟩ := e
    rw [insert]
    split
    · simp [get?]
    · split
      · simp [get?]
      · simp [get?, *]

theorem get?_insert_of_ne {name other : String} (h : name ≠ other) (a : α) (entries : Assoc α) :
    get? other (insert name a entries) = get? other entries := by
  induction entries with
  | nil => simp [insert, get?, h]
  | cons e rest ih =>
    obtain ⟨n, b⟩ := e
    rw [insert]
    split
    · subst_vars
      simp [get?, h]
    · split
      · simp [get?, h]
      · by_cases hn : n = other <;> simp [get?, hn, ih]

/-- Of two insertions under one name the last counts. -/
theorem insert_insert (name : String) (a b : α) (entries : Assoc α) :
    insert name b (insert name a entries) = insert name b entries := by
  induction entries with
  | nil => simp [insert]
  | cons e rest ih =>
    obtain ⟨n, c⟩ := e
    by_cases same : n = name
    · simp [insert, same]
    · by_cases before : name < n
      · simp [insert, same, before]
      · simp [insert, same, before, ih]

@[simp] theorem get?_erase_self (name : String) (entries : Assoc α) :
    get? name (erase name entries) = none := by
  induction entries with
  | nil => rfl
  | cons e rest ih =>
    by_cases h : e.1 = name
    · simpa [erase, h] using ih
    · simpa [erase, h, get?] using ih

theorem get?_erase_of_ne {name other : String} (h : name ≠ other) (entries : Assoc α) :
    get? other (erase name entries) = get? other entries := by
  induction entries with
  | nil => rfl
  | cons e rest ih =>
    by_cases he : e.1 = name
    · have : e.1 ≠ other := fun ho => h (he.symm.trans ho)
      simpa [erase, he, get?, h] using ih
    · have keep : erase name (e :: rest) = e :: erase name rest := by simp [erase, he]
      rw [keep, get?, get?, ih]

theorem mem_insert {name : String} {a : α} {e : String × α} {entries : Assoc α}
    (h : e ∈ insert name a entries) : e = (name, a) ∨ e ∈ entries := by
  induction entries with
  | nil => simpa [insert] using h
  | cons first rest ih =>
    obtain ⟨n, b⟩ := first
    rw [insert] at h
    split at h
    · rcases List.mem_cons.1 h with h | h
      · exact .inl h
      · exact .inr (List.mem_cons_of_mem _ h)
    · split at h
      · exact List.mem_cons.1 h
      · rcases List.mem_cons.1 h with h | h
        · exact .inr (h ▸ List.mem_cons_self)
        · exact (ih h).imp_right (List.mem_cons_of_mem _)

theorem mem_of_get? {name : String} {a : α} {entries : Assoc α} (h : get? name entries = some a) :
    (name, a) ∈ entries := by
  induction entries with
  | nil => cases h
  | cons first rest ih =>
    obtain ⟨n, b⟩ := first
    rw [get?] at h
    split at h
    · next same =>
      cases h
      exact same ▸ List.mem_cons_self
    · exact List.mem_cons_of_mem _ (ih h)

theorem contains_iff {name : String} {entries : Assoc α} :
    contains name entries = true ↔ ∃ a, (name, a) ∈ entries := by
  induction entries with
  | nil => simp [contains, get?]
  | cons first rest ih =>
    obtain ⟨n, b⟩ := first
    by_cases same : n = name
    · subst same
      simp [contains, get?]
    · have other : name ≠ n := fun eq => same eq.symm
      simpa [contains, get?, same, other] using ih

theorem Sorted.nil : Sorted ([] : Assoc α) := List.Pairwise.nil

theorem Sorted.insert {entries : Assoc α} (h : Sorted entries) (name : String) (a : α) :
    Sorted (insert name a entries) := by
  induction entries with
  | nil => exact List.pairwise_singleton _ _
  | cons first rest ih =>
    obtain ⟨n, b⟩ := first
    have hrest : ∀ e ∈ rest, n < e.1 := fun e he => List.rel_of_pairwise_cons h he
    rw [Assoc.insert]
    split
    · subst_vars
      exact List.pairwise_cons.2 ⟨hrest, h.of_cons⟩
    · split
      · rename_i hlt
        refine List.pairwise_cons.2 ⟨fun e he => ?_, h⟩
        rcases List.mem_cons.1 he with he | he
        · exact he ▸ hlt
        · exact String.lt_trans hlt (hrest e he)
      · rename_i hne hlt
        have hn : n < name := by
          rcases String.le_total name n with hle | hle
          · exact absurd (String.le_antisymm (String.not_lt.1 hlt) hle) hne
          · exact String.not_le.1 fun hle' => hne (String.le_antisymm hle hle')
        refine List.pairwise_cons.2 ⟨fun e he => ?_, ih h.of_cons⟩
        rcases mem_insert he with he | he
        · exact he ▸ hn
        · exact hrest e he

/-- The entries of a sorted list are its look-ups. -/
theorem Sorted.mem_iff_get? {entries : Assoc α} (h : Sorted entries) {name : String} {a : α} :
    (name, a) ∈ entries ↔ get? name entries = some a := by
  refine ⟨fun member => ?_, mem_of_get?⟩
  induction entries with
  | nil => cases member
  | cons first rest ih =>
    obtain ⟨n, b⟩ := first
    rcases List.mem_cons.1 member with same | member
    · cases same
      simp [get?]
    · have above : n < name := List.rel_of_pairwise_cons h member
      have other : n ≠ name := fun same => String.lt_irrefl name (same ▸ above)
      simpa [get?, other] using ih h.of_cons member

theorem Sorted.erase {entries : Assoc α} (h : Sorted entries) (name : String) :
    Sorted (erase name entries) :=
  h.sublist List.filter_sublist

/-- Whether a list is sorted shows in its names. -/
theorem Sorted.of_names_sublist {entries : Assoc α} {others : Assoc β} (h : Sorted entries)
    (fewer : (names others).Sublist (names entries)) : Sorted others :=
  List.pairwise_map.1 ((List.pairwise_map.2 h).sublist fewer)

theorem Sorted.ofList (entries : Assoc α) : Sorted (ofList entries) := by
  have step : ∀ (es acc : Assoc α), Sorted acc →
      Sorted (es.foldl (fun acc e => Assoc.insert e.1 e.2 acc) acc) := by
    intro es
    induction es with
    | nil => exact fun _ h => h
    | cons e es ih => exact fun acc h => ih _ (h.insert e.1 e.2)
  exact step entries [] Sorted.nil

end Assoc

/-- A finite map from names, kept in ascending order of the names. -/
structure SortedMap (α : Type) where
  entries : Assoc α
  sorted : Assoc.Sorted entries

namespace SortedMap

variable {α : Type}

def empty : SortedMap α :=
  ⟨[], .nil⟩

instance : EmptyCollection (SortedMap α) := ⟨empty⟩

instance : Inhabited (SortedMap α) := ⟨empty⟩

def get? (m : SortedMap α) (name : String) : Option α :=
  Assoc.get? name m.entries

def contains (m : SortedMap α) (name : String) : Bool :=
  (m.get? name).isSome

def insert (m : SortedMap α) (name : String) (a : α) : SortedMap α :=
  ⟨Assoc.insert name a m.entries, m.sorted.insert name a⟩

def erase (m : SortedMap α) (name : String) : SortedMap α :=
  ⟨Assoc.erase name m.entries, m.sorted.erase name⟩

/-- The last of equal names wins. -/
def ofList (entries : Assoc α) : SortedMap α :=
  ⟨Assoc.ofList entries, .ofList entries⟩

def toList (m : SortedMap α) : Assoc α :=
  m.entries

def names (m : SortedMap α) : List String :=
  m.entries.names

def values (m : SortedMap α) : List α :=
  m.entries.map Prod.snd

def size (m : SortedMap α) : Nat :=
  m.entries.length

def isEmpty (m : SortedMap α) : Bool :=
  m.entries.isEmpty

theorem mem_entries_iff {m : SortedMap α} {name : String} {a : α} :
    (name, a) ∈ m.entries ↔ m.get? name = some a :=
  m.sorted.mem_iff_get?

@[simp] theorem get?_empty (name : String) : (∅ : SortedMap α).get? name = none := rfl

@[simp] theorem get?_insert_self (m : SortedMap α) (name : String) (a : α) :
    (m.insert name a).get? name = some a :=
  Assoc.get?_insert_self name a m.entries

theorem get?_insert_of_ne (m : SortedMap α) {name other : String} (h : name ≠ other) (a : α) :
    (m.insert name a).get? other = m.get? other :=
  Assoc.get?_insert_of_ne h a m.entries

theorem insert_insert (m : SortedMap α) (name : String) (a b : α) :
    (m.insert name a).insert name b = m.insert name b := by
  simp only [insert, Assoc.insert_insert]

@[simp] theorem get?_erase_self (m : SortedMap α) (name : String) :
    (m.erase name).get? name = none :=
  Assoc.get?_erase_self name m.entries

theorem get?_erase_of_ne (m : SortedMap α) {name other : String} (h : name ≠ other) :
    (m.erase name).get? other = m.get? other :=
  Assoc.get?_erase_of_ne h m.entries

end SortedMap

end DocSchema
