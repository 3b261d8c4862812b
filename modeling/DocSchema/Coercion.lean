import DocSchema.FixedPoint
import DocSchema.Json.Basic

/-!
# Numeric coercion

A store decides how numbers are kept. A coercion replaces each number of a value on its way to or from the
store; everything else in the value stays as it is.

Sections 4.4 and 11 of the specification, the coercion hook: `NumericCoercion` with `PassThrough` and `FixedPoint`,
and `coerce_value`.
-/

namespace DocSchema

/-- What a store makes of a number. -/
abbrev Coercion := Number → Json

namespace Coercion

def passThrough : Coercion :=
  .num

/-- Floats are rounded to `scale` decimal places, and become integers at scale zero if they fit 64 bits.
Integers, and floats without a fixed-point form, stay as they are. -/
def fixedPoint (scale : Nat) : Coercion
  | .int i => .num (.int i)
  | .float x =>
    match FixedPoint.ofBinary64? x with
    | none => .num (.float x)
    | some d =>
      let rounded := (d.round scale).normalize
      let whole := if scale = 0 then rounded.toInt64? else none
      match whole with
      | some i => .num (.int i)
      | none => .num (.float (rounded.toBinary64?.getD x))

/-- Fixed-point rounding at a given scale, or no change. -/
def ofScale : Option Nat → Coercion
  | some scale => fixedPoint scale
  | none => passThrough

theorem ofScale_int (scale : Option Nat) (i : Int) : ofScale scale (.int i) = .num (.int i) := by
  cases scale <;> rfl

/-- Rounding makes a number of a number. -/
theorem exists_ofScale_eq_num (scale : Option Nat) (n : Number) : ∃ m, ofScale scale n = .num m := by
  cases scale with
  | none => exact ⟨n, rfl⟩
  | some scale =>
    cases n with
    | int i => exact ⟨.int i, rfl⟩
    | float x =>
      simp only [ofScale, fixedPoint]
      split
      · exact ⟨.float x, rfl⟩
      · split <;> exact ⟨_, rfl⟩

/-- Numbers stay numbers and integers stay integers. -/
structure KeepsKinds (f : Coercion) : Prop where
  int : ∀ i, ∃ j, f (.int i) = .num (.int j)
  number : ∀ n, ∃ m, f n = .num m

theorem ofScale_keepsKinds (scale : Option Nat) : (ofScale scale).KeepsKinds :=
  ⟨fun i => ⟨i, ofScale_int scale i⟩, exists_ofScale_eq_num scale⟩

end Coercion

namespace Json

mutual

/-- Replace every number of a value. -/
def coerce (f : Coercion) : Json → Json
  | .num n => f n
  | .arr items => .arr (coerceItems f items)
  | .obj members => .obj (coerceMembers f members)
  | v => v

def coerceItems (f : Coercion) : List Json → List Json
  | [] => []
  | v :: rest => coerce f v :: coerceItems f rest

def coerceMembers (f : Coercion) : List (String × Json) → List (String × Json)
  | [] => []
  | (name, v) :: rest => (name, coerce f v) :: coerceMembers f rest

end

theorem coerceItems_eq_map (f : Coercion) (items : List Json) :
    coerceItems f items = items.map (coerce f) := by
  induction items with
  | nil => rfl
  | cons v rest ih => rw [coerceItems, ih, List.map_cons]

theorem coerceMembers_eq_map (f : Coercion) (members : List (String × Json)) :
    coerceMembers f members = members.map fun m => (m.1, coerce f m.2) := by
  induction members with
  | nil => rfl
  | cons m rest ih => rw [coerceMembers, ih, List.map_cons]

@[simp] theorem coerce_passThrough (v : Json) : coerce .passThrough v = v := by
  induction v using Json.induct with
  | arr items ih =>
    rw [coerce, coerceItems_eq_map]
    exact congrArg Json.arr ((List.map_congr_left ih).trans (List.map_id _))
  | obj members ih =>
    rw [coerce, coerceMembers_eq_map]
    have same : ∀ m ∈ members, (m.1, coerce .passThrough m.2) = m := by
      intro m member
      rw [ih m.1 m.2 member]
    exact congrArg Json.obj ((List.map_congr_left same).trans (List.map_id _))
  | _ => rfl

/-- Coercion keeps the order of members, if it makes a number of each number. -/
theorem Ordered.coerce {f : Coercion} (numeric : ∀ n, ∃ m, f n = .num m) {v : Json} (ordered : v.Ordered) :
    (v.coerce f).Ordered := by
  induction ordered with
  | null => exact .null
  | bool b => exact .bool b
  | str s => exact .str s
  | num n =>
    obtain ⟨m, same⟩ := numeric n
    rw [Json.coerce, same]
    exact .num m
  | arr _ ih =>
    rw [Json.coerce, coerceItems_eq_map]
    exact .arr (List.forall_mem_map.2 ih)
  | obj ascending _ ih =>
    rw [Json.coerce, coerceMembers_eq_map]
    refine .obj (List.pairwise_map.2 ascending) fun name w member => ?_
    obtain ⟨m, inside, ⟨⟩⟩ := List.mem_map.1 member
    exact ih m.1 m.2 inside

end Json

end DocSchema
