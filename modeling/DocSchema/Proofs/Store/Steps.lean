import DocSchema.Store.Memory
import DocSchema.Traced

/-!
# Writing along steps

A write or a removal along steps changes an object in one member, the one that the first step names. What is
below that member is written by the rest of the steps.
-/

namespace DocSchema

namespace PathStep

theorem literalKey_ok {s : PathStep} {key : String} (success : s.literalKey = .ok key) :
    s.key = .literal key := by
  unfold literalKey at success
  split at success
  · next name literal =>
    cases success
    exact literal
  · cases success

theorem literalKey_of_literal {s : PathStep} {key : String} (literal : s.key = .literal key) :
    s.literalKey = .ok key := by
  unfold literalKey
  rw [literal]

end PathStep

namespace Json

variable {path : Path} {value : Json} {s : PathStep} {rest : List PathStep} {members after : Members}

/-- The level that a write goes on in: the one that is there, or a new one where there is none. -/
def LevelAt (s : PathStep) (key : String) (members level : Members) : Prop :=
  Assoc.get? key members = some (.obj level) ∨
    level = s.freshMembers ∧ (Assoc.get? key members = none ∨ Assoc.get? key members = some .null)

/-- A write replaces the member that the first step names, by the value or by the level written below it. -/
theorem writeSteps_cons_ok (success : writeSteps path value (s :: rest) members = .ok after) :
    ∃ key w, s.key = .literal key ∧ after = Assoc.insert key w members ∧
      (rest = [] ∧ w = value ∨
        rest ≠ [] ∧ ∃ level below, LevelAt s key members level ∧
          writeSteps path value rest level = .ok below ∧ w = .obj below) := by
  cases rest with
  | nil =>
    unfold writeSteps at success
    obtain ⟨key, literal, success⟩ := Traced.except_bind_ok_iff.1 success
    cases success
    exact ⟨key, value, PathStep.literalKey_ok literal, rfl, .inl ⟨rfl, rfl⟩⟩
  | cons next later =>
    unfold writeSteps at success
    obtain ⟨key, literal, success⟩ := Traced.except_bind_ok_iff.1 success
    obtain ⟨level, entered, below, written, rfl⟩ : ∃ level, LevelAt s key members level ∧
        ∃ below, writeSteps path value (next :: later) level = .ok below ∧
          Assoc.insert key (.obj below) members = after := by
      dsimp only at success
      split at success
      · next absent =>
        obtain ⟨_, ⟨⟩, success⟩ := Traced.except_bind_ok_iff.1 success
        obtain ⟨below, written, ⟨⟩⟩ := Traced.except_bind_ok_iff.1 success
        exact ⟨_, .inr ⟨rfl, .inl absent⟩, below, written, rfl⟩
      · next null =>
        obtain ⟨_, ⟨⟩, success⟩ := Traced.except_bind_ok_iff.1 success
        obtain ⟨below, written, ⟨⟩⟩ := Traced.except_bind_ok_iff.1 success
        exact ⟨_, .inr ⟨rfl, .inr null⟩, below, written, rfl⟩
      · next present =>
        obtain ⟨_, ⟨⟩, success⟩ := Traced.except_bind_ok_iff.1 success
        obtain ⟨below, written, ⟨⟩⟩ := Traced.except_bind_ok_iff.1 success
        exact ⟨_, .inl present, below, written, rfl⟩
      · obtain ⟨_, ⟨⟩, _⟩ := Traced.except_bind_ok_iff.1 success
    exact ⟨key, .obj below, PathStep.literalKey_ok literal, rfl,
      .inr ⟨List.cons_ne_nil next later, level, below, entered, written, rfl⟩⟩

/-- A removal erases the member that the first step names, or replaces it by the level that is left below it;
it changes nothing if there is no such level. -/
theorem removeSteps_cons_ok (success : removeSteps (s :: rest) members = .ok after) :
    ∃ key, s.key = .literal key ∧
      (rest = [] ∧ after = Assoc.erase key members ∨
        rest ≠ [] ∧ (after = members ∨
          ∃ level below, Assoc.get? key members = some (.obj level) ∧ removeSteps rest level = .ok below ∧
            after = Assoc.insert key (.obj below) members)) := by
  cases rest with
  | nil =>
    unfold removeSteps at success
    obtain ⟨key, literal, success⟩ := Traced.except_bind_ok_iff.1 success
    cases success
    exact ⟨key, PathStep.literalKey_ok literal, .inl ⟨rfl, rfl⟩⟩
  | cons next later =>
    unfold removeSteps at success
    obtain ⟨key, literal, success⟩ := Traced.except_bind_ok_iff.1 success
    refine ⟨key, PathStep.literalKey_ok literal, .inr ⟨List.cons_ne_nil next later, ?_⟩⟩
    split at success
    · next level present =>
      obtain ⟨below, removed, success⟩ := Traced.except_bind_ok_iff.1 success
      cases success
      exact .inr ⟨level, below, present, removed, rfl⟩
    · cases success
      exact .inl rfl

/-- A read goes on below the member that the first step names, if there is one. -/
theorem readSteps_cons {key : String} (literal : s.key = .literal key) (v : Json) :
    readSteps (s :: rest) v = (v.member? key).elim (.ok none) (readSteps rest) := by
  rw [readSteps, PathStep.literalKey_of_literal literal]
  simp only [bind, Except.bind]
  cases v.member? key <;> rfl

/-- What is written at the end of the steps is read there, whatever levels the write has made on the way. -/
theorem readSteps_of_writeSteps {steps : List PathStep}
    (success : writeSteps path value steps members = .ok after) :
    readSteps steps (.obj after) = .ok (some value) := by
  induction steps generalizing members after with
  | nil => cases success
  | cons s rest ih =>
    obtain ⟨key, w, literal, rfl, written⟩ := writeSteps_cons_ok success
    have present : (obj (Assoc.insert key w members)).member? key = some w :=
      Assoc.get?_insert_self key w members
    rw [readSteps_cons literal, present, Option.elim_some]
    rcases written with ⟨rfl, rfl⟩ | ⟨-, level, below, -, written, rfl⟩
    · rfl
    · exact ih written

/-- A write leaves the members alone that its first step does not name. -/
theorem get?_writeSteps {name : String} (success : writeSteps path value (s :: rest) members = .ok after)
    (aside : s.key ≠ .literal name) : Assoc.get? name after = Assoc.get? name members := by
  obtain ⟨key, w, literal, rfl, -⟩ := writeSteps_cons_ok success
  exact Assoc.get?_insert_of_ne (fun same => aside (literal.trans (congrArg _ same))) w members

/-- A removal leaves the members alone that its first step does not name. -/
theorem get?_removeSteps {name : String} (success : removeSteps (s :: rest) members = .ok after)
    (aside : s.key ≠ .literal name) : Assoc.get? name after = Assoc.get? name members := by
  obtain ⟨key, literal, ⟨-, rfl⟩ | ⟨-, rfl | ⟨_, _, -, -, rfl⟩⟩⟩ := removeSteps_cons_ok success
  · exact Assoc.get?_erase_of_ne (fun same => aside (literal.trans (congrArg _ same))) members
  · rfl
  · exact Assoc.get?_insert_of_ne (fun same => aside (literal.trans (congrArg _ same))) _ members

end Json

namespace MemoryStore

variable {before after : Json.Members}

/-- What each write of a batch keeps, the batch keeps. -/
theorem writeAll_induction {P : Json.Members → Prop} {updates : List (Path × Json)}
    (step : ∀ u ∈ updates, ∀ before after, P before →
      Json.writeSteps u.1 u.2 u.1.steps before = .ok after → P after)
    (start : P before) (success : writeAll updates before = .ok after) : P after := by
  induction updates generalizing before with
  | nil =>
    cases success
    exact start
  | cons u rest ih =>
    obtain ⟨path, value⟩ := u
    unfold writeAll at success
    obtain ⟨next, written, success⟩ := Traced.except_bind_ok_iff.1 success
    have first := step _ List.mem_cons_self before next start written
    exact ih (fun v member => step v (List.mem_cons_of_mem _ member)) first success

theorem writeAll_append (first second : List (Path × Json)) (record : Json.Members) :
    writeAll (first ++ second) record = writeAll first record >>= writeAll second := by
  induction first generalizing record with
  | nil => rfl
  | cons u rest ih =>
    rw [List.cons_append, writeAll, writeAll, bind_assoc]
    exact congrArg _ (funext ih)

/-- What each removal of a batch keeps, the batch keeps. -/
theorem removeAll_induction {P : Json.Members → Prop} {paths : List Path}
    (step : ∀ p ∈ paths, ∀ before after, P before → Json.removeSteps p.steps before = .ok after → P after)
    (start : P before) (success : removeAll paths before = .ok after) : P after := by
  induction paths generalizing before with
  | nil =>
    cases success
    exact start
  | cons p rest ih =>
    unfold removeAll at success
    obtain ⟨next, removed, success⟩ := Traced.except_bind_ok_iff.1 success
    have first := step p List.mem_cons_self before next start removed
    exact ih (fun q member => step q (List.mem_cons_of_mem p member)) first success

end MemoryStore

end DocSchema
