/-!
# Traced computations

A traced computation leaves notes behind while it runs and ends with a value or with an error.
The notes made before an error stay: what was observed up to a failure is part of the outcome.
-/

namespace DocSchema

/-- The notes of a run, oldest first, and how the run ended. -/
structure Traced (ω ε α : Type) where
  notes : List ω
  result : Except ε α

namespace Traced

variable {ω ε α β : Type}

/-- Leave one note. -/
def note (w : ω) : Traced ω ε Unit :=
  ⟨[w], .ok ()⟩

def fail (e : ε) : Traced ω ε α :=
  ⟨[], .error e⟩

/-- Take over a result that was computed without notes. -/
def ofExcept (r : Except ε α) : Traced ω ε α :=
  ⟨[], r⟩

protected def pure (a : α) : Traced ω ε α :=
  ⟨[], .ok a⟩

protected def bind (x : Traced ω ε α) (f : α → Traced ω ε β) : Traced ω ε β :=
  match x.result with
  | .ok a => ⟨x.notes ++ (f a).notes, (f a).result⟩
  | .error e => ⟨x.notes, .error e⟩

instance : Monad (Traced ω ε) where
  pure := Traced.pure
  bind := Traced.bind

/-- The run ends with an error. -/
def Fails (x : Traced ω ε α) : Prop :=
  ∃ e, x.result = .error e

/-- Replace the error of a run, keeping its notes. -/
def mapError {ε' : Type} (f : ε → ε') (x : Traced ω ε α) : Traced ω ε' α :=
  ⟨x.notes, x.result.mapError f⟩

@[simp] theorem pure_eq (a : α) : (pure a : Traced ω ε α) = ⟨[], .ok a⟩ := rfl

@[simp] theorem ok_bind (notes : List ω) (a : α) (f : α → Traced ω ε β) :
    ((⟨notes, .ok a⟩ : Traced ω ε α) >>= f) = ⟨notes ++ (f a).notes, (f a).result⟩ := rfl

@[simp] theorem error_bind (notes : List ω) (e : ε) (f : α → Traced ω ε β) :
    ((⟨notes, .error e⟩ : Traced ω ε α) >>= f) = ⟨notes, .error e⟩ := rfl

@[simp] theorem note_bind (w : ω) (f : Unit → Traced ω ε β) :
    (note w >>= f) = ⟨w :: (f ()).notes, (f ()).result⟩ := rfl

@[simp] theorem fail_bind (e : ε) (f : α → Traced ω ε β) :
    ((fail e : Traced ω ε α) >>= f) = fail e := rfl

/-- How a run ends depends on how its parts end and not on what they note. -/
theorem result_bind (x : Traced ω ε α) (f : α → Traced ω ε β) :
    (x >>= f).result = x.result >>= fun a => (f a).result := by
  obtain ⟨notes, _ | a⟩ := x <;> rfl

/-- A run ends with a value if all of its parts do. -/
theorem bind_ok_iff {x : Traced ω ε α} {f : α → Traced ω ε β} {b : β} :
    (x >>= f).result = .ok b ↔ ∃ a, x.result = .ok a ∧ (f a).result = .ok b := by
  obtain ⟨notes, _ | a⟩ := x <;> simp

theorem bind_error_iff {x : Traced ω ε α} {f : α → Traced ω ε β} {e : ε} :
    (x >>= f).result = .error e ↔ x.result = .error e ∨ ∃ a, x.result = .ok a ∧ (f a).result = .error e := by
  obtain ⟨notes, _ | a⟩ := x <;> simp

/-- A run fails if one of its parts does. -/
theorem bind_fails_iff {x : Traced ω ε α} {f : α → Traced ω ε β} :
    (x >>= f).Fails ↔ x.Fails ∨ ∃ a, x.result = .ok a ∧ (f a).Fails := by
  obtain ⟨notes, _ | a⟩ := x <;> simp [Fails]

theorem not_fails_iff {x : Traced ω ε α} : ¬ x.Fails ↔ ∃ a, x.result = .ok a := by
  obtain ⟨notes, _ | a⟩ := x <;> simp [Fails]

/-- Where the rest fails alike after every value, no value of the first part has to be known. -/
theorem bind_fails_iff_or {x : Traced ω ε α} {f : α → Traced ω ε β} {p : Prop}
    (alike : ∀ a, (f a).Fails ↔ p) : (x >>= f).Fails ↔ x.Fails ∨ p := by
  rw [bind_fails_iff]
  by_cases fails : x.Fails
  · simp only [fails, true_or]
  · obtain ⟨a, ended⟩ := not_fails_iff.1 fails
    simp [alike, ended]

theorem bind_fails_iff_left {x : Traced ω ε α} {f : α → Traced ω ε β} (ends : ∀ a, ¬ (f a).Fails) :
    (x >>= f).Fails ↔ x.Fails := by
  rw [bind_fails_iff_or fun a => iff_false_intro (ends a), or_false]

@[simp] theorem not_fails_ok (notes : List ω) (a : α) :
    ¬ (⟨notes, .ok a⟩ : Traced ω ε α).Fails := by
  simp [Fails]

/-- The same for computations without notes. -/
theorem except_bind_ok_iff {x : Except ε α} {f : α → Except ε β} {b : β} :
    (x >>= f) = .ok b ↔ ∃ a, x = .ok a ∧ f a = .ok b := by
  cases x <;> simp [bind, Except.bind]

/-- A run notes what its first part notes and, if that part ends with a value, what the rest notes. -/
theorem mem_notes_bind_iff {x : Traced ω ε α} {f : α → Traced ω ε β} {w : ω} :
    w ∈ (x >>= f).notes ↔ w ∈ x.notes ∨ ∃ a, x.result = .ok a ∧ w ∈ (f a).notes := by
  obtain ⟨notes, _ | a⟩ := x <;> simp

instance : LawfulMonad (Traced ω ε) := by
  refine LawfulMonad.mk' _ ?_ ?_ ?_
  · rintro α ⟨notes, _ | a⟩
    · rfl
    · exact congrArg (Traced.mk · _) (List.append_nil notes)
  · intros
    rfl
  · rintro α β γ ⟨notes, _ | a⟩ f g
    · rfl
    · change Traced.bind (Traced.bind _ f) g = Traced.bind _ fun x => Traced.bind (f x) g
      cases h : (f a).result <;> simp [Traced.bind, h]

end Traced

end DocSchema
