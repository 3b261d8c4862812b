/-!
# Actions

An action runs in a state, which it keeps when it fails. What an action does to the state is said of a part of
it, which a `view` shows: it may leave that part alone in every case, or at least where it fails.
-/

namespace DocSchema

abbrev Action (ε σ α : Type) := ExceptT ε (StateM σ) α

namespace Action

variable {ε σ τ α β : Type}

/-- How an action ends in a state. -/
def result (x : Action ε σ α) (s : σ) : Except ε α :=
  Prod.fst (x s)

/-- The state after an action, whether it failed or not. -/
def after (x : Action ε σ α) (s : σ) : σ :=
  Prod.snd (x s)

section Bind

variable {x : Action ε σ α} {f : α → Action ε σ β} {s : σ}

/-- An action stops where its first part fails. -/
theorem bind_of_error {e : ε} (failed : result x s = .error e) :
    result (x >>= f) s = .error e ∧ after (x >>= f) s = after x s := by
  have run : x s = (.error e, after x s) := Prod.ext failed rfl
  have whole : (x >>= f) s = (.error e, after x s) := by
    simp only [bind, ExceptT.bind, ExceptT.mk, StateT.bind, ExceptT.bindCont, run]
    rfl
  exact ⟨congrArg Prod.fst whole, congrArg Prod.snd whole⟩

/-- An action goes on with the value of its first part, in the state after that part. -/
theorem bind_of_ok {a : α} (ended : result x s = .ok a) :
    result (x >>= f) s = result (f a) (after x s) ∧ after (x >>= f) s = after (f a) (after x s) := by
  have run : x s = (.ok a, after x s) := Prod.ext ended rfl
  have whole : (x >>= f) s = f a (after x s) := by
    simp only [bind, ExceptT.bind, ExceptT.mk, StateT.bind, ExceptT.bindCont, run]
  exact ⟨congrArg Prod.fst whole, congrArg Prod.snd whole⟩

end Bind

/-- Working on its value does not change the state after an action. -/
theorem after_bind_pure (x : Action ε σ α) (g : α → β) (s : σ) :
    after (x >>= fun a => Pure.pure (g a)) s = after x s := by
  cases ended : result x s with
  | error e => rw [(bind_of_error ended).2]
  | ok a =>
    rw [(bind_of_ok ended).2]
    rfl

/-- An action ends well if its parts do, one after the other. -/
theorem bind_ok_iff {x : Action ε σ α} {f : α → Action ε σ β} {s : σ} {b : β} :
    result (x >>= f) s = .ok b ↔ ∃ a, result x s = .ok a ∧ result (f a) (after x s) = .ok b := by
  cases ended : result x s with
  | error e =>
    rw [(bind_of_error ended).1]
    simp
  | ok a =>
    rw [(bind_of_ok ended).1]
    simp

/-- The shown part of the state is left as it is, whether the action fails or not. -/
def Reads (view : σ → τ) (x : Action ε σ α) : Prop :=
  ∀ s, view (after x s) = view s

/-- If the action fails, the shown part of the state is left as it was. -/
def Atomic (view : σ → τ) (x : Action ε σ α) : Prop :=
  ∀ s e, result x s = .error e → view (after x s) = view s

variable {view : σ → τ} {x : Action ε σ α} {f : α → Action ε σ β}

theorem Reads.pure (a : α) : Reads view (pure a : Action ε σ α) :=
  fun _ => rfl

theorem Reads.bind (first : Reads view x) (next : ∀ a, Reads view (f a)) : Reads view (x >>= f) := by
  intro s
  cases ended : result x s with
  | error e => rw [(bind_of_error ended).2, first]
  | ok a => rw [(bind_of_ok ended).2, next a, first]

theorem Reads.atomic (reads : Reads view x) : Atomic view x :=
  fun s _ _ => reads s

/-- What fails after nothing but reading has changed nothing. -/
theorem Atomic.bind (first : Reads view x) (next : ∀ a, Atomic view (f a)) : Atomic view (x >>= f) := by
  intro s e failed
  cases ended : result x s with
  | error e => rw [(bind_of_error ended).2, first]
  | ok a =>
    rw [(bind_of_ok ended).1] at failed
    rw [(bind_of_ok ended).2, next a _ e failed, first]

/-- An action stays atomic if only its value is worked on. -/
theorem Atomic.bind_pure (first : Atomic view x) (g : α → β) :
    Atomic view (x >>= fun a => Pure.pure (g a)) := by
  intro s e failed
  cases ended : result x s with
  | error e => rw [(bind_of_error ended).2, first _ e ended]
  | ok a =>
    rw [(bind_of_ok ended).1] at failed
    cases failed

/-- From a state that shows `v`, the action leads to one that shows a part with the property `R`. -/
def Leads (view : σ → τ) (v : τ) (R : τ → Prop) (x : Action ε σ α) : Prop :=
  ∀ s, view s = v → R (view (after x s))

variable {v : τ} {R : τ → Prop}

theorem Reads.leads (reads : Reads view x) (stay : R v) : Leads view v R x := by
  intro s shown
  rw [reads, shown]
  exact stay

/-- An action that reads and goes on can do only what follows the reading. -/
theorem Leads.bind (first : Reads view x) (stay : R v)
    (next : ∀ a s, view s = v → result x s = .ok a → Leads view v R (f a)) : Leads view v R (x >>= f) := by
  intro s shown
  cases ended : result x s with
  | error e =>
    rw [(bind_of_error ended).2]
    exact first.leads stay s shown
  | ok a =>
    rw [(bind_of_ok ended).2]
    exact next a s shown ended _ ((first s).trans shown)

/-- Working on its value does not change where an action leads. -/
theorem Leads.bind_pure (leads : Leads view v R x) (g : α → β) :
    Leads view v R (x >>= fun a => Pure.pure (g a)) := by
  intro s shown
  rw [after_bind_pure]
  exact leads s shown

/-- Nor does it where the rest of an action only reads. -/
theorem Leads.bind_reads (leads : Leads view v R x) (next : ∀ a, Reads view (f a)) :
    Leads view v R (x >>= f) := by
  intro s shown
  cases ended : result x s with
  | error e =>
    rw [(bind_of_error ended).2]
    exact leads s shown
  | ok a =>
    rw [(bind_of_ok ended).2, next a]
    exact leads s shown

/-- From states that show `v`, the action ends well with exactly the values that have the property `P`. -/
def Yields (view : σ → τ) (v : τ) (x : Action ε σ α) (P : α → Prop) : Prop :=
  ∀ s, view s = v → ∀ a, result x s = .ok a ↔ P a

variable {P : α → Prop} {Q : α → β → Prop}

theorem Yields.pure (a : α) : Yields view v (pure a : Action ε σ α) (a = ·) :=
  fun _ _ b => Except.ok.injEq a b ▸ Iff.rfl

/-- What an action yields after nothing but reading is what the rest of it yields after some first value. -/
theorem Yields.bind (first : Yields view v x P) (reads : Reads view x)
    (next : ∀ a, P a → Yields view v (f a) (Q a)) : Yields view v (x >>= f) fun b => ∃ a, P a ∧ Q a b := by
  intro s shown b
  rw [bind_ok_iff]
  refine exists_congr fun a => ?_
  rw [first s shown a]
  exact and_congr_right fun held => next a held _ ((reads s).trans shown) b

theorem Yields.congr {P' : α → Prop} (yields : Yields view v x P) (same : ∀ a, P a ↔ P' a) : Yields view v x P' :=
  fun s shown a => (yields s shown a).trans (same a)

/-- How the action ends is told by the shown part of the state. -/
def DependsOn (view : σ → τ) (x : Action ε σ α) : Prop :=
  ∀ s s', view s = view s' → result x s = result x s'

theorem DependsOn.pure (a : α) : DependsOn view (pure a : Action ε σ α) :=
  fun _ _ _ => rfl

theorem DependsOn.bind (first : DependsOn view x) (reads : Reads view x) (next : ∀ a, DependsOn view (f a)) :
    DependsOn view (x >>= f) := by
  intro s s' same
  have ends := first s s' same
  cases ended : result x s with
  | error e =>
    rw [(bind_of_error ended).1, (bind_of_error (ends.symm.trans ended)).1]
  | ok a =>
    rw [(bind_of_ok ended).1, (bind_of_ok (ends.symm.trans ended)).1]
    refine next a _ _ ?_
    rw [reads, reads, same]

end Action

/-- A computation is known to end well if a test of its value can be run on it. -/
theorem exists_eq_ok_of_any {ε α : Type} {r : Except ε α} {test : α → Bool}
    (passed : r.toOption.any test = true) : ∃ a, r = .ok a ∧ test a = true := by
  cases r with
  | error e => cases passed
  | ok a => exact ⟨a, rfl, passed⟩

theorem exists_eq_ok_of_isOk {ε α : Type} {r : Except ε α} (ended : r.isOk = true) : ∃ a, r = .ok a := by
  cases r with
  | error e => cases ended
  | ok a => exact ⟨a, rfl⟩

theorem eq_ok_of_toOption {ε α : Type} {r : Except ε α} {a : α} (ended : r.toOption = some a) : r = .ok a := by
  cases r with
  | error e => cases ended
  | ok b =>
    cases ended
    rfl

/-- Only errors are wrapped. -/
theorem eq_ok_of_mapError {ε ε' α : Type} {wrap : ε → ε'} {r : Except ε α} {a : α}
    (success : r.mapError wrap = .ok a) : r = .ok a := by
  cases r with
  | error e => cases success
  | ok b =>
    cases success
    rfl

end DocSchema
