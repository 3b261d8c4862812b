import DocSchema.Proofs.Action
import DocSchema.Proofs.Store.Records
import DocSchema.Proofs.Store.Steps
import DocSchema.Proofs.Validation.Positions

/-!
# Fields beside a write

Two chains of keys diverge if neither goes on from the other. A write shows at its own path and leaves alone what
is read at paths that diverge from it, apart from what a custom default brings into a level that the write makes.
Writes at diverging paths that bring in nothing else come to the same in every order.
-/

namespace DocSchema

/-- Neither chain of keys goes on from the other. -/
def Diverge (keys others : List String) : Prop :=
  ¬ keys <+: others ∧ ¬ others <+: keys

namespace Diverge

variable {key : String} {keys others : List String}

instance : Decidable (Diverge keys others) := inferInstanceAs (Decidable (_ ∧ _))

theorem symm (apart : Diverge keys others) : Diverge others keys :=
  And.symm apart

theorem ne_nil (apart : Diverge keys others) : keys ≠ [] := by
  rintro rfl
  exact apart.1 List.nil_prefix

/-- Behind a common key the chains still have to diverge. -/
theorem of_cons (apart : Diverge (key :: keys) (key :: others)) : Diverge keys others :=
  ⟨fun onward => apart.1 (List.cons_prefix_cons.2 ⟨rfl, onward⟩),
    fun onward => apart.2 (List.cons_prefix_cons.2 ⟨rfl, onward⟩)⟩

end Diverge

namespace Assoc

variable {α : Type} {name other : String}

/-- Insertions under different names come to the same in either order, whether the list is sorted or not. -/
theorem insert_comm (apart : name ≠ other) (a b : α) (entries : Assoc α) :
    insert other b (insert name a entries) = insert name a (insert other b entries) := by
  induction entries with
  | nil =>
    simp only [insert]
    grind
  | cons e rest ih =>
    -- Both names pass the same entries, up to the first one that either of them stops at.
    obtain ⟨n, c⟩ := e
    simp only [insert]
    grind [insert, String.lt_trans, String.lt_asymm]

theorem contains_insert (held : contains name entries = true) (other : String) (a : α) :
    contains name (insert other a entries) = true := by
  by_cases same : other = name
  · simp [contains, same]
  · rwa [contains, get?_insert_of_ne same]

end Assoc

namespace PathStep

theorem exists_literal {s : PathStep} (literal : s.isPlaceholder = false) : ∃ name, s.key = .literal name := by
  obtain ⟨key, type, custom⟩ := s
  cases key with
  | literal name => exact ⟨name, rfl⟩
  | placeholder name => cases literal

/-- A level is filled only by a custom default that is an object. -/
theorem freshMembers_of_no_object {s : PathStep} (plain : ∀ members, s.custom ≠ some (.obj members)) :
    s.freshMembers = [] := by
  obtain ⟨key, type, custom⟩ := s
  cases custom with
  | none => cases type <;> rfl
  | some v =>
    cases v with
    | obj members => exact absurd rfl (plain members)
    | _ => rfl

end PathStep

theorem Path.keys_cons {s : PathStep} {key : String} (literal : s.key = .literal key) (rest : List PathStep) :
    Path.keys ⟨s :: rest⟩ = key :: Path.keys ⟨rest⟩ := by
  rw [keys, List.map_cons, literal]
  rfl

namespace Json

variable {path : Path} {value v : Json} {s : PathStep} {steps rest : List PathStep} {keys : List String}
  {members after : Members}

/-- A read along literal steps finds what is under their keys. -/
theorem readSteps_of_literal (literal : ∀ s ∈ steps, s.isPlaceholder = false) (v : Json) :
    readSteps steps v = .ok (v.at? (Path.keys ⟨steps⟩)) := by
  induction steps generalizing v with
  | nil => rfl
  | cons s rest ih =>
    obtain ⟨key, type, custom⟩ := s
    cases key with
    | placeholder name => cases literal _ List.mem_cons_self
    | literal name =>
      have onward := ih fun r member => literal r (List.mem_cons_of_mem _ member)
      change _ = Except.ok ((v.member? name).bind fun next => next.at? (Path.keys ⟨rest⟩))
      rw [readSteps_cons rfl]
      cases v.member? name with
      | none => rfl
      | some next => exact onward next

/-- All steps of a write have literal keys. -/
theorem literal_of_writeSteps (success : writeSteps path value steps members = .ok after) :
    ∀ s ∈ steps, s.isPlaceholder = false := by
  induction steps generalizing members after with
  | nil => exact List.forall_mem_nil _
  | cons s rest ih =>
    obtain ⟨key, w, literal, -, written⟩ := writeSteps_cons_ok success
    have first : s.isPlaceholder = false := by rw [PathStep.isPlaceholder, literal]; rfl
    refine List.forall_mem_cons.2 ⟨first, ?_⟩
    rcases written with ⟨rfl, -⟩ | ⟨-, level, below, -, written, -⟩
    · exact List.forall_mem_nil _
    · exact ih written

/-- What is written at the end of the steps stands under their keys. -/
theorem at?_of_writeSteps (success : writeSteps path value steps members = .ok after) :
    (obj after).at? (Path.keys ⟨steps⟩) = some value := by
  have read := readSteps_of_writeSteps success
  rw [readSteps_of_literal (literal_of_writeSteps success)] at read
  exact Except.ok.inj read

/-- Nothing stands below a level that a write has to make. -/
theorem at?_of_absent {key : String}
    (absent : Assoc.get? key members = none ∨ Assoc.get? key members = some .null) (deeper : keys ≠ []) :
    (obj members).at? (key :: keys) = none := by
  obtain ⟨next, rest, rfl⟩ := List.exists_cons_of_ne_nil deeper
  rw [at?, member?]
  rcases absent with absent | absent <;> rw [absent] <;> rfl

/-- A write leaves alone what stands under diverging keys. Where nothing stands, it puts nothing there unless it
fills a level with a custom default. -/
theorem at?_writeSteps (apart : Diverge (Path.keys ⟨steps⟩) keys)
    (plain : (obj members).at? keys = none → ∀ s ∈ steps, s.freshMembers = [])
    (success : writeSteps path value steps members = .ok after) :
    (obj after).at? keys = (obj members).at? keys := by
  induction steps generalizing keys members after with
  | nil => cases success
  | cons s rest ih =>
    obtain ⟨key, w, literal, rfl, written⟩ := writeSteps_cons_ok success
    obtain ⟨name, tail, rfl⟩ := List.exists_cons_of_ne_nil apart.symm.ne_nil
    rw [Path.keys_cons literal] at apart
    by_cases same : key = name
    · subst same
      have further : Diverge (Path.keys ⟨rest⟩) tail := apart.of_cons
      have now : (obj (Assoc.insert key w members)).at? (key :: tail) = w.at? tail := by
        rw [at?, member?, Assoc.get?_insert_self, Option.bind_some]
      rw [now]
      rcases written with ⟨rfl, -⟩ | ⟨-, level, below, start, written, rfl⟩
      · exact absurd rfl further.ne_nil
      · rcases start with present | ⟨rfl, absent⟩
        · have before : (obj members).at? (key :: tail) = (obj level).at? tail := by
            rw [at?, member?, present, Option.bind_some]
          rw [before] at plain ⊢
          exact ih further (fun none r member => plain none r (List.mem_cons_of_mem s member)) written
        · have before : (obj members).at? (key :: tail) = none := at?_of_absent absent further.symm.ne_nil
          have empty := plain before
          rw [before, ih further (fun _ r member => empty r (List.mem_cons_of_mem s member)) written,
            empty s List.mem_cons_self]
          obtain ⟨next, deeper, rfl⟩ := List.exists_cons_of_ne_nil further.symm.ne_nil
          rfl
    · rw [at?, at?, member?, member?, Assoc.get?_insert_of_ne same]

theorem contains_writeSteps {name : String} (held : Assoc.contains name members = true)
    (success : writeSteps path value steps members = .ok after) : Assoc.contains name after = true := by
  cases steps with
  | nil => cases success
  | cons s rest =>
    obtain ⟨key, w, -, rfl, -⟩ := writeSteps_cons_ok success
    exact Assoc.contains_insert held key w

/-- Where a write has left a level, the next one goes on in it. -/
theorem levelAt_insert_self {key : String} {level below : Members} :
    LevelAt s key (Assoc.insert key (.obj below) members) level ↔ level = below := by
  simp [LevelAt, eq_comm]

/-- A write succeeds if its first step is literal and what it puts there can be written. -/
theorem writeSteps_cons_of {key : String} {w : Json} (literal : s.key = .literal key)
    (written : rest = [] ∧ w = value ∨
      rest ≠ [] ∧ ∃ level below, LevelAt s key members level ∧
        writeSteps path value rest level = .ok below ∧ w = .obj below) :
    writeSteps path value (s :: rest) members = .ok (Assoc.insert key w members) := by
  rcases written with ⟨rfl, rfl⟩ | ⟨more, level, below, start, written, rfl⟩
  · rw [writeSteps, PathStep.literalKey_of_literal literal]
    rfl
  · rw [writeSteps, PathStep.literalKey_of_literal literal]
    · simp only [bind, Except.bind]
      rcases start with present | ⟨rfl, absent | null⟩
      · simp only [present, written]
        rfl
      · simp only [absent, written]
        rfl
      · simp only [null, written]
        rfl
    · exact more

/-- Of two writes at diverging paths that make empty levels only, either one can be the first. -/
theorem writeSteps_comm {next : Path} {other : Json} {others : List PathStep} {mid : Members}
    (apart : Diverge (Path.keys ⟨steps⟩) (Path.keys ⟨others⟩)) (plain : ∀ s ∈ steps, s.freshMembers = [])
    (plainOthers : ∀ s ∈ others, s.freshMembers = [])
    (first : writeSteps path value steps members = .ok mid) (second : writeSteps next other others mid = .ok after) :
    ∃ mid, writeSteps next other others members = .ok mid ∧ writeSteps path value steps mid = .ok after := by
  induction steps generalizing others members mid after with
  | nil => cases first
  | cons s rest ih =>
    cases others with
    | nil => cases second
    | cons r tail =>
      obtain ⟨key, w, literal, rfl, written⟩ := writeSteps_cons_ok first
      obtain ⟨name, x, literalOther, rfl, writtenOther⟩ := writeSteps_cons_ok second
      by_cases same : key = name
      · subst same
        rw [Path.keys_cons literal, Path.keys_cons literalOther] at apart
        have further : Diverge (Path.keys ⟨rest⟩) (Path.keys ⟨tail⟩) := apart.of_cons
        rcases written with ⟨rfl, -⟩ | ⟨more, level, below, start, written, rfl⟩
        · exact absurd rfl further.ne_nil
        rcases writtenOther with ⟨rfl, -⟩ | ⟨moreOther, entered, final, startOther, writtenOther, rfl⟩
        · exact absurd rfl further.symm.ne_nil
        -- The second write goes on in the level that the first one has left.
        cases levelAt_insert_self.1 startOther
        obtain ⟨between, writtenFirst, writtenThen⟩ :=
          ih further (fun p member => plain p (List.mem_cons_of_mem s member))
            (fun p member => plainOthers p (List.mem_cons_of_mem r member)) written writtenOther
        have startFirst : LevelAt r key members level := by
          rcases start with present | ⟨rfl, absent⟩
          · exact .inl present
          · rw [plain s List.mem_cons_self, ← plainOthers r List.mem_cons_self]
            exact .inr ⟨rfl, absent⟩
        have startThen : LevelAt s key (Assoc.insert key (.obj between) members) between := levelAt_insert_self.2 rfl
        have wroteFirst := writeSteps_cons_of literalOther
          (.inr ⟨moreOther, level, between, startFirst, writtenFirst, rfl⟩)
        have wroteThen := writeSteps_cons_of literal (.inr ⟨more, between, final, startThen, writtenThen, rfl⟩)
        rw [Assoc.insert_insert] at wroteThen ⊢
        exact ⟨_, wroteFirst, wroteThen⟩
      · -- Each of the two finds the same member under its own key, whether the other one has been there or not.
        have untouched : Assoc.get? name (Assoc.insert key w members) = Assoc.get? name members :=
          Assoc.get?_insert_of_ne same w members
        have back : Assoc.get? key (Assoc.insert name x members) = Assoc.get? key members :=
          Assoc.get?_insert_of_ne (Ne.symm same) x members
        unfold LevelAt at written writtenOther
        rw [untouched] at writtenOther
        rw [← back] at written
        refine ⟨Assoc.insert name x members, writeSteps_cons_of literalOther writtenOther, ?_⟩
        rw [Assoc.insert_comm same]
        exact writeSteps_cons_of literal written

end Json

namespace MemoryStore

variable {s s' : MemoryStore} {key : RecordKey} {updates others : List (Path × Json)} {keys : List String}
  {before after : Json.Members}

/-- A read of a field finds what stands under the keys of the path in the record, if there is one. -/
theorem getField_eq {p : Path} (literal : p.IsLiteral) (start : p.steps ≠ []) :
    s.getField key p = .ok ((s.find? key).bind fun record => record.at? p.keys) := by
  have entered : p.isRoot = false := by simpa [Path.isRoot] using start
  rw [getField, entered]
  cases s.find? key with
  | none => rfl
  | some record => exact Json.readSteps_of_literal literal record

theorem ne_nil_of_getField {p : Path} {r : Option Json} (read : s.getField key p = .ok r) : p.steps ≠ [] := by
  intro root
  rw [getField, show p.isRoot = true by rw [Path.isRoot, root]; rfl] at read
  cases read

/-- What a read of a field of a stored record has given stands there. -/
theorem at?_of_getField {p : Path} {record : Json} {r : Option Json} (found : s.find? key = some record)
    (literal : p.IsLiteral) (read : s.getField key p = .ok r) : record.at? p.keys = r := by
  rw [getField_eq literal (ne_nil_of_getField read), found, Option.bind_some] at read
  exact Except.ok.inj read

theorem getField_put {p : Path} (literal : p.IsLiteral) (start : p.steps ≠ []) (members : Json.Members) :
    (s.put key members).getField key p = .ok ((Json.obj members).at? p.keys) := by
  rw [getField_eq literal start, find?_put_self, Option.bind_some]

/-- A batch leaves alone what stands under keys that diverge from all of its paths. -/
theorem at?_writeAll (apart : ∀ u ∈ updates, Diverge u.1.keys keys)
    (plain : (Json.obj before).at? keys = none → ∀ u ∈ updates, ∀ s ∈ u.1.steps, s.freshMembers = [])
    (success : writeAll updates before = .ok after) :
    (Json.obj after).at? keys = (Json.obj before).at? keys := by
  refine writeAll_induction (P := fun members => (Json.obj members).at? keys = (Json.obj before).at? keys)
    (fun u member members next same written => ?_) rfl success
  rw [Json.at?_writeSteps (apart u member) (fun none => plain (same ▸ none) u member) written, same]

theorem at?_writeAll_of_some {v : Json} (apart : ∀ u ∈ updates, Diverge u.1.keys keys)
    (stands : (Json.obj before).at? keys = some v) (success : writeAll updates before = .ok after) :
    (Json.obj after).at? keys = some v := by
  refine (at?_writeAll apart (fun none => ?_) success).trans stands
  cases stands.symm.trans none

/-- What an update has written stands there if all later ones diverge from it. -/
theorem at?_of_writeAll {earlier later : List (Path × Json)} {p : Path} {v : Json}
    (apart : ∀ u ∈ later, Diverge u.1.keys p.keys)
    (success : writeAll (earlier ++ (p, v) :: later) before = .ok after) :
    p.IsLiteral ∧ p.steps ≠ [] ∧ (Json.obj after).at? p.keys = some v := by
  rw [writeAll_append] at success
  obtain ⟨first, -, success⟩ := Traced.except_bind_ok_iff.1 success
  obtain ⟨second, written, success⟩ := Traced.except_bind_ok_iff.1 success
  have stands := Json.at?_of_writeSteps written
  have start : p.steps ≠ [] := by
    intro root
    rw [root] at written
    cases written
  exact ⟨Json.literal_of_writeSteps written, start, at?_writeAll_of_some apart stands success⟩

theorem contains_writeAll {name : String} (held : Assoc.contains name before = true)
    (success : writeAll updates before = .ok after) : Assoc.contains name after = true :=
  writeAll_induction (P := fun members => Assoc.contains name members = true)
    (fun _ _ _ _ held written => Json.contains_writeSteps held written) held success

/-- The first two updates of a batch can change places. -/
theorem writeAll_swap {u w : Path × Json} (apart : Diverge u.1.keys w.1.keys)
    (plain : ∀ s ∈ u.1.steps, s.freshMembers = []) (plainOther : ∀ s ∈ w.1.steps, s.freshMembers = [])
    (success : writeAll (u :: w :: updates) before = .ok after) :
    writeAll (w :: u :: updates) before = .ok after := by
  simp only [writeAll, Traced.except_bind_ok_iff] at success ⊢
  obtain ⟨mid, first, last, second, later⟩ := success
  obtain ⟨other, wrote, wroteThen⟩ := Json.writeSteps_comm apart plain plainOther first second
  exact ⟨other, wrote, last, wroteThen, later⟩

/-- A batch at pairwise diverging paths that makes empty levels only leaves the same record in every order. -/
theorem writeAll_perm (reordered : others.Perm updates)
    (apart : updates.Pairwise fun u w => Diverge u.1.keys w.1.keys)
    (plain : ∀ u ∈ updates, ∀ s ∈ u.1.steps, s.freshMembers = []) :
    writeAll others before = .ok after ↔ writeAll updates before = .ok after := by
  induction reordered generalizing before with
  | nil => exact Iff.rfl
  | cons u _ ih =>
    have later := (List.pairwise_cons.1 apart).2
    have plainLater := (List.forall_mem_cons.1 plain).2
    simp only [writeAll, Traced.except_bind_ok_iff, ih later plainLater]
  | swap u w rest =>
    have meet : Diverge u.1.keys w.1.keys := (List.pairwise_cons.1 apart).1 w List.mem_cons_self
    obtain ⟨plainU, plainW, -⟩ : _ ∧ _ ∧ _ := by simpa only [List.forall_mem_cons] using plain
    exact ⟨writeAll_swap meet.symm plainW plainU, writeAll_swap meet plainU plainW⟩
  | trans _ two ihOne ihTwo =>
    have apartMid := two.symm.pairwise apart fun {_ _} meet => meet.symm
    have plainMid := fun u member => plain u (two.subset member)
    rw [ihOne apartMid plainMid, ihTwo apart plain]

/-- What a successful batch has done: each update shows at its path unless a later one meets it there. What is read
at a path that diverges from all updates stays; nothing appears there either, if the record was there and no custom
default fills a level. Other records stay, and a new record has its key, with its value unless an update meets it. -/
theorem setFields_shows_and_spares (s : MemoryStore) (key : RecordKey) (updates : List (Path × Json))
    (s' : MemoryStore) (written : s.setFields key updates = .ok s') :
    (∀ earlier p v later, updates = earlier ++ (p, v) :: later → (∀ u ∈ later, Diverge u.1.keys p.keys) →
      s'.getField key p = .ok (some v)) ∧
    (∀ q : Path, q.IsLiteral → (∀ u ∈ updates, Diverge u.1.keys q.keys) → ∀ v,
      s.getField key q = .ok (some v) → s'.getField key q = .ok (some v)) ∧
    ((s.find? key).isSome = true →
      (∀ u ∈ updates, ∀ step ∈ u.1.steps, ∀ members, step.custom ≠ some (.obj members)) →
      ∀ q : Path, q.IsLiteral → (∀ u ∈ updates, Diverge u.1.keys q.keys) →
        s.getField key q = .ok none → s'.getField key q = .ok none) ∧
    (∀ id, id ≠ key.id → s'.records.get? id = s.records.get? id) ∧
    (s.find? key = none → ∃ record, s'.find? key = some (.obj record) ∧
      Assoc.contains key.name record = true ∧
      ((∀ u ∈ updates, Diverge u.1.keys [key.name]) → Assoc.get? key.name record = some key.value)) := by
  obtain ⟨before, after, started, applied, rfl⟩ := setFields_ok written
  refine ⟨?_, ?_, ?_, ?_, ?_⟩
  · rintro earlier p v later rfl apart
    obtain ⟨literal, start, stands⟩ := at?_of_writeAll apart applied
    rw [getField_put literal start, stands]
  · intro q literal apart v read
    rcases target_ok started with found | ⟨absent, -⟩
    · have stands := at?_of_getField found literal read
      rw [getField_put literal (ne_nil_of_getField read), at?_writeAll_of_some apart stands applied]
    · rw [getField_of_absent absent (ne_nil_of_getField read)] at read
      cases read
  · intro present plain q literal apart read
    rcases target_ok started with found | ⟨absent, -⟩
    · have empty : ∀ u ∈ updates, ∀ step ∈ u.1.steps, step.freshMembers = [] := fun u member step inside =>
        PathStep.freshMembers_of_no_object (plain u member step inside)
      rw [getField_put literal (ne_nil_of_getField read), at?_writeAll apart (fun _ => empty) applied,
        at?_of_getField found literal read]
    · rw [absent] at present
      cases present
  · intro id other
    exact SortedMap.get?_insert_of_ne _ (Ne.symm other) _
  · intro absent
    rcases target_ok started with found | ⟨-, rfl⟩
    · cases absent.symm.trans found
    · have held : Assoc.contains key.name [(key.name, key.value)] = true := by simp [Assoc.contains, Assoc.get?]
      refine ⟨after, find?_put_self s key after, contains_writeAll held applied, fun apart => ?_⟩
      have start : (Json.obj [(key.name, key.value)]).at? [key.name] = some key.value := by
        simp [Json.at?, Json.member?, Assoc.get?]
      have kept := at?_writeAll_of_some apart start applied
      obtain ⟨v, present, same⟩ := Option.bind_eq_some_iff.1 kept
      exact Eq.trans present same

/-! A team with a rank and with a home that is not known yet. -/

def teamKey : RecordKey :=
  ⟨"id", .str "t1"⟩

def teamStore : MemoryStore :=
  (empty .passThrough).put teamKey
    [("home", .null), ("id", .str "t1"), ("rank", .obj [("overall", .num (.int 3))])]

def teamPath (keys : List String) : Path :=
  ⟨keys.map fun key => .literal key .map⟩

/-- A write beside the rank and one below the missing home. -/
def teamUpdates : List (Path × Json) :=
  [(teamPath ["rank", "season"], .num (.int 1)), (teamPath ["home", "city"], .str "Rome")]

theorem teamUpdates_plain : ∀ u ∈ teamUpdates, ∀ step ∈ u.1.steps, step.custom = none := by decide

theorem teamStore_setFields : ∃ s', teamStore.setFields teamKey teamUpdates = .ok s' ∧
    s'.getField teamKey (teamPath ["rank", "season"]) = .ok (some (.num (.int 1))) ∧
    s'.getField teamKey (teamPath ["home", "city"]) = .ok (some (.str "Rome")) ∧
    s'.getField teamKey (teamPath ["rank", "overall"]) = .ok (some (.num (.int 3))) ∧
    s'.getField teamKey (teamPath ["home", "street"]) = .ok none := by
  obtain ⟨s', written⟩ := exists_eq_ok_of_isOk
    (show (teamStore.setFields teamKey teamUpdates).isOk = true by decide)
  obtain ⟨shown, kept, missing, -, -⟩ := setFields_shows_and_spares teamStore teamKey teamUpdates s' written
  refine ⟨s', written, ?_, ?_, ?_, ?_⟩
  · exact shown [] _ _ _ rfl (by decide)
  · exact shown [_] _ _ [] rfl (by decide)
  · exact kept _ (by unfold Path.IsLiteral; decide) (by decide) _ (by rfl)
  · have plain : ∀ u ∈ teamUpdates, ∀ step ∈ u.1.steps, ∀ members, step.custom ≠ some (.obj members) := by
      intro u member step inside members custom
      cases (teamUpdates_plain u member step inside).symm.trans custom
    exact missing (by decide) plain _ (by unfold Path.IsLiteral; decide) (by decide) (by rfl)

/-- A batch at pairwise diverging paths without custom defaults does the same to a store in every order. -/
theorem setFields_perm (s : MemoryStore) (key : RecordKey) (updates others : List (Path × Json))
    (apart : updates.Pairwise fun u w => Diverge u.1.keys w.1.keys)
    (plain : ∀ u ∈ updates, ∀ step ∈ u.1.steps, step.custom = none) (reordered : others.Perm updates) :
    ∀ s', s.setFields key others = .ok s' ↔ s.setFields key updates = .ok s' := by
  intro s'
  have empty : ∀ u ∈ updates, ∀ step ∈ u.1.steps, step.freshMembers = [] := by
    intro u member step inside
    refine PathStep.freshMembers_of_no_object fun members custom => ?_
    cases (plain u member step inside).symm.trans custom
  simp only [setFields, Traced.except_bind_ok_iff, writeAll_perm reordered apart empty]

theorem teamStore_setFields_reversed :
    teamUpdates.Pairwise (fun u w => Diverge u.1.keys w.1.keys) ∧
    (∀ u ∈ teamUpdates, ∀ step ∈ u.1.steps, step.custom = none) ∧ teamUpdates.reverse.Perm teamUpdates ∧
    ∃ s', teamStore.setFields teamKey teamUpdates = .ok s' ∧
      teamStore.setFields teamKey teamUpdates.reverse = .ok s' := by
  have apart : teamUpdates.Pairwise fun u w => Diverge u.1.keys w.1.keys := by decide
  have reordered : teamUpdates.reverse.Perm teamUpdates := List.reverse_perm _
  obtain ⟨s', written⟩ := exists_eq_ok_of_isOk
    (show (teamStore.setFields teamKey teamUpdates).isOk = true by decide)
  exact ⟨apart, teamUpdates_plain, reordered, s', written,
    (setFields_perm teamStore teamKey teamUpdates _ apart teamUpdates_plain reordered s').2 written⟩

end MemoryStore

end DocSchema
